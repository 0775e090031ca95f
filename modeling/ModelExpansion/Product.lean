/-! # Products of domains
All tuples over a list of domains, the last position moving fastest. With no position there is one
empty tuple; with an empty domain there is none. `product` lists the tuples at once. The other
functions go through them one after the other and need not reach the last one; each does what it
would do on the list. -/

namespace ModelExpansion

variable {α β σ : Type}

/-- The tuples that take one element from each domain, in lexicographic order. -/
def product : List (List α) → List (List α)
  | [] => [[]]
  | [] :: _ => []
  | (a :: as) :: ds =>
    let rest := product ds
    (a :: as).flatMap fun x => rest.map (x :: ·)

theorem product_cons (d : List α) (ds : List (List α)) :
    product (d :: ds) = d.flatMap fun a => (product ds).map (a :: ·) := by
  cases d <;> simp [product]

/-- Whether there is no tuple because some domain is empty. -/
def hasEmptyDomain (domains : List (List α)) : Bool := domains.any List.isEmpty

theorem product_eq_nil {domains : List (List α)} (h : hasEmptyDomain domains) :
    product domains = [] := by
  induction domains with
  | nil => cases h
  | cons d ds ih =>
    rw [product_cons]
    cases d with
    | nil => rfl
    | cons a as => simp [ih h]

section Traversal

variable {m : Type → Type} [Monad m]

/-- Whether a test holds of every tuple. The tuples after the first at which it fails are not
tested. -/
def allTuplesM (test : List α → m Bool) (domains : List (List α)) : m Bool :=
  if hasEmptyDomain domains then return true else go test domains
where
  go (test : List α → m Bool) : List (List α) → m Bool
    | [] => test []
    | d :: ds => d.allM fun a => go (fun t => test (a :: t)) ds

/-- What a function gives for every tuple, in order. -/
def mapTuplesM (f : List α → m β) (domains : List (List α)) : m (List β) :=
  if hasEmptyDomain domains then return [] else go f domains
where
  go (f : List α → m β) : List (List α) → m (List β)
    | [] => return [← f []]
    | d :: ds => return (← d.mapM fun a => go (fun t => f (a :: t)) ds).flatten

def foldTuplesM (step : σ → List α → m σ) (domains : List (List α)) (s : σ) : m σ :=
  if hasEmptyDomain domains then return s else go step domains s
where
  go (step : σ → List α → m σ) : List (List α) → σ → m σ
    | [], s => step s []
    | d :: ds, s => d.foldlM (fun s a => go (fun s t => step s (a :: t)) ds s) s

theorem allM_map (f : α → β) (test : β → m Bool) (xs : List α) :
    (xs.map f).allM test = xs.allM fun x => test (f x) := by
  induction xs with
  | nil => rfl
  | cons x xs ih => simp only [List.map_cons, List.allM_cons, ih]

variable [LawfulMonad m]

theorem allM_append (test : α → m Bool) (xs ys : List α) :
    (xs ++ ys).allM test = do if ← xs.allM test then ys.allM test else return false := by
  induction xs with
  | nil => simp
  | cons x xs ih =>
    simp only [List.cons_append, List.allM_cons, ih, bind_assoc]
    refine bind_congr fun b => ?_
    cases b <;> simp

theorem allTuplesM_go_eq (test : List α → m Bool) (domains : List (List α)) :
    allTuplesM.go test domains = (product domains).allM test := by
  induction domains generalizing test with
  | nil =>
    simp only [allTuplesM.go, product, List.allM_cons, List.allM_nil]
    exact (bind_pure _).symm.trans (bind_congr fun b => by cases b <;> rfl)
  | cons d ds ih =>
    simp only [allTuplesM.go, product_cons, ih]
    induction d with
    | nil => rfl
    | cons a as iha => simp only [List.allM_cons, List.flatMap_cons, allM_append, allM_map, iha]

theorem allTuplesM_eq (test : List α → m Bool) (domains : List (List α)) :
    allTuplesM test domains = (product domains).allM test := by
  rw [allTuplesM]
  split
  next h => simp [product_eq_nil h]
  next => exact allTuplesM_go_eq test domains

theorem mapTuplesM_go_eq (f : List α → m β) (domains : List (List α)) :
    mapTuplesM.go f domains = (product domains).mapM f := by
  induction domains generalizing f with
  | nil => simp [mapTuplesM.go, product]
  | cons d ds ih =>
    simp only [mapTuplesM.go, product_cons, ih]
    induction d with
    | nil => simp
    | cons a as iha =>
      rw [List.flatMap_cons, List.mapM_append, ← iha, List.mapM_map]
      simp [Function.comp_def]

theorem mapTuplesM_eq (f : List α → m β) (domains : List (List α)) :
    mapTuplesM f domains = (product domains).mapM f := by
  rw [mapTuplesM]
  split
  next h => simp [product_eq_nil h]
  next => exact mapTuplesM_go_eq f domains

theorem foldTuplesM_go_eq (step : σ → List α → m σ) (domains : List (List α)) (s : σ) :
    foldTuplesM.go step domains s = (product domains).foldlM step s := by
  induction domains generalizing step s with
  | nil => simp [foldTuplesM.go, product]
  | cons d ds ih =>
    simp only [foldTuplesM.go, product_cons, ih]
    induction d generalizing s with
    | nil => rfl
    | cons a as iha =>
      simp only [List.foldlM_cons, List.flatMap_cons, List.foldlM_append, List.foldlM_map, iha]

theorem foldTuplesM_eq (step : σ → List α → m σ) (domains : List (List α)) (s : σ) :
    foldTuplesM step domains s = (product domains).foldlM step s := by
  rw [foldTuplesM]
  split
  next h => simp [product_eq_nil h]
  next => exact foldTuplesM_go_eq step domains s

end Traversal

end ModelExpansion
