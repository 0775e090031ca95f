import ModelExpansion.Encoding.Formula
import ModelExpansion.Proofs.Encoding.Gates

/-! # Cases of terms and literals of atoms
The cases of a function application and the literals of atoms and comparisons say what their
arguments' cases say. -/

namespace ModelExpansion

open ModelExpansion.Sat

theorem mapM_id_cons_eq_some {α : Type} {x : Option α} {xs : List (Option α)} {t : List α} :
    (x :: xs).mapM id = some t ↔ ∃ a t', x = some a ∧ xs.mapM id = some t' ∧ t = a :: t' := by
  rw [List.mapM_cons]
  cases x with
  | none => simp
  | some a =>
      cases xs.mapM id with
      | none => simp
      | some t' => simp [eq_comm]

theorem forall₂_zipWith {α β γ δ : Type} {r : α → β → Prop} {r' : α → γ → Prop} {r'' : α → δ → Prop}
    {f : β → γ → δ} {xs : List α} {ys : List β} {zs : List γ} (hy : List.Forall₂ r xs ys)
    (hz : List.Forall₂ r' xs zs) (hf : ∀ x y z, r x y → r' x z → r'' x (f y z)) :
    List.Forall₂ r'' xs (List.zipWith f ys zs) := by
  induction hy generalizing zs with
  | nil => exact .nil
  | cons hxy _ ih =>
      cases hz with
      | cons hxz hz => exact .cons (hf _ _ _ hxy hxz) (ih hz)

namespace Encoding

open Encoder

variable {e e' : Encoder}

/-- A computation on each member of a list, with a property that later steps keep. -/
theorem gives_mapM {α β : Type} {f : α → Encoding β} {R : Encoder → α → β → Prop}
    (hmono : ∀ {e e' a b}, Grown e e' → R e a b → R e' a b) {xs : List α} (h : Sound e)
    (hf : ∀ a ∈ xs, ∀ e', Grown e e' → Sound e' → Gives (f a) e' fun e'' => R e'' a) :
    Gives (xs.mapM f) e fun e' => List.Forall₂ (R e') xs := by
  induction xs generalizing e with
  | nil =>
      rw [List.mapM_nil]
      exact .pure h .nil
  | cons x xs ih =>
      rw [List.mapM_cons]
      refine .bind h (hf x List.mem_cons_self e (.refl h) h) fun y e₁ hg₁ h₁ hy => ?_
      have hrest := ih h₁ fun a ha e' hg => hf a (List.mem_cons_of_mem _ ha) e' (hg₁.trans hg h)
      refine .bind h₁ hrest fun ys e₂ hg₂ h₂ hys => ?_
      exact .pure h₂ (.cons (hmono hg₂ hy) hys)

/-! ## Arguments -/

/-- Values of several terms, when all of them have one. -/
def all {κ : Type} (vs : List (World → Option κ)) (W : World) : Option (List κ) :=
  (vs.map fun v => v W).mapM id

theorem var_lt_of_mem_product {κ : Type} {cases : List (List (κ × Lit))}
    {vs : List (World → Option κ)}
    (h : List.Forall₂ (Denotes e) cases vs) {choice : List (κ × Lit)}
    (hc : choice ∈ product cases) :
    ∀ l ∈ choice.map Prod.snd, l.var < e.solver.numVars := by
  induction h generalizing choice with
  | nil =>
      rw [product, List.mem_singleton] at hc
      subst hc
      exact fun l hl => absurd hl List.not_mem_nil
  | cons hv _ ih =>
      obtain ⟨a, ha, rest, hrest, rfl⟩ := mem_product_cons.mp hc
      intro l hl
      rcases List.mem_cons.mp hl with rfl | hl
      · exact hv.var_lt a ha
      · exact ih hrest l hl

theorem all_eq_some_iff {κ : Type} {cases : List (List (κ × Lit))} {vs : List (World → Option κ)}
    (h : List.Forall₂ (Denotes e) cases vs) {α : Nat → Bool} (hα : e.solver.Admits α) {t : List κ} :
    all vs (e.world α) = some t ↔
      ∃ choice ∈ product cases, choice.map Prod.fst = t ∧ ∀ l ∈ choice.map Prod.snd, l.Holds α := by
  induction h generalizing t with
  | nil =>
      rw [all, List.map_nil, List.mapM_nil]
      constructor
      · intro ht
        cases ht
        exact ⟨[], List.mem_singleton.mpr rfl, rfl, fun l hl => absurd hl List.not_mem_nil⟩
      · rintro ⟨choice, hc, rfl, -⟩
        rw [product, List.mem_singleton] at hc
        rw [hc]
        rfl
  | @cons c v cs vs hv _ ih =>
      rw [all, List.map_cons, mapM_id_cons_eq_some]
      constructor
      · rintro ⟨a, t', ha, ht', rfl⟩
        obtain ⟨l, hl, hlα⟩ := (hv.eq_some_iff hα).mp ha
        obtain ⟨choice, hc, rfl, hholds⟩ := ih.mp ht'
        refine ⟨(a, l) :: choice, mem_product_cons.mpr ⟨_, hl, _, hc, rfl⟩, rfl, ?_⟩
        exact List.forall_mem_cons.mpr ⟨hlα, hholds⟩
      · rintro ⟨choice, hc, rfl, hholds⟩
        obtain ⟨⟨a, l⟩, hal, rest, hrest, rfl⟩ := mem_product_cons.mp hc
        obtain ⟨hlα, hholds⟩ := List.forall_mem_cons.mp hholds
        exact ⟨a, rest.map Prod.fst, (hv.eq_some_iff hα).mpr ⟨l, hal, hlα⟩,
          ih.mpr ⟨rest, hrest, rfl, hholds⟩, rfl⟩

theorem gives_argumentCases {cases : List Cases} {vs : List (World → Option Element)} (h : Sound e)
    (hcases : List.Forall₂ (Denotes e) cases vs) :
    Gives (argumentCases cases) e fun e' choices => Denotes e' choices (all vs) := by
  have hmap : Gives (argumentCases cases) e fun e' => List.Forall₂ (fun choice c =>
      c.1 = choice.map Prod.fst ∧ Says e' c.2 fun α => ∀ l ∈ choice.map Prod.snd, l.Holds α)
      (product cases) := by
    refine gives_mapM (fun hg hr => ⟨hr.1, hr.2.mono hg⟩) h fun choice hc e' hg h' => ?_
    have hlt : ∀ l ∈ choice.map Prod.snd, l.var < e'.solver.numVars := fun l hl =>
      Nat.lt_of_lt_of_le (var_lt_of_mem_product hcases hc l hl) hg.numVars
    exact .bind h' (gives_and h' hlt) fun l e'' _ h'' hl => .pure h'' ⟨rfl, hl⟩
  refine hmap.weaken fun choices e' hg hchoices => ⟨fun c hc => ?_, fun {α} hα {t} => ?_⟩
  · obtain ⟨choice, -, -, hmeaning⟩ := exists_left_of_forall₂ hchoices hc
    exact hmeaning.var_lt
  · rw [hg.world, all_eq_some_iff hcases (hg.restrict hα).1]
    constructor
    · rintro ⟨choice, hc, rfl, hholds⟩
      obtain ⟨⟨t, l⟩, hl, rfl, hmeaning⟩ := exists_right_of_forall₂ hchoices hc
      exact ⟨l, hl, (hmeaning.holds_iff hα).mpr hholds⟩
    · rintro ⟨l, hl, hlα⟩
      obtain ⟨choice, hc, ht, hmeaning⟩ := exists_left_of_forall₂ hchoices hl
      exact ⟨choice, hc, ht.symm, (hmeaning.holds_iff hα).mp hlα⟩

/-! ## Values -/

/-- Some of the values of a list, each with a literal that says that one of its literals is true.
The values that are left out have none. -/
structure Collects {κ : Type} (e : Encoder) (collected : List (κ × List Lit))
    (cases : List (κ × Lit)) :
    Prop where
  var_lt : ∀ c ∈ cases, c.2.var < e.solver.numVars
  keys : (cases.map Prod.fst).Sublist (collected.map Prod.fst)
  holds_iff : ∀ {α}, e.solver.Admits α → ∀ {k}, (∃ l, (k, l) ∈ cases ∧ l.Holds α) ↔
    ∃ lits, (k, lits) ∈ collected ∧ ∃ l ∈ lits, l.Holds α

theorem Collects.cons {κ : Type} {collected : List (κ × List Lit)} {cases : List (κ × Lit)}
    (h : Collects e collected cases) {k : κ} {lits : List Lit} {l : Lit}
    (hl : Says e l fun α => ∃ x ∈ lits, x.Holds α) :
    Collects e ((k, lits) :: collected) ((k, l) :: cases) where
  var_lt := List.forall_mem_cons.mpr ⟨hl.var_lt, h.var_lt⟩
  keys := h.keys.cons_cons k
  holds_iff := by
    intro α hα x
    have hrest := h.holds_iff hα (k := x)
    simp only [List.mem_cons, Prod.mk.injEq, or_and_right, exists_or, hrest]
    refine or_congr_left ?_
    constructor
    · rintro ⟨y, ⟨rfl, rfl⟩, hy⟩
      exact ⟨lits, ⟨rfl, rfl⟩, (hl.holds_iff hα).mp hy⟩
    · rintro ⟨ys, ⟨rfl, rfl⟩, hy⟩
      exact ⟨l, ⟨rfl, rfl⟩, (hl.holds_iff hα).mpr hy⟩

theorem Collects.skip {κ : Type} {collected : List (κ × List Lit)} {cases : List (κ × Lit)}
    (h : Collects e collected cases) {k : κ} {lits : List Lit}
    (hl : ∀ {α}, e.solver.Admits α → ¬ ∃ x ∈ lits, x.Holds α) :
    Collects e ((k, lits) :: collected) cases where
  var_lt := h.var_lt
  keys := h.keys.cons k
  holds_iff := by
    intro α hα x
    rw [h.holds_iff hα]
    constructor
    · rintro ⟨ys, hys, hy⟩
      exact ⟨ys, List.mem_cons_of_mem _ hys, hy⟩
    · rintro ⟨ys, hys, hy⟩
      rcases List.mem_cons.mp hys with hys | hys
      · cases hys
        exact absurd hy (hl hα)
      · exact ⟨ys, hys, hy⟩

theorem gives_valueCases {κ : Type} {collected : List (κ × List Lit)} (h : Sound e)
    (hlt : ∀ c ∈ collected, ∀ l ∈ c.2, l.var < e.solver.numVars) :
    Gives (valueCases collected) e fun e' => Collects e' collected := by
  induction collected generalizing e with
  | nil =>
      refine .pure h ⟨fun c hc => absurd hc List.not_mem_nil, .slnil, fun {α} _ {k} => ?_⟩
      simp
  | cons c collected ih =>
      obtain ⟨k, lits⟩ := c
      obtain ⟨hlits, hrest⟩ := List.forall_mem_cons.mp hlt
      rw [valueCases]
      refine .bind h (gives_or h hlits) fun l e₁ hg₁ h₁ hl => ?_
      refine .bind h₁ (.read (Q := fun e' falsity => falsity = e'.falsity) h₁ rfl)
        fun falsity e₂ hg₂ h₂ hfalsity => ?_
      subst hfalsity
      have hlt₂ : ∀ c ∈ collected, ∀ l ∈ c.2, l.var < e₂.solver.numVars := fun c hc x hx =>
        Nat.lt_of_lt_of_le (hrest c hc x hx) (hg₁.numVars.trans hg₂.numVars)
      refine .bind h₂ (ih h₂ hlt₂) fun others e₃ hg₃ h₃ hothers => ?_
      have hl₃ := (hl.mono hg₂).mono hg₃
      refine .pure h₃ ?_
      split
      · rename_i heq
        refine hothers.skip fun hα hex => ?_
        have hholds := (hl₃.holds_iff hα).mpr hex
        rw [heq, ← hg₃.falsity] at hholds
        exact not_holds_falsity h₃ hα hholds
      · exact hothers.cons hl₃

/-! ## Alternatives -/

/-- Literals of which one is true exactly if something holds of an assignment. -/
structure Offers (e : Encoder) (lits : List Lit) (P : (Nat → Bool) → Prop) : Prop where
  var_lt : ∀ l ∈ lits, l.var < e.solver.numVars
  exists_iff : ∀ {α}, e.solver.Admits α → ((∃ l ∈ lits, l.Holds α) ↔ P α)

namespace Offers

variable {lits lits' : List Lit} {P Q : (Nat → Bool) → Prop}

theorem congr (h : Offers e lits P) (hPQ : ∀ {α}, e.solver.Admits α → (P α ↔ Q α)) :
    Offers e lits Q :=
  ⟨h.var_lt, fun hα => (h.exists_iff hα).trans (hPQ hα)⟩

theorem mono (h : Offers e lits P) (hg : Grown e e') : Offers e' lits P :=
  ⟨fun l hl => Nat.lt_of_lt_of_le (h.var_lt l hl) hg.numVars,
    fun hα => h.exists_iff (hg.restrict hα).1⟩

theorem nil (hP : ∀ {α}, e.solver.Admits α → ¬ P α) : Offers e [] P where
  var_lt l hl := absurd hl List.not_mem_nil
  exists_iff hα := by simp [hP hα]

theorem singleton {l : Lit} (h : Says e l P) : Offers e [l] P where
  var_lt := List.forall_mem_singleton.mpr h.var_lt
  exists_iff hα := by simp [h.holds_iff hα]

theorem append (h : Offers e lits P) (h' : Offers e lits' Q) :
    Offers e (lits ++ lits') fun α => P α ∨ Q α where
  var_lt := List.forall_mem_append.mpr ⟨h.var_lt, h'.var_lt⟩
  exists_iff := by
    intro α hα
    rw [← h.exists_iff hα, ← h'.exists_iff hα]
    simp only [List.mem_append, or_and_right, exists_or]

theorem of_forall₂ {β : Type} {xs : List β} {R : β → (Nat → Bool) → Prop}
    (h : List.Forall₂ (fun x l => Says e l (R x)) xs lits) :
    Offers e lits fun α => ∃ x ∈ xs, R x α := by
  induction h with
  | nil => exact .nil fun _ => by simp
  | cons hl _ ih => exact ((Offers.singleton hl).append ih).congr fun _ => by simp

end Offers

/-! ## Atoms -/

theorem means_atomLit {p : SymbolId} {t : Tuple} {l : Lit} (h : Sound e)
    (hl : e.atomLit? p t = some l) :
    Means e l fun W => W.atom p t := by
  obtain ⟨v, hv, rfl⟩ := Option.map_eq_some_iff.mp hl
  refine ⟨?_, fun {α} _ => ?_⟩
  · rw [Lit.pos, Lit.var_signed]
    exact h.index_lt hv
  · change (Lit.signed v true).Holds α ↔ e.interpretation α ⟨p, t⟩ = true
    rw [Lit.Holds, Lit.var_signed, Lit.positive_signed, interpretation, hv]

theorem atom_eq_false {p : SymbolId} {t : Tuple} (hl : e.atomLit? p t = none) (α : Nat → Bool) :
    (e.world α).atom p t = false := by
  change e.interpretation α ⟨p, t⟩ = false
  rw [interpretation, Option.map_eq_none_iff.mp hl]

theorem gives_guarded {p : SymbolId} {t : Tuple} {guard atom : Lit} (h : Sound e)
    (hguard : guard.var < e.solver.numVars) (hatom : e.atomLit? p t = some atom) :
    Gives (Encoding.and [guard, atom]) e fun e' l =>
      Says e' l fun α => guard.Holds α ∧ (e.world α).atom p t = true := by
  have hmeans := means_atomLit h hatom
  have hboth : ∀ l ∈ [guard, atom], l.var < e.solver.numVars :=
    List.forall_mem_cons.mpr ⟨hguard, List.forall_mem_singleton.mpr hmeans.var_lt⟩
  refine (gives_and h hboth).weaken fun l e' hg hl => hl.congr fun hα => ?_
  rw [List.forall_mem_cons, List.forall_mem_singleton, hmeans.holds_iff (hg.restrict hα).1]

theorem gives_atomAlternatives {p : SymbolId} {choices : List (Tuple × Lit)} (h : Sound e)
    (hlt : ∀ c ∈ choices, c.2.var < e.solver.numVars) :
    Gives (atomAlternatives p choices) e fun e' lits =>
      Offers e' lits fun α => ∃ c ∈ choices, c.2.Holds α ∧ (e.world α).atom p c.1 = true := by
  induction choices generalizing e with
  | nil => exact .pure h (.nil fun _ => by simp)
  | cons c choices ih =>
      obtain ⟨t, guard⟩ := c
      obtain ⟨hguard, hrest⟩ := List.forall_mem_cons.mp hlt
      rw [atomAlternatives]
      refine .bind h
        (.read (Q := fun e' atom => e'.world = e.world ∧ atom = e'.atomLit? p t) h ⟨rfl, rfl⟩)
        fun atom e₁ hg₁ h₁ hatom => ?_
      obtain ⟨hworld, hatom⟩ := hatom
      have hguard₁ := Nat.lt_of_lt_of_le hguard hg₁.numVars
      have hrest₁ : ∀ c ∈ choices, c.2.var < e₁.solver.numVars := fun c hc =>
        Nat.lt_of_lt_of_le (hrest c hc) hg₁.numVars
      rw [← hworld]
      cases atom with
      | none =>
          refine (ih h₁ hrest₁).weaken fun lits e' _ hlits => hlits.congr fun {α} _ => ?_
          simp only [List.mem_cons, exists_eq_or_imp, atom_eq_false hatom.symm α,
            Bool.false_eq_true, and_false, false_or]
      | some atom =>
          refine .bind h₁ (gives_guarded h₁ hguard₁ hatom.symm) fun l e₂ hg₂ h₂ hl => ?_
          have hrest₂ : ∀ c ∈ choices, c.2.var < e₂.solver.numVars := fun c hc =>
            Nat.lt_of_lt_of_le (hrest₁ c hc) hg₂.numVars
          refine .bind h₂ (ih h₂ hrest₂) fun lits e₃ hg₃ h₃ hlits => .pure h₃ ?_
          refine ((Offers.singleton (hl.mono hg₃)).append hlits).congr fun {α} _ => ?_
          simp only [List.mem_cons, exists_eq_or_imp, hg₂.world]

/-! ## Function applications -/

theorem image_eq_some_iff {W : World} (h : W.SingleValued) {f : SymbolId} {t : Tuple}
    {v : Element} :
    W.image f t = some v ↔ v ∈ W.results f ∧ W.atom f (t ++ [v]) = true := by
  rw [World.image]
  constructor
  · intro hv
    exact ⟨List.mem_of_find?_eq_some hv, by simpa using List.find?_some hv⟩
  · rintro ⟨hv, hatom⟩
    cases hfind : (W.results f).find? fun v => W.atom f (t ++ [v]) with
    | none => exact absurd hatom (List.find?_eq_none.mp hfind v hv)
    | some v' =>
        have hatom' : W.atom f (t ++ [v']) = true := by simpa using List.find?_some hfind
        exact congrArg some (h f t v' v (List.mem_of_find?_eq_some hfind) hv hatom' hatom)

def RowOffers (e : Encoder) (f : SymbolId) (a : Tuple × Lit) (v : Element)
    (o : Option Lit) : Prop :=
  Offers e o.toList fun α => a.2.Holds α ∧ (e.world α).atom f (a.1 ++ [v]) = true

theorem RowOffers.mono {f : SymbolId} {a : Tuple × Lit} {v : Element} {o : Option Lit}
    (h : RowOffers e f a v o) (hg : Grown e e') : RowOffers e' f a v o := by
  have hmono := Offers.mono h hg
  rwa [RowOffers, show e'.world = e.world from funext hg.world]

theorem gives_graphRow {f : SymbolId} {values : List Element} {a : Tuple × Lit} (h : Sound e)
    (hlt : a.2.var < e.solver.numVars) :
    Gives (graphRow f values a.1 a.2) e fun e' => List.Forall₂ (RowOffers e' f a) values := by
  refine gives_mapM (fun hg hr => hr.mono hg) h fun v _ e₁ hg₁ h₁ => ?_
  refine .bind h₁
    (.read (Q := fun e' atom => e'.world = e₁.world ∧ atom = e'.atomLit? f (a.1 ++ [v])) h₁
    ⟨rfl, rfl⟩) fun atom e₂ hg₂ h₂ hatom => ?_
  obtain ⟨-, hatom⟩ := hatom
  cases atom with
  | none =>
      refine .pure h₂ (.nil fun {α} _ hholds => ?_)
      rw [atom_eq_false hatom.symm α] at hholds
      cases hholds.2
  | some atom =>
      have hguard := Nat.lt_of_lt_of_le hlt (hg₁.numVars.trans hg₂.numVars)
      refine .bind h₂ (gives_guarded h₂ hguard hatom.symm) fun l e₃ hg₃ h₃ hl => .pure h₃ ?_
      exact (Offers.singleton hl).congr fun _ => by simp only [hg₃.world]

theorem offers_columns {f : SymbolId} {values : List Element} {args : List (Tuple × Lit)}
    {rows : List (List (Option Lit))}
    (hrows : List.Forall₂ (fun a => List.Forall₂ (RowOffers e f a) values) args rows) :
    List.Forall₂ (fun v lits => Offers e lits fun α =>
        ∃ a ∈ args, a.2.Holds α ∧ (e.world α).atom f (a.1 ++ [v]) = true) values
      (rows.foldr (fun row acc => List.zipWith (fun o lits => o.toList ++ lits) row acc)
        (values.map fun _ => [])) := by
  induction hrows with
  | nil =>
      rw [List.foldr_nil, List.forall₂_map_right_iff, List.forall₂_same]
      exact fun v _ => .nil fun _ => by simp
  | cons hrow _ ih =>
      rw [List.foldr_cons]
      refine forall₂_zipWith hrow ih fun v o lits ho hlits => (ho.append hlits).congr fun _ => ?_
      simp only [List.mem_cons, exists_eq_or_imp]

theorem gives_graphRows {f : SymbolId} {values : List Element} {args : List (Tuple × Lit)}
    (h : Sound e) (hlt : ∀ a ∈ args, a.2.var < e.solver.numVars) :
    Gives (args.mapM fun a => graphRow f values a.1 a.2) e fun e' =>
      List.Forall₂ (fun a => List.Forall₂ (RowOffers e' f a) values) args := by
  refine gives_mapM (fun hg hr => hr.imp fun _ _ ho => ho.mono hg) h fun a ha e' hg h' => ?_
  exact gives_graphRow h' (Nat.lt_of_lt_of_le (hlt a ha) hg.numVars)

theorem gives_applicationCases {f : SymbolId} {values : List Element} {args : List (Tuple × Lit)}
    {tuple : World → Option Tuple} (h : Sound e) (hvalues : e.base.resultDomain f = .ok values)
    (hargs : Denotes e args tuple) :
    Gives (applicationCases f values args) e fun e' cases =>
      Denotes e' cases fun W => (tuple W).bind (W.image f) := by
  refine .bind h (gives_graphRows h hargs.var_lt) fun rows e₁ hg₁ h₁ hrows => ?_
  have hcolumns := offers_columns hrows
  refine (gives_valueCases h₁ fun c hc => ?_).weaken fun cases e₂ hg₂ hcases => ⟨hcases.var_lt, ?_⟩
  · exact (List.forall₂_zip hcolumns hc).var_lt
  · intro α hα k
    have hα₁ := (hg₂.restrict hα).1
    have hresults : (e₂.world α).results f = values := by
      rw [hg₂.world, hg₁.world]
      change (e.base.resultDomain f).toOption.getD [] = values
      rw [hvalues]
      rfl
    rw [hcases.holds_iff hα, Option.bind_eq_some_iff]
    simp only [image_eq_some_iff (hg₂.sound.single hα), hresults]
    constructor
    · rintro ⟨t, ht, hk, hatom⟩
      obtain ⟨lits, hlits, hoffers⟩ := exists_mem_zip hcolumns hk
      obtain ⟨l, hl, hholds⟩ := ((hargs.mono hg₁).mono hg₂).eq_some_iff hα |>.mp ht
      rw [hg₂.world] at hatom
      exact ⟨lits, hlits, (hoffers.exists_iff hα₁).mpr ⟨(t, l), hl, hholds, hatom⟩⟩
    · rintro ⟨lits, hlits, hholds⟩
      obtain ⟨⟨t, l⟩, hl, hlα, hatom⟩ :=
        ((List.forall₂_zip hcolumns hlits).exists_iff hα₁).mp hholds
      rw [← hg₂.world] at hatom
      exact ⟨t, ((hargs.mono hg₁).mono hg₂).eq_some_iff hα |>.mpr ⟨l, hl, hlα⟩,
        (List.of_mem_zip hlits).1, hatom⟩

/-! ## Comparisons -/

theorem link_eq_true_iff {c : Comparator} {u v : Option Element} :
    World.link c u v = true ↔ ∃ x y, u = some x ∧ v = some y ∧ c.holds x y = true := by
  cases u with
  | none => simp [World.link]
  | some x =>
      cases v with
      | none => simp [World.link]
      | some y => simp [World.link]

theorem var_lt_linkChoices {c : Comparator} {left right : Cases} {u v : World → Option Element}
    (hleft : Denotes e left u) (hright : Denotes e right v) {ab : Lit × Lit}
    (hab : ab ∈ linkChoices c left right) :
    ∀ l ∈ [ab.1, ab.2], l.var < e.solver.numVars := by
  simp only [linkChoices, List.mem_flatMap, List.mem_map, List.mem_filter] at hab
  obtain ⟨a, ha, b, ⟨hb, -⟩, rfl⟩ := hab
  rw [List.forall_mem_cons, List.forall_mem_singleton]
  exact ⟨hleft.var_lt a ha, hright.var_lt b hb⟩

theorem gives_linkChoices {choices : List (Lit × Lit)} (h : Sound e)
    (hlt : ∀ ab ∈ choices, ∀ l ∈ [ab.1, ab.2], l.var < e.solver.numVars) :
    Gives (choices.mapM fun ab => Encoding.and [ab.1, ab.2]) e fun e' =>
      List.Forall₂ (fun ab l => Says e' l fun α => ab.1.Holds α ∧ ab.2.Holds α) choices := by
  refine gives_mapM (fun hg hl => hl.mono hg) h fun ab hab e' hg h' => ?_
  have hpair : ∀ l ∈ [ab.1, ab.2], l.var < e'.solver.numVars := fun l hl =>
    Nat.lt_of_lt_of_le (hlt ab hab l hl) hg.numVars
  refine (gives_and h' hpair).weaken fun l _ _ hl => hl.congr fun _ => ?_
  rw [List.forall_mem_cons, List.forall_mem_singleton]

theorem gives_link {c : Comparator} {left right : Cases} {u v : World → Option Element}
    (h : Sound e) (hleft : Denotes e left u) (hright : Denotes e right v) :
    Gives (link c left right) e fun e' l => Means e' l fun W => World.link c (u W) (v W) := by
  refine .bind h (gives_linkChoices h fun ab => var_lt_linkChoices hleft hright)
    fun lits e₁ hg₁ h₁ hlits => ?_
  have hoffers := Offers.of_forall₂ hlits
  refine (gives_or h₁ hoffers.var_lt).weaken fun l e₂ hg₂ hl => hl.congr fun {α} hα => ?_
  have hα₁ := (hg₂.restrict hα).1
  have hu := fun {k} => ((hleft.mono hg₁).mono hg₂).eq_some_iff hα (k := k)
  have hv := fun {k} => ((hright.mono hg₁).mono hg₂).eq_some_iff hα (k := k)
  rw [hoffers.exists_iff hα₁, link_eq_true_iff]
  simp only [linkChoices, List.mem_flatMap, List.mem_map, List.mem_filter]
  constructor
  · rintro ⟨_, ⟨⟨x, a⟩, ha, ⟨y, b⟩, ⟨hb, hc⟩, rfl⟩, hax, hby⟩
    exact ⟨x, y, hu.mpr ⟨a, ha, hax⟩, hv.mpr ⟨b, hb, hby⟩, hc⟩
  · rintro ⟨x, y, hx, hy, hc⟩
    obtain ⟨a, ha, hax⟩ := hu.mp hx
    obtain ⟨b, hb, hby⟩ := hv.mp hy
    exact ⟨(a, b), ⟨(x, a), ha, (y, b), ⟨hb, hc⟩, rfl⟩, hax, hby⟩

theorem gives_links {cases : List Cases} {vs : List (World → Option Element)} {cs : List Comparator}
    (h : Sound e) (hcases : List.Forall₂ (Denotes e) cases vs) :
    Gives (links cases cs) e fun e' lits => (∀ l ∈ lits, l.var < e'.solver.numVars) ∧
      ∀ {α}, e'.solver.Admits α →
        ((∀ l ∈ lits, l.Holds α) ↔ World.links (vs.map fun v => v (e'.world α)) cs = true) := by
  induction cases generalizing e vs cs with
  | nil =>
      cases hcases
      refine .pure h ⟨fun l hl => absurd hl List.not_mem_nil, fun _ => ?_⟩
      simp [World.links]
  | cons left cases ih =>
      cases hcases with
      | cons hu hrest =>
          cases hrest with
          | nil =>
              refine .pure h ⟨fun l hl => absurd hl List.not_mem_nil, fun _ => ?_⟩
              simp [World.links]
          | cons hv hrest =>
              cases cs with
              | nil =>
                  refine .pure h ⟨fun l hl => absurd hl List.not_mem_nil, fun _ => ?_⟩
                  simp [World.links]
              | cons c cs =>
                  rw [links]
                  refine .bind h (gives_link h hu hv) fun l e₁ hg₁ h₁ hl => ?_
                  have hrest₁ := (List.Forall₂.cons hv hrest).imp fun _ _ hd => hd.mono hg₁
                  refine .bind h₁ (ih h₁ hrest₁) fun lits e₂ hg₂ h₂ hlits =>
                    .pure h₂ ⟨?_, fun hα => ?_⟩
                  · exact List.forall_mem_cons.mpr ⟨(hl.mono hg₂).var_lt, hlits.1⟩
                  · rw [List.forall_mem_cons, (hl.mono hg₂).holds_iff hα, hlits.2 hα]
                    simp [World.links]

end Encoding

end ModelExpansion
