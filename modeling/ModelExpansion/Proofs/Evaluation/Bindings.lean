import ModelExpansion.Grounding
import ModelExpansion.Proofs.Tables

/-! # Grounding over one table of bindings
Instead of a binding for each scope there may be one table that all scopes write to. A quantifier
saves what its variables were bound to, overwrites it for each tuple and puts it back. So every
part of a formula is grounded over the bindings of its own scope, and none is left behind. -/

namespace ModelExpansion

/-- The elements that variables are bound to, by the numbers of the variables. -/
abbrev Bindings := Std.ExtTreeMap Nat Element

namespace Bindings

/-- Binds variables to the elements of a tuple, one after the other. -/
def assign (m : Bindings) (vars : List Var) (t : Tuple) : Bindings :=
  (vars.zip t).foldl (fun m xe => m.insert xe.1.id xe.2) m

def save (m : Bindings) (vars : List Var) : List (Option Element) := vars.map fun x => m[x.id]?

/-- Binds a variable to what was saved for it, or to nothing. -/
def put (m : Bindings) (n : Nat) : Option Element → Bindings
  | some e => m.insert n e
  | none => m.erase n

def restore (m : Bindings) (vars : List Var) (saved : List (Option Element)) : Bindings :=
  (vars.zip saved).foldl (fun m xo => m.put xo.1.id xo.2) m

/-- Whether two tables differ at most at some variables. -/
def AgreeOff (vars : List Var) (m m' : Bindings) : Prop :=
  ∀ n, n ∉ vars.map Var.id → m[n]? = m'[n]?

variable {m m' : Bindings} {x : Var} {vars : List Var} {t : Tuple}

theorem AgreeOff.eq (h : AgreeOff [] m m') : m = m' :=
  Std.ExtTreeMap.ext_getElem? fun n => h n List.not_mem_nil

theorem getElem?_put (m : Bindings) (k n : Nat) (o : Option Element) :
    (m.put k o)[n]? = if k = n then o else m[n]? := by
  cases o with
  | some e => simp [put, Std.ExtTreeMap.getElem?_insert]
  | none => simp [put, Std.ExtTreeMap.getElem?_erase]

theorem AgreeOff.put (h : AgreeOff (x :: vars) m m') (o : Option Element) :
    AgreeOff vars (m.put x.id o) (m'.put x.id o) := by
  intro n hn
  rw [getElem?_put, getElem?_put]
  split
  · rfl
  · next hne => exact h n fun hmem => (List.mem_cons.mp hmem).elim (fun heq => hne heq.symm) hn

/-- What variables were bound to does not matter once they are all bound anew. -/
theorem AgreeOff.assign_eq (h : AgreeOff vars m m') (ht : t.length = vars.length) :
    m'.assign vars t = m.assign vars t := by
  induction vars generalizing m m' t with
  | nil => exact h.eq.symm
  | cons x vars ih =>
      cases t with
      | nil => cases ht
      | cons e t => exact ih (h.put (some e)) (Nat.succ.inj ht)

theorem put_self (m : Bindings) (n : Nat) : m.put n m[n]? = m := by
  refine Std.ExtTreeMap.ext_getElem? fun k => ?_
  rw [getElem?_put]
  split
  · next heq => rw [heq]
  · rfl

/-- Saved bindings are put back whatever has become of them. -/
theorem AgreeOff.restore_eq (h : AgreeOff vars m m') : m'.restore vars (m.save vars) = m := by
  induction vars generalizing m' with
  | nil => exact h.eq.symm
  | cons x vars ih =>
      have hput := h.put m[x.id]?
      rw [put_self] at hput
      exact ih hput

theorem agreeOff_assign (m : Bindings) (vars : List Var) (t : Tuple) :
    AgreeOff vars m (m.assign vars t) := by
  induction vars generalizing m t with
  | nil => exact fun _ _ => rfl
  | cons x vars ih =>
      cases t with
      | nil => exact fun _ _ => rfl
      | cons e t =>
          intro n hn
          rw [List.map_cons, List.mem_cons, not_or] at hn
          have hput := getElem?_put m x.id n (some e)
          rw [if_neg (Ne.symm hn.1)] at hput
          exact hput.symm.trans (ih (m.put x.id (some e)) t n hn.2)

/-- Whether a table binds the variables as a scope does. -/
def Reads (m : Bindings) (b : Binding) : Prop := ∀ n, m[n]? = b.lookup n

theorem reads_empty : Reads ∅ [] := fun _ => Std.ExtTreeMap.getElem?_empty

theorem Reads.assign {b : Binding} (h : m.Reads b) (vars : List Var) (t : Tuple) :
    (m.assign vars t).Reads (b.extend vars t) := by
  rw [Bindings.assign, Binding.extend]
  generalize vars.zip t = pairs
  induction pairs generalizing m b with
  | nil => exact h
  | cons xe pairs ih =>
      refine ih fun n => (getElem?_put m xe.1.id n (some xe.2)).trans ?_
      rw [List.lookup_cons, h n]
      by_cases hn : xe.1.id = n
      · rw [if_pos hn, hn, beq_self_eq_true]
      · rw [if_neg hn, beq_eq_false_iff_ne.mpr (Ne.symm hn)]

end Bindings

/-- A computation that may fail over one table of bindings. What it has written stays. -/
abbrev Grounder := ExceptT Failure (StateM Bindings)

namespace Grounder

variable {α β : Type} {m m' : Bindings} {S : Structure}

theorem bind_apply (x : Grounder α) (f : α → Grounder β) (m : Bindings) :
    (x >>= f) m = match x m with
      | (.ok a, m') => f a m'
      | (.error e, m') => (.error e, m') := by
  change (match x m with | (r, m') => ExceptT.bindCont f r m') = _
  rcases x m with ⟨e | a, m'⟩ <;> rfl

/-- Whether a computation has an outcome over some bindings and leaves them as they are. -/
def Returns (m : Bindings) (x : Grounder α) (r : Except Failure α) : Prop := x m = (r, m)

theorem Returns.pure (m : Bindings) (a : α) : Returns m (pure a) (pure a) := rfl

theorem Returns.bind {x : Grounder α} {r : Except Failure α} {f : α → Grounder β}
    {g : α → Except Failure β} (hx : Returns m x r) (hf : ∀ a, Returns m (f a) (g a)) :
    Returns m (x >>= f) (r >>= g) := by
  rw [Returns, bind_apply, hx]
  cases r with
  | error e => rfl
  | ok a => exact hf a

/-! ## Quantifiers -/

def visitBound (vars : List Var) (visit : Tuple → Grounder α) (t : Tuple) : Grounder α := do
  modify fun m => m.assign vars t
  visit t

/-- Visits the tuples of some variables' domains, with the variables bound, up to the first failure.
What the variables were bound to is restored afterwards, also after a failure. -/
def forEachTuple (S : Structure) (vars : List Var) (visit : Tuple → Grounder α) :
    Grounder (List α) := fun m =>
  match S.domains (vars.map Var.sort) with
  | .error e => (.error e, m)
  | .ok domains =>
    match mapTuplesM (visitBound vars visit) domains m with
    | (result, m') => (result, m'.restore vars (m.save vars))

theorem mapM_visits {vars : List Var} {visit : Tuple → Grounder α} {f : Tuple → Except Failure α}
    {ts : List Tuple} (hlength : ∀ t ∈ ts, t.length = vars.length)
    (hvisit : ∀ t, Returns (m.assign vars t) (visit t) (f t)) (h : m.AgreeOff vars m') :
    ∃ m'', (ts.mapM (visitBound vars visit) : Grounder (List α)) m' = (ts.mapM f, m'') ∧
      m.AgreeOff vars m'' := by
  induction ts generalizing m' with
  | nil => exact ⟨m', rfl, h⟩
  | cons t ts ih =>
      obtain ⟨ht, hts⟩ := List.forall_mem_cons.mp hlength
      have hfirst : visitBound vars visit t m' = (f t, m.assign vars t) := by
        rw [← hvisit t, ← h.assign_eq ht]
        rfl
      rw [List.mapM_cons, List.mapM_cons, bind_apply, hfirst]
      cases f t with
      | error e => exact ⟨_, rfl, m.agreeOff_assign vars t⟩
      | ok a =>
          obtain ⟨m'', hrest, hagree⟩ := ih hts (m.agreeOff_assign vars t)
          refine ⟨m'', ?_, hagree⟩
          dsimp only
          rw [bind_apply, hrest]
          cases ts.mapM f <;> rfl

theorem Returns.forEachTuple {vars : List Var} {visit : Tuple → Grounder α}
    {f : Tuple → Except Failure α} (hvisit : ∀ t, Returns (m.assign vars t) (visit t) (f t)) :
    Returns m (forEachTuple S vars visit) (S.instances vars f) := by
  rw [Returns, Grounder.forEachTuple, Structure.instances]
  cases hdomains : S.domains (vars.map Var.sort) with
  | error e => rfl
  | ok domains =>
      have hlength : ∀ t ∈ product domains, t.length = vars.length := by
        intro t ht
        have hdomain := (forall₂_of_mapM_eq_ok hdomains).length_eq
        rw [List.length_map] at hdomain
        exact (mem_product.mp ht).length_eq.symm.trans hdomain.symm
      obtain ⟨m', hvisits, hagree⟩ := mapM_visits hlength hvisit fun _ _ => rfl
      rw [Except.ok_bind, mapTuplesM_eq]
      dsimp only
      rw [mapTuplesM_eq, hvisits]
      exact congrArg (Prod.mk _) hagree.restore_eq

/-! ## The grounder -/

mutual

def term (S : Structure) : Term → Grounder Term
  | .var x => do
    match (← get)[x.id]? with
    | some e => return .element e
    | none => return .var x
  | .element e => return .element e
  | .apply f args => return .apply f (← terms S args)
  | .aggregate kind members => return .aggregate kind (← set S members)

def terms (S : Structure) : List Term → Grounder (List Term)
  | [] => return []
  | t :: ts => return (← term S t) :: (← terms S ts)

def set (S : Structure) : SetExpr → Grounder SetExpr
  | .enumerated ms => return .enumerated (← members S ms)
  | .comprehension vars condition weight => do
    let members ← forEachTuple S vars fun t => do
      let condition ← formula S condition
      match t with
      | e :: _ => return (condition, Term.element e)
      | [] => return (condition, ← term S weight)
    return .enumerated members

def members (S : Structure) : List Member → Grounder (List Member)
  | [] => return []
  | (condition, weight) :: ms =>
    return (← formula S condition, ← term S weight) :: (← members S ms)

def formula (S : Structure) : Formula → Grounder Formula
  | .atom sign p args => return .atom sign p (← terms S args)
  | .junction sign conjunctive children => return .junction sign conjunctive (← formulas S children)
  | .quantified sign universal vars body =>
    return .junction sign universal (← forEachTuple S vars fun _ => formula S body)
  | .equivalence sign left right => return .equivalence sign (← formula S left) (← formula S right)
  | .comparison sign ts comparators => return .comparison sign (← terms S ts) comparators

def formulas (S : Structure) : List Formula → Grounder (List Formula)
  | [] => return []
  | f :: fs => return (← formula S f) :: (← formulas S fs)

end

def rule (S : Structure) (r : Rule) : Grounder (List Rule) :=
  forEachTuple S r.vars fun _ =>
    return ⟨[], r.head, ← terms S r.args, ← formula S r.body⟩

mutual

theorem returns_term : ∀ (t : Term) {m : Bindings} {b : Binding}, m.Reads b →
    Returns m (term S t) (groundTerm S b t)
  | .var x, m, b, h => by
      rw [term, groundTerm, ← h x.id, Returns, bind_apply]
      change (match m[x.id]? with
        | some e => return Term.element e
        | none => return Term.var x : Grounder Term) m = _
      cases m[x.id]? <;> rfl
  | .element e, m, b, h => by
      rw [term, groundTerm]
      exact .pure m _
  | .apply f args, m, b, h => by
      rw [term, groundTerm]
      exact (returns_terms args h).bind fun _ => .pure m _
  | .aggregate kind members, m, b, h => by
      rw [term, groundTerm]
      exact (returns_set members h).bind fun _ => .pure m _

theorem returns_terms : ∀ (ts : List Term) {m : Bindings} {b : Binding}, m.Reads b →
    Returns m (terms S ts) (groundTerms S b ts)
  | [], m, b, h => by
      rw [terms, groundTerms]
      exact .pure m _
  | t :: ts, m, b, h => by
      rw [terms, groundTerms]
      exact (returns_term t h).bind fun _ => (returns_terms ts h).bind fun _ => .pure m _

theorem returns_set : ∀ (s : SetExpr) {m : Bindings} {b : Binding}, m.Reads b →
    Returns m (set S s) (groundSet S b s)
  | .enumerated ms, m, b, h => by
      rw [set, groundSet]
      exact (returns_members ms h).bind fun _ => .pure m _
  | .comprehension vars condition weight, m, b, h => by
      rw [set, groundSet]
      refine (Returns.forEachTuple fun t => ?_).bind fun _ => .pure m _
      refine (returns_formula condition (h.assign vars t)).bind fun c => ?_
      cases t with
      | cons e t => exact .pure _ _
      | nil => exact (returns_term weight (h.assign vars [])).bind fun _ => .pure _ _

theorem returns_members : ∀ (ms : List Member) {m : Bindings} {b : Binding}, m.Reads b →
    Returns m (members S ms) (groundMembers S b ms)
  | [], m, b, h => by
      rw [members, groundMembers]
      exact .pure m _
  | (condition, weight) :: ms, m, b, h => by
      rw [members, groundMembers]
      exact (returns_formula condition h).bind fun _ => (returns_term weight h).bind fun _ =>
        (returns_members ms h).bind fun _ => .pure m _

theorem returns_formula : ∀ (f : Formula) {m : Bindings} {b : Binding}, m.Reads b →
    Returns m (formula S f) (groundFormula S b f)
  | .atom sign p args, m, b, h => by
      rw [formula, groundFormula]
      exact (returns_terms args h).bind fun _ => .pure m _
  | .junction sign conjunctive children, m, b, h => by
      rw [formula, groundFormula]
      exact (returns_formulas children h).bind fun _ => .pure m _
  | .quantified sign universal vars body, m, b, h => by
      rw [formula, groundFormula]
      refine (Returns.forEachTuple fun t => ?_).bind fun _ => .pure m _
      exact returns_formula body (h.assign vars t)
  | .equivalence sign left right, m, b, h => by
      rw [formula, groundFormula]
      exact (returns_formula left h).bind fun _ => (returns_formula right h).bind fun _ =>
        .pure m _
  | .comparison sign ts comparators, m, b, h => by
      rw [formula, groundFormula]
      exact (returns_terms ts h).bind fun _ => .pure m _

theorem returns_formulas : ∀ (fs : List Formula) {m : Bindings} {b : Binding}, m.Reads b →
    Returns m (formulas S fs) (groundFormulas S b fs)
  | [], m, b, h => by
      rw [formulas, groundFormulas]
      exact .pure m _
  | f :: fs, m, b, h => by
      rw [formulas, groundFormulas]
      exact (returns_formula f h).bind fun _ => (returns_formulas fs h).bind fun _ => .pure m _

end

/-- Over one table a formula and a rule ground to what they ground to with a binding for each scope.
Afterwards the table is as it was, also if a domain could not be enumerated on the way. -/
theorem ground_eq (S : Structure) :
    (∀ f (m : Bindings) b, m.Reads b → formula S f m = (groundFormula S b f, m)) ∧
    ∀ r, rule S r ∅ = (groundRule S r, ∅) := by
  refine ⟨fun f m b h => returns_formula f h, fun r => ?_⟩
  refine Returns.forEachTuple fun t => ?_
  have hreads := Bindings.reads_empty.assign r.vars t
  exact (returns_terms r.args hreads).bind fun _ =>
    (returns_formula r.body hreads).bind fun _ => .pure _ _

end Grounder

end ModelExpansion
