import Mathlib.Data.Finset.Card
import Mathlib.Order.Bounds.Basic
import ModelExpansion.Proofs.Evaluation.Polarity
import ModelExpansion.Proofs.Tables
import ModelExpansion.WellFounded

/-! # Least models
Deriving heads until none is new gives the least set closed under the rules. The more is fixed for
the negative occurrences, the less is derived. -/

namespace ModelExpansion

/-! ## Sets of atoms -/

namespace AtomSet

/-- Sets of atoms are ordered by inclusion. -/
instance : PartialOrder AtomSet where
  le X Y := ∀ a ∈ X, a ∈ Y
  le_refl _ _ ha := ha
  le_trans _ _ _ hXY hYZ a ha := hYZ a (hXY a ha)
  le_antisymm _ _ hXY hYX := Std.ExtTreeSet.ext_mem fun a => ⟨hXY a, hYX a⟩

theorem empty_le (X : AtomSet) : (∅ : AtomSet) ≤ X :=
  fun _ ha => absurd ha Std.ExtTreeSet.not_mem_empty

theorem mem_insertMany {X : AtomSet} {new : List Atom} {a : Atom} :
    a ∈ X.insertMany new ↔ a ∈ X ∨ a ∈ new := by
  rw [Std.ExtTreeSet.mem_insertMany_list, List.contains_iff_mem]

theorem truth_le {X Y : AtomSet} (h : X ≤ Y) (p : SymbolId) (t : Tuple) :
    X.truth p t ≤ Y.truth p t := by
  rw [truth, truth, Truth.ofBool_le_iff]
  exact h ⟨p, t⟩

end AtomSet

/-! ## Rules and closed sets -/

/-- Rules with literal heads whose bodies have a truth value however the defined symbols, which are
predicates and do not occur inside aggregates, are read. -/
structure Admissible (base : Structure) (defined : List SymbolId) (rules : List Rule) : Prop where
  head : ∀ r ∈ rules, ∃ t, r.headTuple? = some t
  predicate : ∀ p ∈ defined, base.isFunction p = false
  aggregate : ∀ r ∈ rules, ∀ p ∈ r.body.aggregateSymbols, p ∉ defined
  evaluates : ∀ r ∈ rules, ∀ X Y, ∃ x, evalFormula (stage base defined X Y) true r.body = .ok x

/-- Whether a rule gives an atom: it is its head and the body is true. -/
def Rule.Gives (r : Rule) (v : Valuation) (a : Atom) : Prop :=
  r.headAtom = .ok a ∧ evalFormula v true r.body = .ok .yes

/-- Whether a set has every atom that the rules give when positive occurrences are read from the set
and negative ones from a fixed set. -/
def ClosedUnder (base : Structure) (defined : List SymbolId) (rules : List Rule)
    (fixed atoms : AtomSet) : Prop :=
  ∀ r ∈ rules, ∀ a, r.Gives (stage base defined atoms fixed) a → a ∈ atoms

variable {base : Structure} {defined : List SymbolId} {rules : List Rule}

/-- A stage that reads more at positive occurrences and less at negative ones. -/
theorem stage_below (h : ∀ p ∈ defined, base.isFunction p = false) {X X' Y Y' : AtomSet}
    (hX : X ≤ X')
    (hY : Y' ≤ Y) : (stage base defined X Y).Below (stage base defined X' Y') defined where
  atomAt positive p t := by
    by_cases hp : p ∈ defined
    · cases positive
      · simpa [stage, hp, Truth.Grows] using AtomSet.truth_le hY p t
      · simpa [stage, hp, Truth.Grows] using AtomSet.truth_le hX p t
    · simpa [stage, hp] using Truth.Grows.refl positive (base.value p t)
  function f hf t e he := by
    simp only [stage, List.contains_iff_mem.mpr hf, if_true] at he
    rw [Valuation.fromGraph, Except.bind_eq_ok] at he
    obtain ⟨sort, hsort, -⟩ := he
    exact Bool.false_ne_true ((h f hf).symm.trans (Structure.isFunction_of_resultSort hsort))
  same p hp := by
    constructor
    · intro positive t
      simp [stage, hp]
    · intro t
      simp [stage, hp]

namespace Admissible

/-- What a rule gives it still gives when more is read at positive occurrences and less at negative
ones. -/
theorem gives_mono (h : Admissible base defined rules) {X X' Y Y' : AtomSet} (hX : X ≤ X')
    (hY : Y' ≤ Y)
    {r : Rule} (hr : r ∈ rules) {a : Atom} (hgives : r.Gives (stage base defined X Y) a) :
    r.Gives (stage base defined X' Y') a := by
  obtain ⟨x, hx⟩ := h.evaluates r hr X' Y'
  have hgrows :=
    evalFormula_grows (stage_below h.predicate hX hY) r.body (h.aggregate r hr) hgives.2 hx
  have hyes : x = .yes := Truth.eq_yes_of_yes_le hgrows
  exact ⟨hgives.1, hyes ▸ hx⟩

theorem headAtom (h : Admissible base defined rules) {r : Rule} (hr : r ∈ rules) :
    ∃ a, r.headAtom = .ok a := by
  obtain ⟨t, ht⟩ := h.head r hr
  exact ⟨⟨r.head, t⟩, by rw [Rule.headAtom, ht]⟩

end Admissible

/-! ## The heads -/

def heads (rules : List Rule) : List Atom := rules.filterMap fun r => r.headAtom.toOption

theorem mem_heads {a : Atom} : a ∈ heads rules ↔ ∃ r ∈ rules, r.headAtom = .ok a := by
  rw [heads, List.mem_filterMap]
  refine exists_congr fun r => and_congr_right fun _ => ?_
  cases r.headAtom <;> simp [Except.toOption]

theorem closedUnder_heads (fixed : AtomSet) :
    ClosedUnder base defined rules fixed (.ofList (heads rules)) := by
  intro r hr a hgives
  rw [Std.ExtTreeSet.mem_ofList, List.contains_iff_mem]
  exact mem_heads.mpr ⟨r, hr, hgives.1⟩

/-- Number of heads that are not in a set. -/
def missing (rules : List Rule) (atoms : AtomSet) : Nat :=
  ((heads rules).toFinset.filter (· ∉ atoms)).card

theorem missing_le (rules : List Rule) (atoms : AtomSet) : missing rules atoms ≤ rules.length :=
  calc missing rules atoms ≤ (heads rules).toFinset.card := Finset.card_filter_le _ _
    _ ≤ (heads rules).length := List.toFinset_card_le _
    _ ≤ rules.length := List.length_filterMap_le _ _

theorem missing_lt {X Y : AtomSet} (hle : X ≤ Y) {a : Atom} (hhead : a ∈ heads rules) (hX : a ∉ X)
    (hY : a ∈ Y) :
    missing rules Y < missing rules X := by
  apply Finset.card_lt_card
  rw [Finset.ssubset_iff_of_subset]
  · exact ⟨a, by simp [hhead, hX], by simp [hY]⟩
  · exact Finset.monotone_filter_right _ fun b _ hb hbX => hb (hle b hbX)

/-! ## Derivation -/

/-- A round of derivation that succeeds has found the given atoms that are new, and has evaluated
the bodies of all rules whose head is new. -/
structure Derived (v : Valuation) (current : AtomSet) (rules : List Rule)
    (new : List Atom) : Prop where
  mem_iff : ∀ a, a ∈ new ↔ a ∉ current ∧ ∃ r ∈ rules, r.Gives v a
  evaluated : ∀ r ∈ rules, ∃ a, r.headAtom = .ok a ∧
    (a ∈ current ∨ ∃ x, evalFormula v true r.body = .ok x)

theorem derived_of_derive {v : Valuation} {current : AtomSet} {new : List Atom}
    (h : derive v current rules = .ok new) : Derived v current rules new := by
  induction rules generalizing new with
  | nil =>
      cases h
      exact ⟨by simp, by simp⟩
  | cons r rs ih =>
      rw [derive, Except.bind_eq_ok] at h
      obtain ⟨head, hr, h⟩ := h
      by_cases hcurrent : head ∈ current
      · rw [if_pos (Std.ExtTreeSet.contains_iff_mem.mpr hcurrent)] at h
        obtain ⟨hmem, hevaluated⟩ := ih h
        refine ⟨fun a => ?_, List.forall_mem_cons.mpr ⟨⟨head, hr, .inl hcurrent⟩, hevaluated⟩⟩
        rw [hmem, List.exists_mem_cons_iff]
        refine and_congr_right fun ha => (or_iff_right ?_).symm
        rintro ⟨hgiven, -⟩
        cases hr.symm.trans hgiven
        exact ha hcurrent
      · rw [if_neg (mt Std.ExtTreeSet.contains_iff_mem.mp hcurrent), Except.bind_eq_ok] at h
        obtain ⟨x, hx, h⟩ := h
        rw [Except.bind_eq_ok] at h
        obtain ⟨rest, hrest, h⟩ := h
        rw [Except.pure_eq_ok] at h
        obtain ⟨hmem, hevaluated⟩ := ih hrest
        have hgives : ∀ a, r.Gives v a ↔ a = head ∧ x = .yes := by
          intro a
          rw [Rule.Gives, hr, hx]
          simp [eq_comm]
        refine ⟨fun a => ?_, List.forall_mem_cons.mpr ⟨⟨head, hr, .inr ⟨x, hx⟩⟩, hevaluated⟩⟩
        rw [List.exists_mem_cons_iff, hgives]
        by_cases hyes : x = .yes
        · rw [if_pos (beq_iff_eq.mpr hyes)] at h
          rw [← h, List.mem_cons, hmem]
          constructor
          · rintro (rfl | ⟨ha, hrs⟩)
            · exact ⟨hcurrent, .inl ⟨rfl, hyes⟩⟩
            · exact ⟨ha, .inr hrs⟩
          · rintro ⟨ha, ⟨rfl, -⟩ | hrs⟩
            · exact .inl rfl
            · exact .inr ⟨ha, hrs⟩
        · rw [if_neg (by simpa using hyes)] at h
          rw [← h, hmem]
          simp [hyes]

/-- Rules with literal heads whose bodies have a truth value at every stage. -/
structure Evaluable (base : Structure) (defined : List SymbolId) (rules : List Rule) : Prop where
  head : ∀ r ∈ rules, ∃ a, r.headAtom = .ok a
  evaluates : ∀ r ∈ rules, ∀ X Y, ∃ x, evalFormula (stage base defined X Y) true r.body = .ok x

theorem exists_derive (v : Valuation) (current : AtomSet)
    (hhead : ∀ r ∈ rules, ∃ a, r.headAtom = .ok a)
    (heval : ∀ r ∈ rules, ∃ x, evalFormula v true r.body = .ok x) :
    ∃ new, derive v current rules = .ok new := by
  induction rules with
  | nil => exact ⟨[], rfl⟩
  | cons r rs ih =>
      obtain ⟨⟨head, hr⟩, hhead⟩ := List.forall_mem_cons.mp hhead
      obtain ⟨⟨x, hx⟩, heval⟩ := List.forall_mem_cons.mp heval
      obtain ⟨new, hnew⟩ := ih hhead heval
      simp only [derive, hr, hx, hnew, Except.ok_bind]
      split
      · exact ⟨_, rfl⟩
      · exact ⟨_, rfl⟩

/-- A set at which derivation has come to an end: no rule whose head is missing has a true body. -/
def Exhausted (base : Structure) (defined : List SymbolId) (rules : List Rule)
    (fixed atoms : AtomSet) : Prop :=
  ∀ r ∈ rules, ∃ a, r.headAtom = .ok a ∧
    (a ∈ atoms ∨ ∃ x, evalFormula (stage base defined atoms fixed) true r.body = .ok x ∧ x ≠ .yes)

theorem Exhausted.closedUnder {fixed atoms : AtomSet}
    (h : Exhausted base defined rules fixed atoms) :
    ClosedUnder base defined rules fixed atoms := by
  intro r hr a hgives
  obtain ⟨b, hb, hmem | ⟨x, hx, hno⟩⟩ := h r hr
  · cases hb.symm.trans hgives.1
    exact hmem
  · cases hx.symm.trans hgives.2
    exact absurd rfl hno

section Derivation

variable {fixed : AtomSet} {P : AtomSet → Prop}
  (hround : ∀ X (new : List Atom), P X →
    (∀ a ∈ new, ∃ r ∈ rules, r.Gives (stage base defined X fixed) a) →
    P (X.insertMany new))

include hround

/-- Deriving until nothing is new ends where it is exhausted, with what every round keeps. Each
round but the last adds a head, so as many rounds as heads are missing and one more are enough. -/
theorem closeUnder_eq_ok {n : Nat} {current Z : AtomSet} (hn : missing rules current < n)
    (hP : P current)
    (h : closeUnder base defined fixed rules n current = .ok Z) :
    Exhausted base defined rules fixed Z ∧ P Z := by
  induction n generalizing current with
  | zero => exact absurd hn (Nat.not_lt_zero _)
  | succ n ih =>
      rw [closeUnder, Except.bind_eq_ok] at h
      obtain ⟨new, hnew, h⟩ := h
      obtain ⟨hmem, hevaluated⟩ := derived_of_derive hnew
      cases new with
      | nil =>
          cases h
          refine ⟨fun r hr => ?_, hP⟩
          obtain ⟨a, ha, hcurrent⟩ := hevaluated r hr
          refine ⟨a, ha, or_iff_not_imp_left.mpr fun hout => ?_⟩
          obtain ⟨x, hx⟩ := hcurrent.resolve_left hout
          refine ⟨x, hx, fun hyes => ?_⟩
          exact List.not_mem_nil ((hmem a).mpr ⟨hout, r, hr, ha, hyes ▸ hx⟩)
      | cons a as =>
          have hgrows : current ≤ current.insertMany (a :: as) :=
            fun b hb => AtomSet.mem_insertMany.mpr (.inl hb)
          refine ih ?_ (hround current (a :: as) hP fun b hb => ((hmem b).mp hb).2) h
          obtain ⟨ha, r, hr, hgives⟩ := (hmem a).mp List.mem_cons_self
          have hlt := missing_lt hgrows (mem_heads.mpr ⟨r, hr, hgives.1⟩) ha
            (AtomSet.mem_insertMany.mpr (.inr List.mem_cons_self))
          omega

theorem leastModel_eq_ok {Z : AtomSet} (hempty : P ∅)
    (h : leastModel base defined rules fixed = .ok Z) :
    Exhausted base defined rules fixed Z ∧ P Z :=
  closeUnder_eq_ok hround (Nat.lt_succ_of_le (missing_le rules ∅)) hempty h

end Derivation

theorem Evaluable.exists_closeUnder (h : Evaluable base defined rules) (fixed : AtomSet) (n : Nat)
    (current : AtomSet) :
    ∃ Z, closeUnder base defined fixed rules n current = .ok Z := by
  induction n generalizing current with
  | zero => exact ⟨current, rfl⟩
  | succ n ih =>
      obtain ⟨new, hnew⟩ := exists_derive (stage base defined current fixed) current h.head
        fun r hr => h.evaluates r hr current fixed
      simp only [closeUnder, hnew, Except.ok_bind]
      cases new with
      | nil => exact ⟨current, rfl⟩
      | cons a as => exact ih _

theorem Evaluable.leastModel_spec (h : Evaluable base defined rules) {fixed : AtomSet}
    {P : AtomSet → Prop}
    (hround :
      ∀ X (new : List Atom), P X →
      (∀ a ∈ new, ∃ r ∈ rules, r.Gives (stage base defined X fixed) a) →
      P (X.insertMany new)) (hempty : P ∅) :
    ∃ Z, leastModel base defined rules fixed = .ok Z ∧
      ClosedUnder base defined rules fixed Z ∧ P Z := by
  obtain ⟨Z, hZ⟩ := h.exists_closeUnder fixed (rules.length + 1) ∅
  obtain ⟨hexhausted, hP⟩ := leastModel_eq_ok hround hempty hZ
  exact ⟨Z, hZ, hexhausted.closedUnder, hP⟩

namespace Admissible

variable (h : Admissible base defined rules)

include h

theorem evaluable : Evaluable base defined rules := ⟨fun _ hr => h.headAtom hr, h.evaluates⟩

/-- The least set closed under the rules is found for every fixed set: a round adds only what is in
every closed set. -/
theorem leastModel_spec (fixed : AtomSet) :
    ∃ Z, leastModel base defined rules fixed = .ok Z ∧
      IsLeast {Z | ClosedUnder base defined rules fixed Z} Z := by
  have hround : ∀ X (new : List Atom), (∀ Z, ClosedUnder base defined rules fixed Z → X ≤ Z) →
      (∀ a ∈ new, ∃ r ∈ rules, r.Gives (stage base defined X fixed) a) →
      ∀ Z, ClosedUnder base defined rules fixed Z → X.insertMany new ≤ Z := by
    intro X new hX hnew Z hZ a ha
    rcases AtomSet.mem_insertMany.mp ha with ha | ha
    · exact hX Z hZ a ha
    · obtain ⟨r, hr, hgives⟩ := hnew a ha
      exact hZ r hr a (h.gives_mono (hX Z hZ) le_rfl hr hgives)
  obtain ⟨Z, hZ, hclosed, hle⟩ := h.evaluable.leastModel_spec hround fun Z _ => AtomSet.empty_le Z
  exact ⟨Z, hZ, hclosed, hle⟩

theorem least_antitone {X X' Z Z' : AtomSet} (hX : X ≤ X')
    (hZ : IsLeast {Z | ClosedUnder base defined rules X Z} Z)
    (hZ' : IsLeast {Z | ClosedUnder base defined rules X' Z} Z') : Z' ≤ Z :=
  hZ'.2 fun r hr a hgives => hZ.1 r hr a (h.gives_mono le_rfl hX hr hgives)

end Admissible

theorem mem_heads_of_least {fixed Z : AtomSet}
    (hZ : IsLeast {Z | ClosedUnder base defined rules fixed Z} Z)
    {a : Atom} (ha : a ∈ Z) : a ∈ heads rules := by
  have := hZ.2 (closedUnder_heads fixed) a ha
  rwa [Std.ExtTreeSet.mem_ofList, List.contains_iff_mem] at this

end ModelExpansion
