import ModelExpansion.Proofs.Dependencies
import ModelExpansion.Proofs.Evaluation.WithinTables
import ModelExpansion.Proofs.WellFounded.Supported
import ModelExpansion.NestedFixpoint

/-! # Completion of a definition
In a total structure that is a model of a definition, the atoms of the defined symbols are those
that some rule gives. Without recursion it is enough that they are. -/

namespace ModelExpansion

/-- An atom of a defined symbol is true exactly if it is the head of a rule whose body is true. -/
def Structure.Completes (M : Structure) (D : Definition) : Prop :=
  ∀ p ∈ D.defined, ∀ t, M.InTables ⟨p, t⟩ →
    (M.value p t = .yes ↔ ∃ r ∈ D.rules, r.Gives M.valuation ⟨p, t⟩)

/-- A set has, of the atoms of a symbol in the tables, those that are true. -/
def Structure.AgreesAt (M : Structure) (atoms : AtomSet) (p : SymbolId) : Prop :=
  ∀ t, M.InTables ⟨p, t⟩ → M.value p t = atoms.truth p t

/-! ## Values in total structures -/

theorem determined?_mem {values : List Element} {truth : Element → Truth} {e : Element}
    (h : determined? values truth = some e) : e ∈ values := by
  rw [determined?] at h
  split at h
  · rename_i v hv
    cases h
    exact List.mem_of_find?_eq_some hv
  · split at h
    · rename_i v hv
      cases h
      have hmem : e ∈ values.filter fun v => truth v == .unknown := by
        rw [hv]; exact List.mem_singleton_self e
      exact (List.mem_filter.mp hmem).1
    · cases h

namespace Structure

variable {M : Structure} {D : Definition}

theorem valuedIn (M : Structure) : M.valuation.ValuedIn M := by
  intro f t e h
  change M.functionValue f t = .ok (some e) at h
  rw [functionValue, Except.bind_eq_ok] at h
  obtain ⟨values, hvalues, h⟩ := h
  rw [Except.pure_eq_ok] at h
  rw [results, hvalues]
  exact determined?_mem h

/-- Where everything is decided, the tables of a predicate can be enumerated and its atoms have a
truth value. -/
theorem exists_value_of_isTotal (h : M.isTotal = .ok true) {p : SymbolId}
    (hpredicate : M.isFunction p = false) {t : Tuple} (ht : M.InTables ⟨p, t⟩) :
    (∃ domains, M.graphDomains p = .ok domains) ∧ ∃ b, M.value p t = .ofBool b := by
  obtain ⟨s, hs, -⟩ := inTables_iff.mp ht
  have hsymbol := Vocabulary.symbol_eq_ok_iff.mp hs
  have htwo := allM_eq_ok_true_iff.mp h p (Vocabulary.mem_symbolIds hsymbol)
  obtain ⟨hdomains, hknown⟩ := (isTwoValued_eq_ok_true_iff hpredicate).mp htwo
  obtain ⟨b, hb⟩ := hknown t ht
  exact ⟨hdomains, b, value_of_stored (by rw [stored, hb]; rfl)⟩

theorem agreesOn_eq_ok_true_iff {defined : List SymbolId} {atoms : AtomSet}
    (hdomains : ∀ p ∈ defined, ∃ domains, M.graphDomains p = .ok domains) :
    M.agreesOn defined atoms = .ok true ↔ ∀ p ∈ defined, M.AgreesAt atoms p := by
  rw [agreesOn, allM_eq_ok_true_iff]
  refine forall₂_congr fun p hp => ?_
  obtain ⟨domains, hp⟩ := hdomains p hp
  rw [hp, Except.ok_bind, allTuplesM_eq, allM_eq_ok_true_iff]
  refine forall_congr' fun t => ?_
  rw [Except.pure_eq_ok, beq_iff_eq, inTables_iff_mem_product hp]

theorem satisfiesDefinition_eq_ok_true_iff : M.satisfiesDefinition D = .ok true ↔
    ∃ w, wellFoundedModel M D.defined D.rules = .ok w ∧ w.isTotal = true ∧
      M.agreesOn D.defined w.certain = .ok true := by
  rw [satisfiesDefinition, Except.bind_eq_ok]
  refine exists_congr fun w => and_congr_right fun _ => ?_
  cases w.isTotal with
  | true => simp
  | false => simp [pure, Except.pure]

end Structure

theorem Truth.ofBool_congr {a b : Bool} (h : ofBool a = yes ↔ ofBool b = yes) :
    ofBool a = ofBool b := by
  cases a <;> cases b <;> simp_all [ofBool]

theorem AtomSet.truth_eq_yes {X : AtomSet} {p : SymbolId} {t : Tuple} :
    X.truth p t = .yes ↔ ⟨p, t⟩ ∈ X := by
  rw [truth, Std.ExtTreeSet.mem_iff_contains]
  cases X.contains ⟨p, t⟩ <;> simp [Truth.ofBool]

theorem Rule.head_of_headAtom {r : Rule} {a : Atom} (h : r.headAtom = .ok a) :
    r.head = a.symbol := by
  rw [headAtom] at h
  cases ht : r.headTuple? with
  | none => rw [ht] at h; cases h
  | some t => rw [ht] at h; cases h; rfl

/-! ## Definitions in a total structure -/

/-- A definition of predicates over a structure in which everything is decided: its heads are atoms
of the tables, the arguments of the defined symbols stay in the tables, no aggregate reads them, and
every body has a truth value however they are read. -/
structure Definition.FitsIn (D : Definition) (M : Structure) : Prop where
  total : M.isTotal = .ok true
  predicate : ∀ r ∈ D.rules, M.isFunction r.head = false
  head : ∀ r ∈ D.rules, ∃ t, r.headTuple? = some t ∧ M.InTables ⟨r.head, t⟩
  body : ∀ r ∈ D.rules, r.body.within M D.defined = true
  aggregate : ∀ r ∈ D.rules, ∀ p ∈ r.body.aggregateSymbols, p ∉ D.defined
  evaluates : ∀ r ∈ D.rules, ∀ X Y, ∃ x, evalFormula (stage M D.defined X Y) true r.body = .ok x

namespace Definition.FitsIn

variable {M : Structure} {D : Definition} (h : D.FitsIn M) {X Y : AtomSet}
    {p : SymbolId} {t : Tuple}

include h

theorem isFunction_eq_false (hp : p ∈ D.defined) : M.isFunction p = false := by
  obtain ⟨r, hr, rfl⟩ := mem_defined.mp hp
  exact h.predicate r hr

theorem admissible : Admissible M D.defined D.rules where
  head r hr := by
    obtain ⟨t, ht, -⟩ := h.head r hr
    exact ⟨t, ht⟩
  predicate _ hp := h.isFunction_eq_false hp
  aggregate := h.aggregate
  evaluates := h.evaluates

theorem inTables_of_mem_heads {a : Atom} (ha : a ∈ heads D.rules) :
    a.symbol ∈ D.defined ∧ M.InTables a := by
  obtain ⟨r, hr, hhead⟩ := mem_heads.mp ha
  obtain ⟨t, ht, htables⟩ := h.head r hr
  rw [Rule.headAtom, ht] at hhead
  cases hhead
  exact ⟨mem_defined.mpr ⟨r, hr, rfl⟩, htables⟩

theorem graphDomains (hp : p ∈ D.defined) : ∃ domains, M.graphDomains p = .ok domains := by
  obtain ⟨r, hr, rfl⟩ := mem_defined.mp hp
  obtain ⟨t, -, ht⟩ := h.head r hr
  exact (Structure.exists_value_of_isTotal h.total (h.predicate r hr) ht).1

theorem exists_value (hp : p ∈ D.defined) (ht : M.InTables ⟨p, t⟩) : ∃ b, M.value p t = .ofBool b :=
  (Structure.exists_value_of_isTotal h.total (h.isFunction_eq_false hp) ht).2

/-- A stage whose sets have the atoms of a symbol that are true answers for the symbol as the
structure does. -/
theorem sameWithin (hp : p ∈ D.defined → M.AgreesAt X p ∧ M.AgreesAt Y p) :
    (stage M D.defined X Y).SameWithin M.valuation M D.defined p := by
  by_cases hdefined : p ∈ D.defined
  · constructor
    · intro positive t ht
      obtain ⟨hX, hY⟩ := hp hdefined
      cases positive
      · simp [stage, Structure.valuation, hdefined, hY t (ht hdefined)]
      · simp [stage, Structure.valuation, hdefined, hX t (ht hdefined)]
    · intro t
      have hsort : ∃ failure, M.vocabulary.resultSort p = .error failure := by
        cases hresult : M.vocabulary.resultSort p with
        | error failure => exact ⟨failure, rfl⟩
        | ok sort =>
            have hfunction := Structure.isFunction_of_resultSort hresult
            rw [h.isFunction_eq_false hdefined] at hfunction
            cases hfunction
      obtain ⟨failure, hsort⟩ := hsort
      simp [stage, Structure.valuation, hdefined, Valuation.fromGraph, Structure.functionValue,
        Structure.resultDomain, hsort]
      rfl
  · constructor <;> intros <;> simp [stage, Structure.valuation, hdefined]

theorem gives_iff {r : Rule} (hr : r ∈ D.rules)
    (hsame : ∀ q ∈ r.body.symbols, q ∈ D.defined → M.AgreesAt X q ∧ M.AgreesAt Y q) {a : Atom} :
    r.Gives (stage M D.defined X Y) a ↔ r.Gives M.valuation a := by
  have hbody : evalFormula (stage M D.defined X Y) true r.body =
      evalFormula M.valuation true r.body :=
    evalFormula_congr_within M.valuedIn r.body (h.body r hr) (h.aggregate r hr) fun q hq =>
      h.sameWithin (hsame q hq)
  rw [Rule.Gives, Rule.Gives, hbody]

theorem completes_of_satisfies (hsatisfies : M.satisfiesDefinition D = .ok true) :
    M.Completes D := by
  obtain ⟨w, hw, htotal, hagrees⟩ := Structure.satisfiesDefinition_eq_ok_true_iff.mp hsatisfies
  rw [Structure.agreesOn_eq_ok_true_iff fun p hp => h.graphDomains hp] at hagrees
  intro p hp t ht
  rw [hagrees p hp t ht, AtomSet.truth_eq_yes, h.admissible.mem_certain_iff_gives hw htotal]
  apply exists_congr
  intro r
  apply and_congr_right
  intro hr
  exact h.gives_iff hr fun q _ hq => ⟨hagrees q hq, hagrees q hq⟩

/-- The least closed set agrees with the completion at a symbol if both sets that it is read from do
at all symbols that the symbol depends on. -/
theorem agreesAt_of_least (hcompletes : M.Completes D)
    (hX : IsLeast {Z | ClosedUnder M D.defined D.rules Y Z} X)
    (hp : p ∈ D.defined) (hbefore : ∀ q, D.DependsOn p q → M.AgreesAt X q ∧ M.AgreesAt Y q) :
    M.AgreesAt X p := by
  intro t ht
  have hmem : ⟨p, t⟩ ∈ X ↔ M.value p t = .yes := by
    rw [hcompletes p hp t ht, h.admissible.mem_least_iff hX]
    apply exists_congr
    intro r
    apply and_congr_right
    intro hr
    by_cases hhead : r.head = p
    · exact h.gives_iff hr fun q hq hdefined =>
        hbefore q ⟨hdefined, r, hr, hhead, List.mem_append_left _ hq⟩
    · have hother : ∀ v, ¬ r.Gives v ⟨p, t⟩ := fun v hgives => hhead (r.head_of_headAtom hgives.1)
      exact iff_of_false (hother _) (hother _)
  obtain ⟨b, hb⟩ := h.exists_value hp ht
  rw [← AtomSet.truth_eq_yes, hb] at hmem
  rw [hb]
  exact Truth.ofBool_congr hmem.symm

/-- Without recursion, a structure in which the atoms are those that the rules give is a model. -/
theorem satisfies_of_completes (hrecursive : D.isRecursive = false) (hcompletes : M.Completes D) :
    M.satisfiesDefinition D = .ok true := by
  obtain ⟨w, hw, hle, hcertain, hpossible⟩ := h.admissible.wellFoundedModel_spec
  have hagrees : ∀ p ∈ D.defined, M.AgreesAt w.certain p ∧ M.AgreesAt w.possible p := by
    refine D.dependency_induction hrecursive fun p hp ih => ?_
    constructor
    · exact h.agreesAt_of_least hcompletes hcertain hp ih
    · exact h.agreesAt_of_least hcompletes hpossible hp fun q hq => (ih q hq).symm
  have hsame : w.certain = w.possible := by
    apply le_antisymm hle
    intro a ha
    obtain ⟨hp, ht⟩ := h.inTables_of_mem_heads (mem_heads_of_least hpossible ha)
    obtain ⟨hcertain, hpossible⟩ := hagrees a.symbol hp
    rw [← AtomSet.truth_eq_yes, ← hcertain a.tuple ht, hpossible a.tuple ht, AtomSet.truth_eq_yes]
    exact ha
  rw [Structure.satisfiesDefinition_eq_ok_true_iff]
  refine ⟨w, hw, (WellFounded.isTotal_iff hle).mpr hsame, ?_⟩
  rw [Structure.agreesOn_eq_ok_true_iff fun p hp => h.graphDomains hp]
  exact fun p hp => (hagrees p hp).1

end Definition.FitsIn

/-- A total structure that is a model of a definition makes those atoms of the defined symbols true
that the rules give. Where no defined symbol depends on itself, each structure that does so is a
model. -/
theorem satisfiesDefinition_completion {M : Structure} {D : Definition} (h : D.FitsIn M) :
    (M.satisfiesDefinition D = .ok true → M.Completes D) ∧
    (D.isRecursive = false → M.Completes D → M.satisfiesDefinition D = .ok true) :=
  ⟨h.completes_of_satisfies, h.satisfies_of_completes⟩

/-- Two places opposite to each other, with the host at the first and a guest at the second. -/
def seats : Structure where
  vocabulary :=
    ⟨[⟨"place", []⟩], [⟨"host", [0], none⟩, ⟨"guest", [0], none⟩, ⟨"opposite", [0], some 0⟩]⟩
  tables := [.range 1 2]
  facts :=
    .ofList
      ([(⟨0, [.int 1]⟩, true), (⟨0, [.int 2]⟩, false), (⟨1, [.int 1]⟩, false),
        (⟨1, [.int 2]⟩, true),
    (⟨2, [.int 1, .int 1]⟩, false), (⟨2, [.int 1, .int 2]⟩, true), (⟨2, [.int 2, .int 1]⟩, true),
    (⟨2, [.int 2, .int 2]⟩, false)] : List (Atom × Bool))

/-- The host sits at the first place, and guests sit opposite to the host. -/
def seating : Definition :=
  ⟨[⟨[], 0, [.element (.int 1)], .conj []⟩,
    ⟨[], 1, [.element (.int 1)], .pred 0 [.apply 2 [.element (.int 1)]]⟩,
    ⟨[], 1, [.element (.int 2)], .pred 0 [.apply 2 [.element (.int 2)]]⟩]⟩

theorem fitsIn_seats : seating.FitsIn seats where
  total := by decide +kernel
  predicate := by decide +kernel
  head := by
    simp only [seating, List.forall_mem_cons]
    exact ⟨⟨[.int 1], rfl, by decide +kernel⟩, ⟨[.int 1], rfl, by decide +kernel⟩,
      ⟨[.int 2], rfl, by decide +kernel⟩, by simp⟩
  body := by decide +kernel
  aggregate := by decide +kernel
  evaluates := by
    simp only [seating, List.forall_mem_cons]
    exact ⟨fun _ _ => ⟨_, rfl⟩, fun _ _ => ⟨_, rfl⟩, fun _ _ => ⟨_, rfl⟩, by simp⟩

/-- Host and guest sit as the rules say, and guests depend on the host only. -/
theorem satisfiesDefinition_completion_seats : seating.FitsIn seats ∧ seating.isRecursive = false ∧
    seats.Completes seating ∧ seats.satisfiesDefinition seating = .ok true := by
  have hrecursive : seating.isRecursive = false := Definition.isRecursive_eq_false id (by decide)
  have hsatisfies : seats.satisfiesDefinition seating = .ok true := by decide +kernel
  obtain ⟨hcompletes, hconverse⟩ := satisfiesDefinition_completion fitsIn_seats
  exact ⟨fitsIn_seats, hrecursive, hcompletes hsatisfies,
    hconverse hrecursive (hcompletes hsatisfies)⟩

/-- A door that no key opens and that is shut. -/
def door : Structure where
  vocabulary := ⟨[⟨"key", []⟩], [⟨"opens", [0], none⟩, ⟨"shut", [], none⟩]⟩
  tables := [.ofList [.name "a"]]
  facts := .ofList ([(⟨0, [.name "a"]⟩, false), (⟨1, []⟩, true)] : List (Atom × Bool))

/-- A key opens the door if it does, and the door is shut unless it opens without a key. -/
def locking : Definition :=
  ⟨[⟨[], 0, [.element (.name "a")], .pred 0 [.element (.name "a")]⟩, ⟨[], 1, [], .atom false 0 []⟩]⟩

/-- An atom without the argument that its predicate takes is false while a definition is evaluated,
but its truth in the structure is not known. So the door is shut although no rule says so. -/
theorem satisfies_without_argument : locking.isGround = true ∧ door.isTotal = .ok true ∧
    (∀ r ∈ locking.rules, door.isFunction r.head = false ∧
      ∃ t, r.headTuple? = some t ∧ door.InTables ⟨r.head, t⟩) ∧
    (∀ r ∈ locking.rules, r.body.aggregateSymbols = [] ∧ ∃ sign args, r.body = .atom sign 0 args ∧
      ∀ s, door.vocabulary.symbols[0]? = some s →
      ∀ a ∈ s.graphSorts.zip args, door.ranges a.1 a.2 = true) ∧
    (∀ r ∈ locking.rules, ∀ X Y, ∃ x,
      evalFormula (stage door locking.defined X Y) true r.body = .ok x) ∧
    door.satisfiesDefinition locking = .ok true ∧ ¬ door.Completes locking := by
  refine ⟨by decide +kernel, by decide +kernel, ?_, ?_, ?_, by decide +kernel, ?_⟩
  · simp only [locking, List.forall_mem_cons]
    exact ⟨⟨by decide, [.name "a"], rfl, by decide +kernel⟩,
      ⟨by decide, [], rfl, by decide +kernel⟩, by simp⟩
  · simp only [locking, List.forall_mem_cons]
    refine ⟨⟨rfl, _, _, rfl, ?_⟩, ⟨rfl, _, _, rfl, by simp⟩, by simp⟩
    intro s hs
    cases hs
    decide +kernel
  · simp only [locking, List.forall_mem_cons]
    exact ⟨fun _ _ => ⟨_, rfl⟩, fun _ _ => ⟨_, rfl⟩, by simp⟩
  · intro hcompletes
    have hshut : door.value 1 [] = .yes := by decide +kernel
    obtain ⟨r, hr, hhead, hbody⟩ :=
      (hcompletes 1 (by decide +kernel) [] (by decide +kernel)).mp hshut
    simp only [locking, List.mem_cons, List.not_mem_nil, or_false] at hr
    rcases hr with rfl | rfl
    · cases hhead
    · revert hbody
      decide +kernel

end ModelExpansion
