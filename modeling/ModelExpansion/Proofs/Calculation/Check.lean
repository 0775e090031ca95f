import ModelExpansion.Proofs.Calculation.Confluence
import ModelExpansion.Proofs.Calculation.Values
import ModelExpansion.Proofs.WellFounded.Bounds
import ModelExpansion.Proofs.WellFounded.Completion

/-! # Calculated definitions and the check
A calculation only adds to what is recorded, and only atoms of what it calculates. The solution of a
definition that was calculated is still its solution at the end of the run, when a later check
computes it again, unless one of its symbols heads no ground rule. -/

namespace ModelExpansion

/-! ## What a run leaves unchanged -/

namespace Structure

variable {S S' S₁ : Structure}

/-- What lies between a structure and one that extends it is extended by that one too. -/
theorem Extends.between (h : S.Extends S') (hbefore : S.Refines S₁)
    (hafter : S₁.Refines S') : S₁.Extends S' where
  toRefines := hafter
  functions a ha := by
    rw [isFunction_congr hbefore.vocabulary] at ha
    cases hv : S₁.facts[a]? with
    | some v => exact hafter.keeps hv
    | none =>
        cases hstart : S.facts[a]? with
        | some v => cases hv.symm.trans (hbefore.keeps hstart)
        | none => rw [h.functions a ha, hstart]

end Structure

namespace Task

variable {K : Task} {S S' : Structure}

/-- Whatever becomes of a task, facts are only added. -/
theorem refines_of_calculate {step : CalculationStep}
    (h : K.calculate S = (S', .ok step)) : S.Refines S' := by
  rw [calculate, calculateWith] at h
  split at h
  · cases h
  · cases h
    exact .refl S
  · split at h
    · cases h
    · cases h
      exact .refl S
    · cases h
      exact .refl S
    · split at h
      · rename_i hrecord
        cases h
        exact refines_recordAtoms hrecord
      · rename_i hrecord
        cases h
        exact refines_recordAtoms hrecord
      · cases h

theorem facts_of_calculated (h : K.calculate S = (S', .ok .calculated)) {a : Atom}
    (ha : a.symbol ∉ K.heads) :
    S'.facts[a]? = S.facts[a]? := by
  cases calculate_outcome h with
  | calculated _ recorded => exact (recorded_recordAtoms recorded).2 a ha

end Task

namespace Theory

variable {T : Theory} {S S' : Structure} {c : Calculated} {outcome : Calculation}

/-- Facts are only added, also before an inconsistency. -/
theorem refines_of_calculate (h : calculate T S = (S', .ok outcome)) : S.Refines S' := by
  cases calculate_ends h with
  | idle run _ => exact run.obtained.1
  | fails hfails =>
      obtain ⟨⟨S₁, c⟩, run, i, K, -, -, hcalculate⟩ := hfails
      exact run.obtained.1.trans (Task.refines_of_calculate hcalculate)

theorem Calculates.facts (h : T.Calculates (S, .none) (S', c)) {a : Atom}
    (ha : ∀ i K, T.task? i = some K → c.Has i → a.symbol ∉ K.heads) :
    S'.facts[a]? = S.facts[a]? := by
  have hrun :=
    h.invariant (I := fun S' c => (∀ i K, T.task? i = some K → c.Has i → a.symbol ∉ K.heads) →
    S'.facts[a]? = S.facts[a]?) (fun _ => rfl) ?_
  · exact hrun ha
  · intro S₁ c i K S₂ ih hK _ hcalculate ha
    rw [Task.facts_of_calculated hcalculate (ha i K hK (Calculated.has_add.mpr (.inr rfl)))]
    exact ih fun j L hL hj => ha j L hL (Calculated.has_add.mpr (.inl hj))

/-- Only atoms of symbols that head a rule of a calculated definition or fixpoint definition are
added. -/
theorem facts_of_calculate (h : calculate T S = (S', .ok (.consistent c))) {a : Atom}
    (hdefinitions : ∀ i ∈ c.definitions, ∀ D, T.definitions[i]? = some D → a.symbol ∉ D.defined)
    (hfixpoints : ∀ i ∈ c.fixpoints, ∀ F, T.fixpoints[i]? = some F → a.symbol ∉ F.defined) :
    S'.facts[a]? = S.facts[a]? := by
  cases calculate_ends h with
  | idle run _ =>
      refine run.facts fun i K hK hi => ?_
      cases i with
      | inl i =>
          obtain ⟨D, hD, rfl⟩ := Option.map_eq_some_iff.mp hK
          exact hdefinitions i hi D hD
      | inr i =>
          obtain ⟨F, hF, rfl⟩ := Option.map_eq_some_iff.mp hK
          exact hfixpoints i hi F hF

theorem Calculates.extends (h : T.Calculates (S, .none) (S', c))
    (hpredicates : ∀ i K, T.task? i = some K → ∀ p ∈ K.heads, S.isFunction p = false) :
    S.Extends S' := by
  refine h.invariant (I := fun S' _ => S.Extends S') (.refl S) ?_
  intro S₁ c i K S₂ hS₁ hK _ hcalculate
  cases Task.calculate_outcome hcalculate with
  | calculated _ recorded =>
      refine hS₁.trans (extends_recordAtoms ?_ recorded)
      rw [hS₁.isFunction]
      exact hpredicates i K hK

end Theory

/-! ## Solutions and the check -/

section Solutions

variable {S : Structure} {D : Definition} {F : Fixpoint} {atoms : AtomSet}

theorem solveDefinition_eq_inl_iff : solveDefinition D S = .ok (some (.inl atoms)) ↔
    ∃ G, groundDefinition S D = .ok G ∧ ∃ w, wellFoundedModel S D.defined G.rules = .ok w ∧
    w.undefined = [] ∧
      w.certain = atoms := by
  rw [solveDefinition, Except.bind_eq_ok]
  constructor
  · rintro ⟨ground, hground, h⟩
    cases ground with
    | none => cases h
    | some G =>
        rw [Except.bind_eq_ok] at h
        obtain ⟨w, hw, h⟩ := h
        cases hundefined : w.undefined with
        | cons a as =>
            rw [hundefined] at h
            cases h
        | nil =>
            rw [hundefined] at h
            cases h
            exact ⟨G, unlessInfinite_eq_some.mp hground, w, hw, hundefined, rfl⟩
  · rintro ⟨G, hground, w, hw, hundefined, rfl⟩
    refine ⟨some G, unlessInfinite_eq_some.mpr hground, ?_⟩
    simp only [hw, Except.ok_bind, hundefined]
    rfl

theorem solveFixpoint_eq_inl_iff : solveFixpoint F S = .ok (some (.inl atoms)) ↔
    ∃ G, groundFixpoint S F = .ok G ∧ fixpointModel S G = .ok (.converged atoms) := by
  rw [solveFixpoint, Except.bind_eq_ok]
  constructor
  · rintro ⟨ground, hground, h⟩
    cases ground with
    | none => cases h
    | some G =>
        rw [Except.bind_eq_ok] at h
        obtain ⟨value, hvalue, h⟩ := h
        cases value with
        | oscillating a => cases h
        | converged atoms =>
            cases h
            exact ⟨G, unlessInfinite_eq_some.mp hground, hvalue⟩
  · rintro ⟨G, hground, hvalue⟩
    refine ⟨some G, unlessInfinite_eq_some.mpr hground, ?_⟩
    simp only [hvalue, Except.ok_bind]
    rfl

/-- A well-founded model does not depend on the order of the defined symbols. -/
theorem wellFoundedModel_congr_defined {defined defined' : List SymbolId}
    (h : ∀ p, p ∈ defined' ↔ p ∈ defined)
    (rules : List Rule) : wellFoundedModel S defined' rules = wellFoundedModel S defined rules := by
  have hstage : stage S defined' = stage S defined := by
    funext X Y
    have hcontains : ∀ p, defined'.contains p = defined.contains p := fun p => by
      rw [Bool.eq_iff_iff, List.contains_iff_mem, List.contains_iff_mem, h]
    simp only [stage, hcontains]
  have hclose : ∀ fixed n current, closeUnder S defined' fixed rules n current =
      closeUnder S defined fixed rules n current := by
    intro fixed n
    induction n with
    | zero => exact fun _ => rfl
    | succ n ih => exact fun current => by simp only [closeUnder, hstage, ih]
  have halternate : ∀ n lower, alternate S defined' rules n lower =
      alternate S defined rules n lower := by
    intro n
    induction n with
    | zero => exact fun _ => rfl
    | succ n ih => exact fun lower => by simp only [alternate, leastModel, hclose, ih]
  exact halternate _ ∅

end Solutions

namespace Task

variable {K : Task} {S S' : Structure} {atoms : AtomSet} {defined : List SymbolId}

theorem Obtained.agreesOn (h : K.Obtained S S' atoms) (hdefined : ∀ p ∈ defined, p ∈ K.heads) :
    S'.agreesOn defined atoms = .ok true := by
  rw [Structure.agreesOn_eq_ok_true_iff fun p hp => (h.decided (hdefined p hp)).enumerable]
  intro p hp t ht
  exact Structure.value_of_stored
    (Structure.stored_eq_ofBool_iff.mpr (h.reflects p (hdefined p hp) t ht))

theorem Obtained.solves_end (h : K.Obtained S S' atoms) (hS : S.Extends S') (hK : K.Stable S) :
    K.Solves S' (.inl atoms) := by
  obtain ⟨S₁, hbefore, hafter, hsolves⟩ := h.solves
  have hend := hS.between hbefore hafter
  have hstart : S.Extends S₁ := by
    refine ⟨hbefore, fun a ha => ?_⟩
    rw [← hS.functions a ha]
    exact (hend.functions a (by rwa [Structure.isFunction_congr hbefore.vocabulary])).symm
  exact hsolves.mono hK hstart hend

end Task

theorem mem_defined_ground {S : Structure} {D G : Definition} (h : groundDefinition S D = .ok G)
    {p : SymbolId} (hp : p ∈ G.defined) : p ∈ D.defined := by
  rw [groundDefinition, Except.bind_eq_ok] at h
  obtain ⟨ground, hground, heq⟩ := h
  cases heq
  obtain ⟨g, hg, rfl⟩ := mem_headSymbols.mp hp
  obtain ⟨r, hr, hhead, -⟩ := exists_rule_of_mem_groundRules hground hg
  exact mem_headSymbols.mpr ⟨r, hr, hhead.symm⟩

/-! ## Runs and the check -/

section Check

variable {T : Theory} {S S' : Structure} {c : Calculated} {i : Nat}
  (hpredicates : ∀ r ∈ T.rules, S.isFunction r.head = false)
  (h : calculate T S = (S', .ok (.consistent c)))

include hpredicates

theorem isFunction_of_task {i : Nat ⊕ Nat} {K : Task} (hK : T.task? i = some K) :
    ∀ r ∈ K.rules, S.isFunction r.head = false := by
  intro r hr
  refine hpredicates r ?_
  cases i with
  | inl i =>
      obtain ⟨D, hD, rfl⟩ := Option.map_eq_some_iff.mp hK
      exact List.mem_append_left _ (List.mem_flatMap.mpr ⟨D, List.mem_of_getElem? hD, hr⟩)
  | inr i =>
      obtain ⟨F, hF, rfl⟩ := Option.map_eq_some_iff.mp hK
      exact List.mem_append_right _ (List.mem_flatMap.mpr ⟨F, List.mem_of_getElem? hF, hr⟩)

include h

theorem extends_of_calculate : S.Extends S' := by
  cases Theory.calculate_ends h with
  | idle run _ =>
    exact run.extends fun i K hK => forall_mem_headSymbols (isFunction_of_task hpredicates hK)

/-- A definition that was calculated passes the check, if each of its symbols heads a ground rule
and none of them is mentioned inside an aggregate. -/
theorem satisfiesDefinition_of_calculate {D : Definition} (hD : T.definitions[i]? = some D)
    (hi : i ∈ c.definitions) :
    ∃ G, groundDefinition S' D = .ok G ∧ ((∀ p ∈ D.defined, p ∈ G.defined) →
      (∀ g ∈ G.rules, ∀ p ∈ g.body.aggregateSymbols, p ∉ D.defined) →
      S'.satisfiesDefinition G = .ok true) := by
  have hS := extends_of_calculate hpredicates h
  have hK : T.task? (.inl i) = some D.task := congrArg (Option.map Definition.task) hD
  obtain ⟨atoms, hobtained, -⟩ := Theory.obtained_of_calculate h hK hi
  have hstable : D.task.Stable S := Definition.stable_task (isFunction_of_task hpredicates hK)
  obtain ⟨G, hG, w, hw, hundefined, rfl⟩ :=
    solveDefinition_eq_inl_iff.mp (hobtained.solves_end hS hstable).solved
  refine ⟨G, hG, fun hdefined haggregate => ?_⟩
  have hpredicate : ∀ p ∈ D.defined, S'.isFunction p = false := by
    rw [hS.isFunction]
    exact hstable.predicates
  have htotal :=
    (WellFounded.isTotal_iff_undefined_eq_nil (certain_le_possible hpredicate haggregate hw)).mpr
      hundefined
  have hsame : ∀ p, p ∈ G.defined ↔ p ∈ D.defined := fun p => ⟨mem_defined_ground hG, hdefined p⟩
  refine Structure.satisfiesDefinition_eq_ok_true_iff.mpr ⟨w, ?_, htotal, ?_⟩
  · rwa [wellFoundedModel_congr_defined hsame]
  · exact hobtained.agreesOn fun p hp => (hsame p).mp hp

/-- A fixpoint definition that was calculated passes the check, if each of its symbols heads a
ground rule. -/
theorem satisfiesFixpoint_of_calculate {F : Fixpoint} (hF : T.fixpoints[i]? = some F)
    (hi : i ∈ c.fixpoints) :
    ∃ G, groundFixpoint S' F = .ok G ∧
      (F.defined ⊆ G.defined → S'.satisfiesFixpoint G = .ok true) := by
  have hS := extends_of_calculate hpredicates h
  have hK : T.task? (.inr i) = some F.task := congrArg (Option.map Fixpoint.task) hF
  obtain ⟨atoms, hobtained, -⟩ := Theory.obtained_of_calculate h hK hi
  have hground : ∃ G, groundFixpoint S' F = .ok G := by
    obtain ⟨S₁, -, hafter, hsolves⟩ := hobtained.solves
    obtain ⟨G, hG, -⟩ := solveFixpoint_eq_inl_iff.mp hsolves.solved
    exact ⟨G, by
      rwa [groundFixpoint_congr (Structure.domain_congr hafter.vocabulary hafter.tables)]⟩
  obtain ⟨G, hG⟩ := hground
  refine ⟨G, hG, fun hdefined => ?_⟩
  have hstable : F.task.Stable S := by
    refine Fixpoint.stable_task (isFunction_of_task hpredicates hK) fun G' hG' => ?_
    rw [← groundFixpoint_congr hS.domain, hG] at hG'
    cases hG'
    exact hdefined
  obtain ⟨G', hG', hvalue⟩ := solveFixpoint_eq_inl_iff.mp (hobtained.solves_end hS hstable).solved
  cases hG.symm.trans hG'
  have hheads : ∀ p ∈ G.defined, p ∈ F.task.heads := by
    intro p hp
    obtain ⟨g, hg, rfl⟩ := mem_headSymbols.mp hp
    obtain ⟨r, hr, hhead, -⟩ := exists_rule_of_mem_groundFixpoint F hG g hg
    exact mem_headSymbols.mpr ⟨r, hr, hhead.symm⟩
  rw [Structure.satisfiesFixpoint, hvalue, Except.ok_bind]
  exact hobtained.agreesOn hheads

end Check

/-- The lamp and the signal of the circuit pass the check over what their calculation leaves. -/
theorem satisfies_circuit :
    ∃ S₁ c, calculate ⟨[lighted, powered], [signalled], []⟩ circuit = (S₁, .ok (.consistent c)) ∧
    S₁.satisfiesDefinition lighted = .ok true ∧ S₁.satisfiesFixpoint signalled = .ok true := by
  let on : Structure :=
    { circuit with
      facts := .ofList ([(⟨0, []⟩, true), (⟨1, []⟩, true), (⟨2, []⟩, true)] : List (Atom × Bool)) }
  have hrun : calculate ⟨[lighted, powered], [signalled], []⟩ circuit =
      (on, .ok (.consistent ⟨[1, 0], [0]⟩)) := by
    decide +kernel
  obtain ⟨G, hG, hlighted⟩ :=
    satisfiesDefinition_of_calculate (i := 0) (by decide) hrun rfl (by decide)
  obtain ⟨F, hF, hsignalled⟩ :=
    satisfiesFixpoint_of_calculate (i := 0) (by decide) hrun rfl (by decide)
  cases (show groundDefinition on lighted = .ok lighted from rfl).symm.trans hG
  cases (show groundFixpoint on signalled = .ok signalled from rfl).symm.trans hF
  exact ⟨on, _, hrun, hlighted (fun _ hp => hp) (by decide), hsignalled (List.Subset.refl _)⟩

/-- The right lamp stays dark in a calculation: the left one has no ground rule and is read as
nothing defines it. When that is recorded, the check derives the right lamp, so the definition does
not pass over its own result. -/
theorem calculate_switched :
    ∃ dark G, calculate ⟨[], [switched], []⟩ corridor = (dark, .ok (.consistent ⟨[], [0]⟩)) ∧
    groundFixpoint dark switched = .ok G ∧ dark.satisfiesFixpoint G = .ok false := by
  let dark : Structure :=
    { corridor with facts := .ofList ([(⟨0, []⟩, false), (⟨1, []⟩, false)] : List (Atom × Bool)) }
  exact ⟨dark, .level true [⟨[], 1, [], .atom false 0 []⟩] [],
    by decide +kernel, rfl, by decide +kernel⟩

end ModelExpansion
