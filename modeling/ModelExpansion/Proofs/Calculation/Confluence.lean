import Mathlib.Data.List.Perm.Basic
import Mathlib.Logic.Equiv.Defs
import ModelExpansion.Proofs.Calculation.Runs

/-! # The order of definitions does not matter
Where every defined symbol is a predicate with a ground rule, the solution of a definition that can
be calculated is the same however much is recorded later. So one run stays below where another one
ends, and both end alike. -/

namespace ModelExpansion

variable {S₀ S S' S₁ : Structure}

/-! ## Solutions that stay -/

/-- The heads are predicates, and the solution depends on how the open symbols are read. -/
structure Task.Stable (K : Task) (S₀ : Structure) : Prop where
  predicates : ∀ p ∈ K.heads, S₀.isFunction p = false
  solve_congr : ∀ {S S'}, S₀.Extends S → S.Extends S' →
    (∀ p ∈ openSymbols K.rules, S'.valuation.SameAt S.valuation p) → K.solve S' = K.solve S

theorem forall_mem_headSymbols {rules : List Rule} {P : SymbolId → Prop}
    (h : ∀ r ∈ rules, P r.head) :
    ∀ p ∈ headSymbols rules, P p := by
  intro p hp
  obtain ⟨r, hr, rfl⟩ := mem_headSymbols.mp hp
  exact h r hr

theorem Definition.stable_task {D : Definition} (h : ∀ r ∈ D.rules, S₀.isFunction r.head = false) :
    D.task.Stable S₀ where
  predicates := forall_mem_headSymbols h
  solve_congr _ hS hsame := solveDefinition_congr hS.vocabulary hS.domain hsame

theorem Fixpoint.stable_task {F : Fixpoint} (h : ∀ r ∈ F.allRules, S₀.isFunction r.head = false)
    (hheads : ∀ G, groundFixpoint S₀ F = .ok G → F.defined ⊆ G.defined) : F.task.Stable S₀ where
  predicates := forall_mem_headSymbols h
  solve_congr hS₀ hS hsame := by
    refine solveFixpoint_congr hS.vocabulary hS.domain (fun G hG => hheads G ?_) hsame
    rwa [groundFixpoint_congr hS₀.domain] at hG

namespace Task

variable {K : Task} (hK : K.Stable S₀) (hS₀ : S₀.Extends S)
include hK hS₀

theorem Stable.predicates_extended : ∀ p ∈ K.heads, S.isFunction p = false := by
  rw [hS₀.isFunction]
  exact hK.predicates

/-- A solution is still one after more was recorded. -/
theorem Solves.mono {x : Solution} (h : K.Solves S x) (hS : S.Extends S') : K.Solves S' x where
  calculable := isCalculable_mono hS h.calculable
  solved := by
    obtain ⟨hopen, -⟩ := isCalculable_eq_ok_true_iff.mp h.calculable
    rw [hK.solve_congr hS₀ hS fun p hp => hS.sameAt (hopen p hp), h.solved]

theorem Stable.calculated (h : K.calculate S = (S', .ok .calculated)) :
    S.Extends S' ∧ ∃ atoms, K.Solves S' (.inl atoms) ∧ S'.Reflects atoms K.heads := by
  cases calculate_outcome h with
  | calculated hsolves hrecord =>
      have hS := extends_recordAtoms (hK.predicates_extended hS₀) hrecord
      exact ⟨hS, _, hsolves.mono hK hS₀ hS, (recorded_recordAtoms hrecord).1⟩

/-- Below a structure that records whatever solution a task has there, the task contradicts
nothing. -/
theorem Stable.calculate_below (hS : S.Extends S₁)
    (hsettled : ∀ x, K.Solves S₁ x → ∃ atoms, x = .inl atoms ∧ S₁.Reflects atoms K.heads)
    {step : CalculationStep}
    (h : K.calculate S = (S', .ok step)) :
    step = .skipped ∨ step = .calculated ∧ S'.Extends S₁ := by
  have hrecord : ∀ x, K.Solves S x → ∃ atoms S₂, x = .inl atoms ∧
      recordAtoms S atoms K.heads = (S₂, .ok none) ∧ S₂.Extends S₁ := by
    intro x hx
    obtain ⟨atoms, rfl, hreflects⟩ := hsettled x (hx.mono hK hS₀ hS)
    have hdomains := (isCalculable_eq_ok_true_iff.mp hx.calculable).2
    obtain ⟨S₂, hrecord, hS₂⟩ :=
      exists_recordAtoms hS (hK.predicates_extended hS₀) hdomains hreflects
    exact ⟨atoms, S₂, rfl, hrecord, hS₂⟩
  cases calculate_outcome h with
  | skipped => exact .inl rfl
  | calculated hsolves hrecorded =>
      obtain ⟨_, S₂, hsolution, hrecord, hS₂⟩ := hrecord _ hsolves
      cases hsolution
      cases hrecorded.symm.trans hrecord
      exact .inr ⟨rfl, hS₂⟩
  | undefined hsolves =>
      obtain ⟨_, _, hsolution, -⟩ := hrecord _ hsolves
      cases hsolution
  | contradicted hsolves hrecorded =>
      obtain ⟨_, S₂, hsolution, hrecord, -⟩ := hrecord _ hsolves
      cases hsolution
      cases hrecorded.symm.trans hrecord

end Task

/-! ## Where a run ends -/

namespace Theory

variable {T T' : Theory} {c c' c₁ : Calculated} {order : Nat ⊕ Nat → Nat ⊕ Nat}

/-- Whatever has been calculated has a solution, and it is recorded. -/
def Recorded (T : Theory) (S : Structure) (c : Calculated) : Prop :=
  ∀ i K, T.task? i = some K → c.Has i → ∃ atoms, K.Solves S (.inl atoms) ∧ S.Reflects atoms K.heads

/-- Whatever has a solution has been calculated, and the solution is recorded. -/
structure Settled (T : Theory) (S : Structure) (c : Calculated) : Prop where
  has : ∀ {i K x}, T.task? i = some K → K.Solves S x → c.Has i
  reflects : ∀ {i K x}, T.task? i = some K → K.Solves S x →
    ∃ atoms, x = .inl atoms ∧ S.Reflects atoms K.heads

variable (hT : ∀ {i K}, T.task? i = some K → K.Stable S₀)
include hT

theorem Recorded.add (hS₀ : S₀.Extends S) (h : T.Recorded S c) {i : Nat ⊕ Nat} {K : Task}
    (hK : T.task? i = some K)
    (hcalculate : K.calculate S = (S', .ok .calculated)) : T.Recorded S' (c.add i) := by
  obtain ⟨hS', hsolves⟩ := (hT hK).calculated hS₀ hcalculate
  intro j L hL hj
  rcases Calculated.has_add.mp hj with hj | rfl
  · obtain ⟨atoms, hsolves, hreflects⟩ := h j L hL hj
    exact ⟨atoms, hsolves.mono (hT hL) hS₀ hS', hreflects.mono hS'.toRefines⟩
  · cases hK.symm.trans hL
    exact hsolves

theorem Calculates.recorded (h : T.Calculates (S₀, .none) (S, c)) :
    S₀.Extends S ∧ T.Recorded S c := by
  refine h.invariant (I := fun S c => S₀.Extends S ∧ T.Recorded S c)
    ⟨.refl S₀, fun i _ _ hi => absurd hi (Calculated.not_has_none i)⟩ ?_
  rintro S c i K S' ⟨hS, hrecorded⟩ hK - hcalculate
  exact ⟨hS.trans ((hT hK).calculated hS hcalculate).1, hrecorded.add hT hS hK hcalculate⟩

theorem Calculates.settled (h : T.Calculates (S₀, .none) (S, c))
    (hidle : T.Idle S c) : T.Settled S c := by
  have hhas : ∀ {i K x}, T.task? i = some K → K.Solves S x → c.Has i := by
    intro i K x hK hx
    by_contra hi
    cases Task.calculate_outcome (hidle i K hK hi) with
    | skipped _ unsolved => exact unsolved x hx
  refine ⟨hhas, fun hK hx => ?_⟩
  obtain ⟨atoms, hsolves, hreflects⟩ := (h.recorded hT).2 _ _ hK (hhas hK hx)
  exact ⟨atoms, hx.unique hsolves, hreflects⟩

/-- A run in another order stays below where one has settled. -/
theorem Settled.bounds (hS₁ : S₀.Extends S₁) (hsettled : T.Settled S₁ c₁)
    (horder : ∀ i, T'.task? i = T.task? (order i))
    (h : T'.Calculates (S₀, .none) (S, c)) :
    S₀.Extends S ∧ S.Extends S₁ ∧ ∀ i, c.Has i → c₁.Has (order i) := by
  refine h.invariant (I := fun S c => S₀.Extends S ∧ S.Extends S₁ ∧ ∀ i, c.Has i → c₁.Has (order i))
    ⟨.refl S₀, hS₁, fun i hi => absurd hi (Calculated.not_has_none i)⟩ ?_
  rintro S c i K S' ⟨hS, hbelow, hhas⟩ hK - hcalculate
  rw [horder] at hK
  obtain ⟨hS', atoms, hsolves, -⟩ := (hT hK).calculated hS hcalculate
  obtain hskipped | ⟨-, hbelow'⟩ :=
    (hT hK).calculate_below hS hbelow (fun _ => hsettled.reflects hK) hcalculate
  · cases hskipped
  · refine ⟨hS.trans hS', hbelow', fun j hj => ?_⟩
    rcases Calculated.has_add.mp hj with hj | rfl
    · exact hhas j hj
    · exact hsettled.has hK (hsolves.mono (hT hK) (hS.trans hS') hbelow')

theorem Settled.not_failsAt (hS₁ : S₀.Extends S₁) (hsettled : T.Settled S₁ c₁)
    (horder : ∀ i, T'.task? i = T.task? (order i)) {a : Atom} : ¬T'.FailsAt (S₀, .none) S' a := by
  rintro ⟨⟨S, c⟩, hrun, i, K, hK, -, hcalculate⟩
  obtain ⟨hS, hbelow, -⟩ := hsettled.bounds hT hS₁ horder hrun
  rw [horder] at hK
  obtain hstep | ⟨hstep, -⟩ :=
    (hT hK).calculate_below hS hbelow (fun _ => hsettled.reflects hK) hcalculate
  · cases hstep
  · cases hstep

end Theory

/-! ## Permuted theories -/

section Permuted

variable {T T' : Theory} {c : Calculated} {outcome : Calculation} {σ τ : Equiv.Perm Nat}

theorem task?_permuted (hdefinitions : ∀ i, T'.definitions[i]? = T.definitions[σ i]?)
    (hfixpoints : ∀ i, T'.fixpoints[i]? = T.fixpoints[τ i]?) (i : Nat ⊕ Nat) :
    T'.task? i = T.task? (Sum.map σ τ i) := by
  cases i with
  | inl i => rw [Sum.map_inl, Theory.task?, Theory.task?, hdefinitions]
  | inr i => rw [Sum.map_inr, Theory.task?, Theory.task?, hfixpoints]

theorem map_perm {is js : List Nat} (his : is.Nodup) (hjs : js.Nodup) (h : ∀ i ∈ is, σ i ∈ js)
    (h' : ∀ j ∈ js, σ.symm j ∈ is) : (is.map σ).Perm js := by
  refine (List.perm_ext_iff_of_nodup (his.map σ.injective) hjs).mpr fun j => ?_
  constructor
  · rintro hj
    obtain ⟨i, hi, rfl⟩ := List.mem_map.mp hj
    exact h i hi
  · intro hj
    exact List.mem_map.mpr ⟨σ.symm j, h' j hj, σ.apply_symm_apply j⟩

/-- If a calculation is consistent, so is that of the theory with its definitions in another order,
unless it meets with a failure. It records the same and calculates the same definitions. -/
theorem calculate_permuted (hdefinitions : ∀ i, T'.definitions[i]? = T.definitions[σ i]?)
    (hfixpoints : ∀ i, T'.fixpoints[i]? = T.fixpoints[τ i]?)
    (hpredicates : ∀ r ∈ T.rules, S.isFunction r.head = false)
    (hheads : ∀ F ∈ T.fixpoints, ∀ G, groundFixpoint S F = .ok G → F.defined ⊆ G.defined)
    (h : calculate T S = (S₁, .ok (.consistent c))) (h' : calculate T' S = (S', .ok outcome)) :
    ∃ c', outcome = .consistent c' ∧ S' = S₁ ∧ (c'.definitions.map σ).Perm c.definitions ∧
      (c'.fixpoints.map τ).Perm c.fixpoints := by
  have hT : ∀ {i K}, T.task? i = some K → K.Stable S := by
    intro i K hK
    cases i with
    | inl i =>
        obtain ⟨D, hD, rfl⟩ := Option.map_eq_some_iff.mp hK
        refine Definition.stable_task fun r hr => hpredicates r (List.mem_append_left _ ?_)
        exact List.mem_flatMap.mpr ⟨D, List.mem_of_getElem? hD, hr⟩
    | inr i =>
        obtain ⟨F, hF, rfl⟩ := Option.map_eq_some_iff.mp hK
        have hmem := List.mem_of_getElem? hF
        refine Fixpoint.stable_task (fun r hr => hpredicates r (List.mem_append_right _ ?_))
          (hheads F hmem)
        exact List.mem_flatMap.mpr ⟨F, hmem, hr⟩
  have horder := task?_permuted hdefinitions hfixpoints
  have horder' : ∀ i, T.task? i = T'.task? (Sum.map σ.symm τ.symm i) := by
    intro i
    rw [horder]
    cases i <;> simp
  have hT' : ∀ {i K}, T'.task? i = some K → K.Stable S := fun hK => hT (horder _ ▸ hK)
  cases Theory.calculate_ends h with
  | idle hrun hidle =>
      have hS₁ := (hrun.recorded hT).1
      have hsettled := hrun.settled hT hidle
      cases Theory.calculate_ends h' with
      | fails hfails => exact absurd hfails (hsettled.not_failsAt hT hS₁ horder)
      | @idle c' hrun' hidle' =>
          have hsettled' := hrun'.settled hT' hidle'
          obtain ⟨hS', hbelow, hhas⟩ := hsettled.bounds hT hS₁ horder hrun'
          obtain ⟨-, habove, hhas'⟩ := hsettled'.bounds hT' hS' horder' hrun
          have hwithin := hrun.within T.within_none
          have hwithin' := hrun'.within T'.within_none
          refine ⟨c', rfl, hbelow.toRefines.antisymm habove.toRefines, ?_, ?_⟩
          · exact map_perm hwithin'.definitions hwithin.definitions (fun i => hhas (.inl i))
              fun i => hhas' (.inl i)
          · exact map_perm hwithin'.fixpoints hwithin.fixpoints (fun i => hhas (.inr i)) fun i =>
              hhas' (.inr i)

end Permuted

/-- Three predicates without arguments, about which nothing is recorded. -/
def circuit : Structure :=
  ⟨⟨[], [⟨"power", [], none⟩, ⟨"signal", [], none⟩, ⟨"lamp", [], none⟩]⟩, [], ∅⟩

def powered : Definition := ⟨[⟨[], 0, [], .conj []⟩]⟩

def signalled : Fixpoint := .level true [⟨[], 1, [], .pred 0 []⟩] []

def lighted : Definition := ⟨[⟨[], 2, [], .pred 1 []⟩]⟩

/-- The lamp is calculated last, whether its definition comes first or not. -/
theorem calculate_circuit : ∃ S₁ c c',
    calculate ⟨[lighted, powered], [signalled], []⟩ circuit = (S₁, .ok (.consistent c)) ∧
    calculate ⟨[powered, lighted], [signalled], []⟩ circuit = (S₁, .ok (.consistent c')) ∧
    (c'.definitions.map (Equiv.swap 0 1)).Perm c.definitions := by
  let on : Structure :=
    { circuit with
      facts := .ofList ([(⟨0, []⟩, true), (⟨1, []⟩, true), (⟨2, []⟩, true)] : List (Atom × Bool)) }
  have hlate : calculate ⟨[lighted, powered], [signalled], []⟩ circuit =
      (on, .ok (.consistent ⟨[1, 0], [0]⟩)) := by
    decide +kernel
  have hearly : calculate ⟨[powered, lighted], [signalled], []⟩ circuit =
      (on, .ok (.consistent ⟨[0, 1], [0]⟩)) := by
    decide +kernel
  have hswap : ∀ i, [powered, lighted][i]? = [lighted, powered][Equiv.swap 0 1 i]?
    | 0 | 1 => rfl
    | i + 2 => by rw [Equiv.swap_apply_of_ne_of_ne (by omega) (by omega)]; rfl
  have hsame : ∀ i, [signalled][i]? = [signalled][Equiv.refl Nat i]? := fun _ => rfl
  have hground : groundFixpoint circuit signalled = .ok signalled := rfl
  obtain ⟨c', hconsistent, -, hperm, -⟩ := calculate_permuted hswap hsame (by decide)
    (List.forall_mem_singleton.mpr fun G hG => by
      cases hground.symm.trans hG; exact List.Subset.refl _) hlate hearly
  cases hconsistent
  exact ⟨on, _, _, hlate, hearly, hperm⟩

/-- Two predicates without arguments, and a sort without elements. -/
def corridor : Structure :=
  ⟨⟨[⟨"switch", []⟩], [⟨"left", [], none⟩, ⟨"right", [], none⟩]⟩, [.empty], ∅⟩

/-- The left lamp comes on with any switch, and the right one if the left one is not on. -/
def switched : Fixpoint :=
  .level true [⟨[⟨0, "x", 0⟩], 0, [], .conj []⟩, ⟨[], 1, [], .atom false 0 []⟩] []

/-- The left lamp stays on. -/
def staying : Fixpoint := .level true [⟨[], 0, [], .pred 0 []⟩] []

/-- Without a switch the first definition has no ground rule for the left lamp and reads it as
nothing defines it: the right lamp is on only if it was known before that the left one is off. -/
theorem calculate_corridor : ∃ dark bright : Structure, dark ≠ bright ∧
    calculate ⟨[], [switched, staying], []⟩ corridor = (dark, .ok (.consistent ⟨[], [0, 1]⟩)) ∧
    calculate ⟨[], [staying, switched], []⟩ corridor =
    (bright, .ok (.consistent ⟨[], [0, 1]⟩)) := by
  let dark : Structure :=
    { corridor with facts := .ofList ([(⟨0, []⟩, false), (⟨1, []⟩, false)] : List (Atom × Bool)) }
  let bright : Structure :=
    { corridor with facts := .ofList ([(⟨0, []⟩, false), (⟨1, []⟩, true)] : List (Atom × Bool)) }
  exact ⟨dark, bright, by decide +kernel, by decide +kernel, by decide +kernel⟩

end ModelExpansion
