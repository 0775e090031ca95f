import Mathlib.Logic.Relation
import ModelExpansion.Proofs.Calculation.Recording

/-! # Runs of a calculation
A run calculates one definition after another. It ends where none of those left can be calculated,
or at one that has no consistent value. -/

namespace ModelExpansion

open Relation (ReflTransGen)

/-! ## One definition -/

/-- A definition of either kind: its rules and how their ground version is solved. -/
structure Task where
  rules : List Rule
  solve : Structure → Except Failure (Option Solution)

def Definition.task (D : Definition) : Task := ⟨D.rules, solveDefinition D⟩

def Fixpoint.task (F : Fixpoint) : Task := ⟨F.allRules, solveFixpoint F⟩

namespace Task

def heads (K : Task) : List SymbolId := headSymbols K.rules

def calculate (K : Task) (S : Structure) : Structure × Except Failure CalculationStep :=
  calculateWith S K.rules K.solve

/-- The task can be calculated and has a given solution. -/
structure Solves (K : Task) (S : Structure) (solution : Solution) : Prop where
  calculable : isCalculable S K.rules = .ok true
  solved : K.solve S = .ok (some solution)

variable {K : Task} {S S' : Structure}

theorem Solves.unique {x y : Solution} (hx : K.Solves S x) (hy : K.Solves S y) : x = y :=
  Option.some.inj (Except.ok.inj (hx.solved.symm.trans hy.solved))

/-- What may become of a task. -/
inductive Outcome (K : Task) (S S' : Structure) : CalculationStep → Prop where
  | skipped (unchanged : S' = S) (unsolved : ∀ x, ¬K.Solves S x) : Outcome K S S' .skipped
  | calculated {atoms : AtomSet} (solves : K.Solves S (.inl atoms))
      (recorded : recordAtoms S atoms K.heads = (S', .ok none)) : Outcome K S S' .calculated
  | undefined {a : Atom} (solves : K.Solves S (.inr a)) : Outcome K S S' (.inconsistent a)
  | contradicted {atoms : AtomSet} {a : Atom} (solves : K.Solves S (.inl atoms))
      (recorded : recordAtoms S atoms K.heads = (S', .ok (some a))) :
      Outcome K S S' (.inconsistent a)

theorem calculate_outcome {step : CalculationStep} (h : K.calculate S = (S', .ok step)) :
    K.Outcome S S' step := by
  rw [calculate, calculateWith] at h
  split at h
  · cases h
  · rename_i hunready
    cases h
    exact .skipped rfl fun x hx => by cases hunready.symm.trans hx.calculable
  · rename_i hready
    split at h
    · cases h
    · rename_i hnone
      cases h
      exact .skipped rfl fun x hx => by cases hnone.symm.trans hx.solved
    · rename_i a ha
      cases h
      exact .undefined ⟨hready, ha⟩
    · rename_i atoms hatoms
      split at h
      · rename_i hrecord
        cases h
        exact .calculated ⟨hready, hatoms⟩ hrecord
      · rename_i hrecord
        cases h
        exact .contradicted ⟨hready, hatoms⟩ hrecord
      · cases h

theorem eq_of_skipped (h : K.calculate S = (S', .ok .skipped)) : S' = S := by
  cases calculate_outcome h
  assumption

/-- A definition that is calculated records its atoms beside what was recorded. -/
theorem refines_calculate (h : K.calculate S = (S', .ok .calculated)) : S.Refines S' := by
  cases calculate_outcome h with
  | calculated _ recorded => exact refines_recordAtoms recorded

end Task

/-! ## Steps -/

namespace Calculated

/-- Whether a definition (left) or fixpoint definition (right) has been calculated. -/
def Has (c : Calculated) : Nat ⊕ Nat → Prop
  | .inl i => i ∈ c.definitions
  | .inr i => i ∈ c.fixpoints

def add (c : Calculated) : Nat ⊕ Nat → Calculated
  | .inl i => { c with definitions := c.definitions ++ [i] }
  | .inr i => { c with fixpoints := c.fixpoints ++ [i] }

variable {c : Calculated} {i j : Nat ⊕ Nat}

theorem not_has_none (i : Nat ⊕ Nat) : ¬none.Has i := by
  cases i <;> exact List.not_mem_nil

theorem has_add : (c.add i).Has j ↔ c.Has j ∨ j = i := by
  cases i <;> cases j <;> simp [add, Has]

theorem size_add : (c.add i).size = c.size + 1 := by
  cases i <;> simp [add, size] <;> omega

end Calculated

def Theory.task? (T : Theory) : Nat ⊕ Nat → Option Task
  | .inl i => T.definitions[i]?.map Definition.task
  | .inr i => T.fixpoints[i]?.map Fixpoint.task

/-- One more definition is calculated. -/
structure Theory.CalculatesAt (T : Theory) (i : Nat ⊕ Nat)
    (s s' : Structure × Calculated) : Prop where
  exists_task : ∃ K, T.task? i = some K ∧ K.calculate s.1 = (s'.1, .ok .calculated)
  fresh : ¬s.2.Has i
  added : s'.2 = s.2.add i

namespace Theory

variable {T : Theory} {S S' : Structure} {c c' : Calculated} {s s' : Structure × Calculated}

/-- Any number of definitions are calculated one after the other. -/
def Calculates (T : Theory) : Structure × Calculated → Structure × Calculated → Prop :=
  ReflTransGen fun s s' => ∃ i, T.CalculatesAt i s s'

/-- None of the definitions left can be calculated. -/
def Idle (T : Theory) (S : Structure) (c : Calculated) : Prop :=
  ∀ i K, T.task? i = some K → ¬c.Has i → K.calculate S = (S, .ok .skipped)

/-- Some definition is found inconsistent after others have been calculated. -/
def FailsAt (T : Theory) (s : Structure × Calculated) (S' : Structure) (a : Atom) : Prop :=
  ∃ s', T.Calculates s s' ∧ ∃ i K, T.task? i = some K ∧ ¬s'.2.Has i ∧
    K.calculate s'.1 = (S', .ok (.inconsistent a))

theorem FailsAt.of_calculates {a : Atom} (h : T.Calculates s s') (hfails : T.FailsAt s' S' a) :
    T.FailsAt s S' a := by
  obtain ⟨s'', hs'', hlast⟩ := hfails
  exact ⟨s'', h.trans hs'', hlast⟩

theorem Calculates.invariant {I : Structure → Calculated → Prop} (h : T.Calculates (S, c) (S', c'))
    (hstart : I S c)
    (hstep : ∀ {S c i K S'}, I S c → T.task? i = some K → ¬c.Has i →
      K.calculate S = (S', .ok .calculated) →
      I S' (c.add i)) : I S' c' := by
  suffices hall : ∀ s, T.Calculates (S, c) s → I s.1 s.2 from hall _ h
  intro s hs
  induction hs with
  | refl => exact hstart
  | tail _ hlast ih =>
      obtain ⟨i, ⟨K, hK, hcalculate⟩, hfresh, hadded⟩ := hlast
      rw [hadded]
      exact hstep ih hK hfresh hcalculate

theorem Calculates.size_le (h : T.Calculates (S, c) (S', c')) : c.size ≤ c'.size :=
  h.invariant (I := fun _ c' => c.size ≤ c'.size) le_rfl fun hle _ _ _ => by
    rw [Calculated.size_add]
    exact Nat.le_succ_of_le hle

/-- Only definitions of the theory are calculated, each of them once. -/
structure Within (T : Theory) (c : Calculated) : Prop where
  definitions : c.definitions.Nodup
  fixpoints : c.fixpoints.Nodup
  exists_task : ∀ i, c.Has i → ∃ K, T.task? i = some K

theorem within_none (T : Theory) : T.Within .none where
  definitions := List.nodup_nil
  fixpoints := List.nodup_nil
  exists_task i hi := absurd hi (Calculated.not_has_none i)

theorem Within.add (h : T.Within c) {i : Nat ⊕ Nat} {K : Task} (hK : T.task? i = some K)
    (hi : ¬c.Has i) :
    T.Within (c.add i) where
  definitions := by
    cases i with
    | inl i => exact List.nodup_append_comm.mp (List.nodup_cons.mpr ⟨hi, h.definitions⟩)
    | inr i => exact h.definitions
  fixpoints := by
    cases i with
    | inl i => exact h.fixpoints
    | inr i => exact List.nodup_append_comm.mp (List.nodup_cons.mpr ⟨hi, h.fixpoints⟩)
  exists_task j hj := by
    rcases Calculated.has_add.mp hj with hj | rfl
    · exact h.exists_task j hj
    · exact ⟨K, hK⟩

theorem Calculates.within (h : T.Calculates (S, c) (S', c')) (hc : T.Within c) : T.Within c' :=
  h.invariant (I := fun _ c => T.Within c) hc fun hwithin hK hi _ => hwithin.add hK hi

theorem Within.size_le (h : T.Within c) : c.size ≤ T.definitions.length + T.fixpoints.length := by
  have hlength : ∀ {is : List Nat} {n : Nat}, is.Nodup → (∀ i ∈ is, i < n) → is.length ≤ n := by
    intro is n hnodup hlt
    have hsub : is.Subperm (List.range n) :=
      hnodup.subperm fun i hi => List.mem_range.mpr (hlt i hi)
    exact hsub.length_le.trans_eq List.length_range
  refine Nat.add_le_add (hlength h.definitions fun i hi => ?_) (hlength h.fixpoints fun i hi => ?_)
  · obtain ⟨K, hK⟩ := h.exists_task (.inl i) hi
    obtain ⟨D, hD, -⟩ := Option.map_eq_some_iff.mp hK
    exact (List.getElem?_eq_some_iff.mp hD).1
  · obtain ⟨K, hK⟩ := h.exists_task (.inr i) hi
    obtain ⟨F, hF, -⟩ := Option.map_eq_some_iff.mp hK
    exact (List.getElem?_eq_some_iff.mp hF).1

/-- How a run may end: nothing that is left can be calculated, or something has no consistent
value. -/
inductive Ends (T : Theory) (s : Structure × Calculated) (S' : Structure) : Calculation → Prop where
  | idle {c : Calculated} (run : T.Calculates s (S', c)) (idle : T.Idle S' c) :
      Ends T s S' (.consistent c)
  | fails {a : Atom} (fails : T.FailsAt s S' a) : Ends T s S' (.inconsistent a)

theorem Ends.of_calculates {outcome : Calculation} (h : T.Calculates s s')
    (hends : T.Ends s' S' outcome) :
    T.Ends s S' outcome := by
  cases hends with
  | idle run idle => exact .idle (h.trans run) idle
  | fails hfails => exact .fails (hfails.of_calculates h)

end Theory

/-! ## Passes -/

/-- Numbered definitions of one kind, which are the tasks of a theory on one side. `put` makes a
state from the numbers of those that are done. -/
structure Theory.Numbering {α : Type} (T : Theory) (task : α → Task) (items : List (α × Nat))
    (side : Nat → Nat ⊕ Nat) (put : List Nat → Calculated) : Prop where
  task? : ∀ x ∈ items, T.task? (side x.2) = some (task x.1)
  has : ∀ {done i}, (put done).Has (side i) ↔ i ∈ done
  add : ∀ {done i}, (put done).add (side i) = put (done ++ [i])

namespace Theory

variable {T : Theory} {S S' : Structure} {c c' : Calculated} {outcome : Calculation}

theorem numbering_definitions (T : Theory) (fixpoints : List Nat) :
    T.Numbering Definition.task T.definitions.zipIdx .inl fun definitions =>
      ⟨definitions, fixpoints⟩ where
  task? _ hx := congrArg (Option.map Definition.task) (List.mem_zipIdx_iff_getElem?.mp hx)
  has := Iff.rfl
  add := rfl

theorem numbering_fixpoints (T : Theory) (definitions : List Nat) :
    T.Numbering Fixpoint.task T.fixpoints.zipIdx .inr fun fixpoints =>
      ⟨definitions, fixpoints⟩ where
  task? _ hx := congrArg (Option.map Fixpoint.task) (List.mem_zipIdx_iff_getElem?.mp hx)
  has := Iff.rfl
  add := rfl

namespace Numbering

variable {α : Type} {task : α → Task} {side : Nat → Nat ⊕ Nat} {put : List Nat → Calculated}
  {items : List (α × Nat)} {done done' : List Nat}

theorem calculates {x : α × Nat} (h : T.Numbering task items side put) (hx : x ∈ items)
    (hfresh : x.2 ∉ done) (hcalculate : (task x.1).calculate S = (S', .ok .calculated)) :
    T.Calculates (S, put done) (S', put (done ++ [x.2])) :=
  ReflTransGen.single ⟨side x.2, ⟨task x.1, h.task? x hx, hcalculate⟩,
    fun hdone => hfresh (h.has.mp hdone), h.add.symm⟩

/-- A pass goes on with a run. If it calculates nothing, everything left is skipped. -/
theorem pass_inl (h : T.Numbering task items side put)
    (hpass :
      calculatePass (fun S D => (task D).calculate S) S done items = (S', .ok (.inl done'))) :
    T.Calculates (S, put done) (S', put done') ∧ ((put done').size = (put done).size →
      S' = S ∧ done' = done ∧ ∀ x ∈ items, x.2 ∉ done →
      (task x.1).calculate S = (S, .ok .skipped)) := by
  induction items generalizing S done with
  | nil =>
      cases hpass
      exact ⟨.refl, fun _ => ⟨rfl, rfl, fun x hx => absurd hx List.not_mem_nil⟩⟩
  | cons x items ih =>
      have hrest : T.Numbering task items side put :=
        ⟨(List.forall_mem_cons.mp h.task?).2, h.has, h.add⟩
      rw [calculatePass] at hpass
      split at hpass
      · rename_i hdone
        obtain ⟨hrun, hidle⟩ := ih hrest hpass
        refine ⟨hrun, fun hsize => ?_⟩
        obtain ⟨hS, hdone', hitems⟩ := hidle hsize
        exact ⟨hS, hdone', List.forall_mem_cons.mpr
          ⟨fun hfresh => absurd (List.contains_iff_mem.mp hdone) hfresh, hitems⟩⟩
      · rename_i hfresh
        rw [List.contains_iff_mem] at hfresh
        split at hpass
        · cases hpass
        · rename_i S₂ hskipped
          cases Task.eq_of_skipped hskipped
          obtain ⟨hrun, hidle⟩ := ih hrest hpass
          refine ⟨hrun, fun hsize => ?_⟩
          obtain ⟨hS, hdone', hitems⟩ := hidle hsize
          exact ⟨hS, hdone', List.forall_mem_cons.mpr ⟨fun _ => hskipped, hitems⟩⟩
        · rename_i S₂ hcalculated
          obtain ⟨hrun, -⟩ := ih hrest hpass
          refine ⟨(h.calculates List.mem_cons_self hfresh hcalculated).trans hrun, fun hsize => ?_⟩
          have hle := hrun.size_le
          rw [← h.add, Calculated.size_add] at hle
          omega
        · cases hpass

theorem pass_inr {a : Atom} (h : T.Numbering task items side put)
    (hpass : calculatePass (fun S D => (task D).calculate S) S done items = (S', .ok (.inr a))) :
    T.FailsAt (S, put done) S' a := by
  induction items generalizing S done with
  | nil => cases hpass
  | cons x items ih =>
      have hrest : T.Numbering task items side put :=
        ⟨(List.forall_mem_cons.mp h.task?).2, h.has, h.add⟩
      rw [calculatePass] at hpass
      split at hpass
      · exact ih hrest hpass
      · rename_i hfresh
        rw [List.contains_iff_mem] at hfresh
        split at hpass
        · cases hpass
        · rename_i S₂ hskipped
          cases Task.eq_of_skipped hskipped
          exact ih hrest hpass
        · rename_i S₂ hcalculated
          exact (ih hrest hpass).of_calculates (h.calculates List.mem_cons_self hfresh hcalculated)
        · rename_i S₂ b hinconsistent
          cases hpass
          exact ⟨_, .refl, side x.2, task x.1, h.task? x List.mem_cons_self,
            fun hdone => hfresh (h.has.mp hdone),
            hinconsistent⟩

end Numbering

theorem calculateDefinition_eq : calculateDefinition = fun S D => D.task.calculate S := rfl

theorem calculateFixpoint_eq : calculateFixpoint = fun S F => F.task.calculate S := rfl

theorem calculateOnce_inconsistent {a : Atom}
    (h : calculateOnce T S c = (S', .ok (.inconsistent a))) :
    T.FailsAt (S, c) S' a := by
  rw [calculateOnce, calculateDefinition_eq, calculateFixpoint_eq] at h
  split at h
  · cases h
  · rename_i hpass
    cases h
    exact (T.numbering_definitions c.fixpoints).pass_inr hpass
  · rename_i hfirst
    split at h
    · cases h
    · rename_i hpass
      cases h
      obtain ⟨hrun, -⟩ := (T.numbering_definitions c.fixpoints).pass_inl hfirst
      exact ((T.numbering_fixpoints _).pass_inr hpass).of_calculates hrun
    · cases h

/-- A pass over both kinds goes on with the run. If it calculates nothing, nothing left can be
calculated. -/
theorem calculateOnce_consistent (h : calculateOnce T S c = (S', .ok (.consistent c'))) :
    T.Calculates (S, c) (S', c') ∧ (c'.size = c.size → S' = S ∧ c' = c ∧ T.Idle S c) := by
  rw [calculateOnce, calculateDefinition_eq, calculateFixpoint_eq] at h
  split at h
  · cases h
  · cases h
  · rename_i S₁ definitions hfirst
    split at h
    · cases h
    · cases h
    · rename_i S₂ fixpoints hsecond
      cases h
      obtain ⟨hrun, hidle⟩ := (T.numbering_definitions c.fixpoints).pass_inl hfirst
      obtain ⟨hrun', hidle'⟩ := (T.numbering_fixpoints definitions).pass_inl hsecond
      refine ⟨hrun.trans hrun', fun hsize => ?_⟩
      have hle : c.size ≤ (⟨definitions, c.fixpoints⟩ : Calculated).size := hrun.size_le
      have hle' : (⟨definitions, c.fixpoints⟩ : Calculated).size ≤
          (⟨definitions, fixpoints⟩ : Calculated).size :=
        hrun'.size_le
      obtain ⟨rfl, rfl, hskipped⟩ := hidle (by change _ = c.size; omega)
      obtain ⟨rfl, rfl, hskipped'⟩ := hidle' (by change _ = c.size; omega)
      refine ⟨rfl, rfl, fun i K hK hi => ?_⟩
      cases i with
      | inl i =>
          obtain ⟨D, hD, rfl⟩ := Option.map_eq_some_iff.mp hK
          exact hskipped (D, i) (List.mem_zipIdx_iff_getElem?.mpr hD) hi
      | inr i =>
          obtain ⟨F, hF, rfl⟩ := Option.map_eq_some_iff.mp hK
          exact hskipped' (F, i) (List.mem_zipIdx_iff_getElem?.mpr hF) hi

/-- Every pass but the last calculates something, so that there is always another one left. -/
theorem calculateUpTo_ends {n : Nat} (hc : T.Within c)
    (hn : T.definitions.length + T.fixpoints.length < n + c.size)
    (h : calculateUpTo T n S c = (S', .ok outcome)) : T.Ends (S, c) S' outcome := by
  induction n generalizing S c with
  | zero =>
      have hsize := hc.size_le
      omega
  | succ n ih =>
      rw [calculateUpTo] at h
      split at h
      · rename_i S₁ c' honce
        obtain ⟨hrun, hidle⟩ := calculateOnce_consistent honce
        split at h
        · rename_i hsize
          cases h
          obtain ⟨rfl, rfl, hidle⟩ := hidle hsize
          exact .idle .refl hidle
        · rename_i hsize
          have hle := hrun.size_le
          exact (ih (hrun.within hc) (by omega) h).of_calculates hrun
      · rename_i hstopped
        cases outcome with
        | consistent c' => exact absurd h (hstopped S' c')
        | inconsistent a => exact .fails (calculateOnce_inconsistent h)

theorem calculate_ends (h : calculate T S = (S', .ok outcome)) : T.Ends (S, .none) S' outcome :=
  calculateUpTo_ends T.within_none (by omega) h

end Theory

end ModelExpansion
