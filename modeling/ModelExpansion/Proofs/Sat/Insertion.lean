import ModelExpansion.Sat.Enumeration
import ModelExpansion.Proofs.Sat.Learning

/-! # The clauses added so far
A solver that is not yet inconsistent has the models of the clauses that were added to it; an
inconsistent one was given clauses without a model. Adding a clause keeps this up. -/

namespace ModelExpansion.Sat

/-! ## Sorted clauses -/

theorem satisfies_ascending {α : Nat → Bool} {lits : List Lit} :
    Satisfies α (ascending lits) ↔ Satisfies α lits := by
  simp only [Satisfies, mem_ascending]

theorem satisfies_of_hasComplement {lits : List Lit} (h : hasComplement lits = true)
    (α : Nat → Bool) :
    Satisfies α lits := by
  induction lits with
  | nil => cases h
  | cons a lits ih =>
      cases lits with
      | nil => cases h
      | cons b rest =>
          rw [hasComplement, Bool.or_eq_true] at h
          rcases h with h | h
          · by_cases hb : b.Holds α
            · exact ⟨b, List.mem_cons_of_mem _ List.mem_cons_self, hb⟩
            · refine ⟨a, List.mem_cons_self, ?_⟩
              rw [eq_of_beq h]
              exact Lit.holds_negate.mpr hb
          · obtain ⟨l, hl, hα⟩ := ih h
            exact ⟨l, List.mem_cons_of_mem _ hl, hα⟩

theorem compare_eq_lt {a b : Lit} (h : compare a b = .lt) : a.code < b.code :=
  Nat.compare_eq_lt.mp h

/-- In a sorted clause complementary literals are neighbours, so all variables are distinct without
any. -/
theorem nodup_of_hasComplement {lits : List Lit} (h : Ascending lits)
    (hc : hasComplement lits = false) :
    (lits.map Lit.var).Nodup := by
  induction lits with
  | nil => exact List.nodup_nil
  | cons a lits ih =>
      obtain ⟨ha, hrest⟩ := List.pairwise_cons.mp h
      cases lits with
      | nil => simp
      | cons b rest =>
          rw [hasComplement, Bool.or_eq_false_iff] at hc
          rw [List.map_cons, List.nodup_cons]
          refine ⟨fun hmem => ?_, ih hrest hc.2⟩
          obtain ⟨x, hx, hxa⟩ := List.mem_map.mp hmem
          have hab := compare_eq_lt (ha b List.mem_cons_self)
          have hax := compare_eq_lt (ha x hx)
          have hbx : b.code ≤ x.code := by
            rcases List.mem_cons.mp hx with rfl | hx
            · exact Nat.le_refl _
            · exact Nat.le_of_lt (compare_eq_lt ((List.pairwise_cons.mp hrest).1 x hx))
          have hvar : x.code / 2 = a.code / 2 := hxa
          have hxb : x = b := Lit.code_inj.mp (by omega)
          rcases Lit.eq_or_eq_negate hxa.symm with rfl | he
          · exact Nat.lt_irrefl _ hax
          · rw [he, hxb, beq_self_eq_true] at hc
            cases hc.1

namespace Solver

variable {s : Solver}

/-! ## Level zero -/

theorem holds_of_root (ht : TrailInvariant s) (hlevel : s.level = 0) {α : Nat → Bool}
    (hα : s.Models α) {l : Lit} (hl : s.value l = .yes) : l.Holds α := by
  obtain ⟨i, hi⟩ := ht.exists_position hl
  exact hα.root hi (Nat.le_zero.mp (hlevel ▸ ht.levelOf_le hi))

theorem not_holds_of_root (ht : TrailInvariant s) (hlevel : s.level = 0) {α : Nat → Bool}
    (hα : s.Models α) {l : Lit} (hl : s.value l = .no) : ¬ l.Holds α :=
  Lit.holds_negate.mp (holds_of_root ht hlevel hα (s.value_eq_no.mp hl))

/-- A conflict at level zero leaves no model. -/
theorem Conflict.not_models {c : Nat} (h : Conflict s c) (ht : TrailInvariant s)
    (hlevel : s.level = 0) (α : Nat → Bool) : ¬ s.Models α := by
  intro hα
  obtain ⟨l, hl, hlα⟩ := hα.clause h.lt
  exact not_holds_of_root ht hlevel hα (h.value l hl) hlα

theorem Settled.cancelUntil_queueHead (hs : s.Settled s.queueHead)
    (ht : TrailInvariant s) (k : Nat) :
    (s.cancelUntil k).Settled (s.cancelUntil k).queueHead := by
  by_cases hk : k < s.level
  · exact (hs.mono (ht.start_le hk)).cancelUntil ht hk
  · rw [cancelUntil_of_le (Nat.le_of_not_lt hk)]
    exact hs

/-! ## Variables of a clause -/

theorem repeat_newVar_induction {P : Solver → Prop} (step : ∀ s, P s → P s.newVar)
    (h : P s) (n : Nat) :
    P (Nat.repeat newVar n s) := by
  induction n with
  | zero => exact h
  | succ n ih => exact step _ ih

theorem numVars_repeat_newVar (s : Solver) (n : Nat) :
    (Nat.repeat newVar n s).numVars = s.numVars + n := by
  induction n with
  | zero => rfl
  | succ n ih =>
      change (Nat.repeat newVar n s).newVar.numVars = _
      rw [numVars_newVar, ih, Nat.add_assoc]

theorem ensureVar_induction {P : Solver → Prop} (step : ∀ s, P s → P s.newVar) (h : P s) (v : Nat) :
    P (s.ensureVar v) := repeat_newVar_induction step h _

theorem numVars_ensureVar (s : Solver) (v : Nat) :
    (s.ensureVar v).numVars = max s.numVars (v + 1) := by
  rw [ensureVar, numVars_repeat_newVar]
  omega

def ensureAll (s : Solver) (lits : List Lit) : Solver := lits.foldl (fun s l => s.ensureVar l.var) s

theorem ensureAll_induction {P : Solver → Prop} (step : ∀ s, P s → P s.newVar) (h : P s)
    (lits : List Lit) : P (s.ensureAll lits) := by
  induction lits generalizing s with
  | nil => exact h
  | cons l lits ih => exact ih (ensureVar_induction step h l.var)

theorem le_numVars_ensureAll (s : Solver) (lits : List Lit) :
    s.numVars ≤ (s.ensureAll lits).numVars :=
  ensureAll_induction (P := fun t => s.numVars ≤ t.numVars)
    (fun t ht => by rw [numVars_newVar]; exact Nat.le_succ_of_le ht) (Nat.le_refl _) lits

theorem var_lt_ensureAll (s : Solver) {lits : List Lit} {l : Lit} (hl : l ∈ lits) :
    l.var < (s.ensureAll lits).numVars := by
  induction lits generalizing s with
  | nil => cases hl
  | cons x lits ih =>
      rcases List.mem_cons.mp hl with rfl | hl
      · refine Nat.lt_of_lt_of_le ?_ (le_numVars_ensureAll (s.ensureVar l.var) lits)
        rw [numVars_ensureVar]
        omega
      · exact ih (s.ensureVar x.var) hl

/-- Variables that exist are not added again. -/
theorem ensureAll_of_var_lt {lits : List Lit} (h : ∀ l ∈ lits, l.var < s.numVars) :
    s.ensureAll lits = s := by
  induction lits with
  | nil => rfl
  | cons l lits ih =>
      have hl : s.ensureVar l.var = s := by
        have hlt := h l List.mem_cons_self
        have hzero : l.var + 1 - s.numVars = 0 := by omega
        rw [ensureVar, hzero]
        rfl
      change (s.ensureVar l.var).ensureAll lits = s
      rw [hl]
      exact ih fun x hx => h x (List.mem_cons_of_mem _ hx)

/-! ## The clauses added so far -/

/-- The clauses of a list are what a solver has been given. -/
structure Represents (s : Solver) (added : List (List Lit)) : Prop where
  wellFormed : s.inconsistent = false → WellFormed s
  settled : s.inconsistent = false → s.Settled s.queueHead
  models : s.inconsistent = false → ∀ α, s.Models α ↔ ∀ c ∈ added, Satisfies α c
  unsatisfiable : s.inconsistent = true → ∀ α, ¬ ∀ c ∈ added, Satisfies α c

theorem represents_of_models {added : List (List Lit)} (hwf : WellFormed s)
    (hs : s.Settled s.queueHead)
    (hinc : s.inconsistent = false) (hmodels : ∀ α, s.Models α ↔ ∀ c ∈ added, Satisfies α c) :
    Represents s added :=
  ⟨fun _ => hwf, fun _ => hs, fun _ => hmodels, fun h => absurd h (by simp [hinc])⟩

theorem represents_of_unsatisfiable {added : List (List Lit)} (hinc : s.inconsistent = true)
    (h : ∀ α, ¬ ∀ c ∈ added, Satisfies α c) : Represents s added :=
  ⟨fun hc => absurd hc (by simp [hinc]), fun hc => absurd hc (by simp [hinc]),
    fun hc => absurd hc (by simp [hinc]), fun _ => h⟩

theorem Represents.newVar {added : List (List Lit)} (h : Represents s added) :
    Represents s.newVar added where
  wellFormed hinc := (h.wellFormed hinc).newVar
  settled hinc := (h.settled hinc).newVar
  models hinc α := models_newVar.trans (h.models hinc α)
  unsatisfiable := h.unsatisfiable

/-- At level zero the added clauses have been given. -/
structure Rooted (s : Solver) (added : List (List Lit)) : Prop where
  wellFormed : WellFormed s
  settled : s.Settled s.queueHead
  level : s.level = 0
  models : ∀ α, s.Models α ↔ ∀ c ∈ added, Satisfies α c
  inconsistent : s.inconsistent = false

theorem Rooted.newVar {added : List (List Lit)} (h : Rooted s added) : Rooted s.newVar added :=
  ⟨h.wellFormed.newVar, h.settled.newVar, h.level, fun α => models_newVar.trans (h.models α),
    h.inconsistent⟩

theorem Represents.rooted {added : List (List Lit)} (h : Represents s added)
    (hinc : s.inconsistent = false) : Rooted (s.cancelUntil 0) added where
  wellFormed := (h.wellFormed hinc).cancelUntil 0
  settled := (h.settled hinc).cancelUntil_queueHead (h.wellFormed hinc).trail 0
  level := level_cancelUntil (Nat.zero_le _)
  models α := (models_cancelUntil (h.wellFormed hinc).trail).trans (h.models hinc α)
  inconsistent := inconsistent_cancelUntil.trans hinc

/-! ## How a clause is added -/

theorem addClause_of_inconsistent (h : s.inconsistent = true) (lits : List Lit) :
    s.addClause lits = (s, false) := by
  rw [addClause, h, if_pos rfl]

/-- The literals that are left at level zero of a clause which is not true there. -/
structure Leaves (s : Solver) (lits : List Lit) (s₁ : Solver) (left : List Lit) : Prop where
  consistent : s.inconsistent = false
  prepared : s₁ = (s.cancelUntil 0).ensureAll (ascending lits)
  kept :
    ¬ (hasComplement (ascending lits) || (ascending lits).any fun l => s₁.value l == .yes) = true
  left : (ascending lits).filter (fun l => s₁.value l != .no) = left

/-- The ways in which a clause is added. -/
inductive Insertion (s : Solver) (lits : List Lit) : Solver × Bool → Prop where
  | refused (hinc : s.inconsistent = true) : Insertion s lits (s, false)
  | dropped {s₁ : Solver} (hinc : s.inconsistent = false)
      (hprepared : s₁ = (s.cancelUntil 0).ensureAll (ascending lits))
      (htrue :
        (hasComplement (ascending lits) || (ascending lits).any fun l =>
          s₁.value l == .yes) = true) :
      Insertion s lits (s₁, true)
  | empty {s₁ : Solver} (h : Leaves s lits s₁ []) :
      Insertion s lits ({ s₁ with inconsistent := true }, false)
  | unit {s₁ s₂ : Solver} {l : Lit} (h : Leaves s lits s₁ [l])
      (hp : (s₁.assign l none).propagate = (s₂, none)) :
      Insertion s lits (s₂, true)
  | conflict {s₁ s₂ : Solver} {l : Lit} {c : Nat} (h : Leaves s lits s₁ [l])
      (hp : (s₁.assign l none).propagate = (s₂, some c)) :
      Insertion s lits ({ s₂ with inconsistent := true }, false)
  | stored {s₁ : Solver} {a b : Lit} {rest : List Lit} (h : Leaves s lits s₁ (a :: b :: rest)) :
      Insertion s lits (s₁.attach ⟨a, b, rest.toArray⟩, true)

theorem Leaves.addClause_eq {s₁ : Solver} {lits left : List Lit} : Leaves s lits s₁ left →
    s.addClause lits = match left with
      | [] => ({ s₁ with inconsistent := true }, false)
      | [l] =>
        match (s₁.assign l none).propagate with
        | (s, none) => (s, true)
        | (s, some _) => ({ s with inconsistent := true }, false)
      | a :: b :: rest => (s₁.attach ⟨a, b, rest.toArray⟩, true) := by
  rintro ⟨hinc, rfl, hkept, rfl⟩
  rw [addClause, hinc, if_neg Bool.false_ne_true]
  exact if_neg hkept

theorem Insertion.execution {lits : List Lit} {out : Solver × Bool} (h : Insertion s lits out) :
    s.addClause lits = out := by
  cases h with
  | refused hinc => exact addClause_of_inconsistent hinc lits
  | dropped hinc hprepared htrue =>
      subst hprepared
      rw [addClause, hinc, if_neg Bool.false_ne_true]
      exact if_pos htrue
  | empty h => exact h.addClause_eq
  | unit h hp =>
      rw [h.addClause_eq]
      dsimp only
      rw [hp]
  | conflict h hp =>
      rw [h.addClause_eq]
      dsimp only
      rw [hp]
  | stored h => exact h.addClause_eq

theorem addClause_insertion (s : Solver) (lits : List Lit) :
    Insertion s lits (s.addClause lits) := by
  cases hinc : s.inconsistent with
  | true =>
      rw [addClause_of_inconsistent hinc]
      exact .refused hinc
  | false =>
      obtain ⟨s₁, hprepared⟩ : ∃ s₁, s₁ = (s.cancelUntil 0).ensureAll (ascending lits) := ⟨_, rfl⟩
      by_cases hkept :
        (hasComplement (ascending lits) || (ascending lits).any fun l => s₁.value l == .yes) = true
      · have hdropped := Insertion.dropped hinc hprepared hkept
        rwa [hdropped.execution]
      match hleft : (ascending lits).filter fun l => s₁.value l != .no with
      | [] =>
          have hempty := Insertion.empty ⟨hinc, hprepared, hkept, hleft⟩
          rwa [hempty.execution]
      | [l] =>
          cases hp : (s₁.assign l none).propagate with
          | mk s₂ conflict =>
              cases conflict with
              | none =>
                  have hunit := Insertion.unit ⟨hinc, hprepared, hkept, hleft⟩ hp
                  rwa [hunit.execution]
              | some c =>
                  have hconflict := Insertion.conflict ⟨hinc, hprepared, hkept, hleft⟩ hp
                  rwa [hconflict.execution]
      | a :: b :: rest =>
          have hstored := Insertion.stored ⟨hinc, hprepared, hkept, hleft⟩
          rwa [hstored.execution]

/-! ## What adding a clause achieves -/

/-- What adding a clause to a rooted solver has to achieve. -/
structure Added (s : Solver) (added : List (List Lit)) (lits : List Lit)
    (out : Solver × Bool) : Prop where
  represents : Represents out.1 (added ++ [lits])
  answer : out.2 = !out.1.inconsistent
  numVars : out.1.numVars = s.numVars
  config : out.1.config = s.config
  monitor : s.monitor.Follows out.1.monitor

theorem forall_mem_append_singleton {α : Nat → Bool} {added : List (List Lit)} {lits : List Lit} :
    (∀ c ∈ added ++ [lits], Satisfies α c) ↔ (∀ c ∈ added, Satisfies α c) ∧ Satisfies α lits := by
  simp only [List.mem_append, List.mem_singleton, or_imp, forall_and, forall_eq]

section Cases

variable {added : List (List Lit)} {lits : List Lit} (h : Rooted s added)
include h

theorem added_satisfied (hsat : ∀ α, s.Models α → Satisfies α lits) :
    Added s added lits (s, true) where
  represents := by
    refine represents_of_models h.wellFormed h.settled h.inconsistent fun α => ?_
    rw [forall_mem_append_singleton, ← h.models α]
    exact ⟨fun hα => ⟨hα, hsat α hα⟩, And.left⟩
  answer := by rw [h.inconsistent, Bool.not_false]
  numVars := rfl
  config := rfl
  monitor := .refl _

theorem added_empty (hmodels : ∀ α, s.Models α → ¬ Satisfies α lits) :
    Added s added lits ({ s with inconsistent := true }, false) where
  represents := by
    refine represents_of_unsatisfiable rfl fun α hα => ?_
    obtain ⟨hadded, hlits⟩ := forall_mem_append_singleton.mp hα
    exact hmodels α ((h.models α).mpr hadded) hlits
  answer := rfl
  numVars := rfl
  config := rfl
  monitor := .refl _

theorem propagated_assign {l : Lit} (hu : s.value l = .unknown) (hv : l.var < s.numVars) :
    Propagated (s.assign l none) (s.assign l none).propagate := by
  have hassign : WellFormed (s.assign l none) := h.wellFormed.assign hu hv (Or.inl h.level)
  exact propagate_spec hassign (h.settled.assign h.wellFormed.trail hu)

/-- Propagating the only literal that is left gives the models of all clauses. -/
theorem models_propagate_assign {l : Lit} (hu : s.value l = .unknown) (hv : l.var < s.numVars)
    (hmodels : ∀ α, s.Models α → (Satisfies α lits ↔ l.Holds α)) (α : Nat → Bool) :
    (s.assign l none).propagate.1.Models α ↔ ∀ c ∈ added ++ [lits], Satisfies α c := by
  have hassign : WellFormed (s.assign l none) := h.wellFormed.assign hu hv (Or.inl h.level)
  rw [(propagated_assign h hu hv).propagates.models_iff hassign.trail,
    models_assign h.wellFormed.trail hu hv, forall_mem_append_singleton, ← h.models α]
  refine and_congr_right fun hα => ?_
  rw [hmodels α hα]
  exact ⟨fun hl => hl h.level, fun hl _ => hl⟩

theorem added_unit {l : Lit} {s₂ : Solver} (hu : s.value l = .unknown) (hv : l.var < s.numVars)
    (hmodels : ∀ α, s.Models α → (Satisfies α lits ↔ l.Holds α))
    (hp : (s.assign l none).propagate = (s₂, none)) : Added s added lits (s₂, true) := by
  have hiff := models_propagate_assign h hu hv hmodels
  have hprop := propagated_assign h hu hv
  rw [hp] at hiff hprop
  have hinc : s₂.inconsistent = false := hprop.propagates.inconsistent.trans h.inconsistent
  obtain ⟨hdone, hhead⟩ := hprop.settled rfl
  exact ⟨represents_of_models hprop.wellFormed (hhead ▸ hdone) hinc hiff, (congrArg not hinc).symm,
    hprop.propagates.numVars.trans (numVars_assign s l none), hprop.propagates.config,
    (Monitor.follows_record _ _).trans hprop.propagates.monitor⟩

theorem added_conflict {l : Lit} {s₂ : Solver} {c : Nat} (hu : s.value l = .unknown)
    (hv : l.var < s.numVars) (hmodels : ∀ α, s.Models α → (Satisfies α lits ↔ l.Holds α))
    (hp : (s.assign l none).propagate = (s₂, some c)) :
    Added s added lits ({ s₂ with inconsistent := true }, false) := by
  have hiff := models_propagate_assign h hu hv hmodels
  have hprop := propagated_assign h hu hv
  rw [hp] at hiff hprop
  have hlevel : s₂.level = 0 := hprop.propagates.level.trans h.level
  refine ⟨represents_of_unsatisfiable rfl fun α hα => ?_, rfl,
    hprop.propagates.numVars.trans (numVars_assign s l none), hprop.propagates.config,
    (Monitor.follows_record _ _).trans hprop.propagates.monitor⟩
  exact (hprop.conflict rfl).not_models hprop.wellFormed.trail hlevel α ((hiff α).mpr hα)

theorem added_attach {c : Clause} (hlt : ∀ l ∈ c.lits, l.var < s.numVars)
    (hdistinct : (c.lits.map Lit.var).Nodup) (hu : ∀ l ∈ c.lits, s.value l = .unknown)
    (hmodels : ∀ α, s.Models α → (Satisfies α lits ↔ Satisfies α c.lits)) :
    Added s added lits (s.attach c, true) where
  represents := by
    refine represents_of_models (h.wellFormed.attach hlt hdistinct) ?_ h.inconsistent fun α => ?_
    · refine h.settled.attach ⟨guards_of_value h.wellFormed.trail ?_,
        guards_of_value h.wellFormed.trail ?_⟩
      · rw [hu _ List.mem_cons_self]
        simp
      · rw [hu c.second (List.mem_cons_of_mem _ List.mem_cons_self)]
        simp
    · rw [models_attach, forall_mem_append_singleton, ← h.models α]
      exact and_congr_right fun hα => (hmodels α hα).symm
  answer := (congrArg not h.inconsistent).symm
  numVars := rfl
  config := rfl
  monitor := .refl _

end Cases

/-- At level zero of a solver that has been given some clauses, with the variables of another
one. -/
theorem Represents.rooted_ensureAll {added : List (List Lit)} (h : Represents s added)
    (hinc : s.inconsistent = false) (lits : List Lit) :
    Rooted ((s.cancelUntil 0).ensureAll lits) added :=
  ensureAll_induction (P := fun t => Rooted t added) (fun _ => Rooted.newVar) (h.rooted hinc) _

namespace Leaves

variable {s₁ : Solver} {lits left : List Lit} {added : List (List Lit)} (h : Leaves s lits s₁ left)
include h

theorem rooted (hs : Represents s added) : Rooted s₁ added := by
  rw [h.prepared]
  exact hs.rooted_ensureAll h.consistent _

theorem mem_filter {l : Lit} (hl : l ∈ left) : l ∈ ascending lits ∧ s₁.value l ≠ .no := by
  rw [← h.left] at hl
  exact (List.mem_filter.mp hl).imp_right bne_iff_ne.mp

theorem var_lt {l : Lit} (hl : l ∈ left) : l.var < s₁.numVars := by
  rw [h.prepared]
  exact var_lt_ensureAll _ (h.mem_filter hl).1

/-- A literal that is left has no value, as the clause is not true. -/
theorem unknown {l : Lit} (hl : l ∈ left) : s₁.value l = .unknown := by
  have hkept := h.kept
  rw [Bool.or_eq_true, not_or, List.any_eq_true] at hkept
  obtain ⟨hl, hno⟩ := h.mem_filter hl
  cases hvalue : s₁.value l with
  | yes => exact absurd ⟨l, hl, beq_iff_eq.mpr hvalue⟩ hkept.2
  | no => exact absurd hvalue hno
  | unknown => rfl

theorem distinct : (left.map Lit.var).Nodup := by
  have hkept := h.kept
  rw [Bool.or_eq_true, not_or, Bool.not_eq_true] at hkept
  rw [← h.left]
  exact (List.filter_sublist.map Lit.var).nodup
    (nodup_of_hasComplement (ascending_ascending lits) hkept.1)

theorem satisfies_iff (hs : Represents s added) {α : Nat → Bool} (hα : s₁.Models α) :
    Satisfies α lits ↔ Satisfies α left := by
  have hroot := h.rooted hs
  rw [← satisfies_ascending]
  constructor
  · rintro ⟨l, hl, hlα⟩
    refine ⟨l, ?_, hlα⟩
    rw [← h.left, List.mem_filter, bne_iff_ne]
    exact ⟨hl, fun hno => not_holds_of_root hroot.wellFormed.trail hroot.level hα hno hlα⟩
  · rintro ⟨l, hl, hlα⟩
    exact ⟨l, (h.mem_filter hl).1, hlα⟩

end Leaves

theorem satisfies_singleton {α : Nat → Bool} {l : Lit} : Satisfies α [l] ↔ l.Holds α := by
  simp only [Satisfies, List.mem_singleton, exists_eq_left]

theorem Insertion.added {added : List (List Lit)} {lits : List Lit} {out : Solver × Bool}
    (h : Insertion s lits out) (hs : Represents s added) (hinc : s.inconsistent = false) :
    Added ((s.cancelUntil 0).ensureAll (ascending lits)) added lits out := by
  cases h with
  | refused hrefused => exact absurd hrefused (by simp [hinc])
  | @dropped s₁ _ hprepared htrue =>
      have hroot : Rooted s₁ added := hprepared ▸ hs.rooted_ensureAll hinc _
      rw [← hprepared]
      refine added_satisfied hroot fun α hα => satisfies_ascending.mp ?_
      rcases (Bool.or_eq_true _ _).mp htrue with hc | hany
      · exact satisfies_of_hasComplement hc α
      · obtain ⟨l, hl, hyes⟩ := List.any_eq_true.mp hany
        exact ⟨l, hl, holds_of_root hroot.wellFormed.trail hroot.level hα (eq_of_beq hyes)⟩
  | empty h =>
      rw [← h.prepared]
      refine added_empty (h.rooted hs) fun α hα hlits => ?_
      obtain ⟨l, hl, -⟩ := (h.satisfies_iff hs hα).mp hlits
      cases hl
  | unit h hp =>
      rw [← h.prepared]
      exact added_unit (h.rooted hs) (h.unknown List.mem_cons_self) (h.var_lt List.mem_cons_self)
        (fun α hα => (h.satisfies_iff hs hα).trans satisfies_singleton) hp
  | conflict h hp =>
      rw [← h.prepared]
      exact added_conflict (h.rooted hs) (h.unknown List.mem_cons_self)
        (h.var_lt List.mem_cons_self)
        (fun α hα => (h.satisfies_iff hs hα).trans satisfies_singleton) hp
  | @stored s₁ a b rest h =>
      rw [← h.prepared]
      exact added_attach (c := ⟨a, b, rest.toArray⟩) (h.rooted hs) (fun _ => h.var_lt) h.distinct
        (fun _ => h.unknown) fun α hα => h.satisfies_iff hs hα

theorem addClause_spec {added : List (List Lit)} (h : Represents s added) (lits : List Lit)
    (hinc : s.inconsistent = false) :
    Added ((s.cancelUntil 0).ensureAll (ascending lits)) added lits (s.addClause lits) :=
  (addClause_insertion s lits).added h hinc

theorem Represents.addClause {added : List (List Lit)} (h : Represents s added) (lits : List Lit) :
    Represents (s.addClause lits).1 (added ++ [lits]) := by
  cases hinc : s.inconsistent with
  | true =>
      rw [addClause_of_inconsistent hinc]
      exact represents_of_unsatisfiable hinc fun α hα =>
        h.unsatisfiable hinc α (forall_mem_append_singleton.mp hα).1
  | false => exact (addClause_spec h lits hinc).represents

/-- The answer says whether the solver is still consistent. -/
theorem Represents.answer_addClause {added : List (List Lit)} (h : Represents s added)
    (lits : List Lit) :
    (s.addClause lits).2 = !(s.addClause lits).1.inconsistent := by
  cases hinc : s.inconsistent with
  | true =>
      rw [addClause_of_inconsistent hinc]
      exact (congrArg not hinc).symm
  | false => exact (addClause_spec h lits hinc).answer

end Solver

end ModelExpansion.Sat
