import Mathlib.Data.List.MinMax
import ModelExpansion.Proofs.Sat.Moments

/-! # The lessons of a search
Whenever a search analyses a conflict, the walk over the trail ends at the first unique implication
point, and the lesson is what the search relies on when it returns to a lower level. -/

namespace ModelExpansion.Sat

def Lesson.lits (lesson : Lesson) : List Lit := lesson.asserting :: lesson.others

namespace Solver

open Search

/-- The highest level of some literals, zero if there are none. -/
def highest (s : Solver) (lits : List Lit) : Nat := (lits.map s.levelOf).foldr max 0

/-- What the analysis of a conflict comes to. -/
structure Conclusive (s : Solver) (c : Nat) : Prop where
  /-- The walk runs neither out of trail nor out of pending literals, and meets no literal without a
  reason while others are pending. -/
  ended : (s.trace c).2.2 = .implicationPoint
  implied : ∀ α, s.Models α → Satisfies α (s.analyze c).2.lits
  distinct : ((s.analyze c).2.lits.map Lit.var).Nodup
  falsified : ∀ l ∈ (s.analyze c).2.lits, s.value l = .no
  /-- The first literal, and no other, is of the current level. -/
  current : s.levelOf (s.analyze c).2.asserting = s.level ∧
    ∀ l ∈ (s.analyze c).2.others, s.levelOf l ≠ s.level
  backjump : (s.analyze c).2.backjump = s.highest (s.analyze c).2.others
  below : (s.analyze c).2.backjump < s.level
  attained : ∀ l rest, (s.analyze c).2.others = l :: rest → s.levelOf l = (s.analyze c).2.backjump
  unmarked : (s.analyze c).1.Unmarked
  /-- At the level to which the search returns the clause is unit. -/
  unit : ((s.analyze c).1.cancelUntil (s.analyze c).2.backjump).value
    (s.analyze c).2.asserting = .unknown ∧
    ∀ l ∈ (s.analyze c).2.others,
      ((s.analyze c).1.cancelUntil (s.analyze c).2.backjump).value l = .no

variable {s : Solver} {c : Nat}

theorem highest_eq {n : Nat} {l : Lit} {lits : List Lit} (hl : l ∈ lits) (hn : s.levelOf l = n)
    (hle : ∀ x ∈ lits, s.levelOf x ≤ n) : s.highest lits = n :=
  Nat.le_antisymm (List.max_le_of_forall_le _ n fun _ hk => by
    obtain ⟨x, hx, rfl⟩ := List.mem_map.mp hk
    exact hle x hx) (List.le_max_of_le (List.mem_map_of_mem hl) (Nat.le_of_eq hn.symm))

theorem Clashing.conclusive (h : Clashing s c) : Conclusive s c := by
  have htaught := (analyze_spec h.wellFormed h.level h.conflict).2
  have hasserting := asserting_cancelUntil h.wellFormed_analyze.trail h.taught
  refine ⟨(Analysis.trace_spec h.wellFormed h.level h.conflict).ended, htaught.implied,
    htaught.distinct,
    fun l hl => ?_, ⟨htaught.level, fun l hl => ?_⟩, ?_, htaught.backjump_lt, fun _ _ =>
      htaught.second,
    h.wellFormed_analyze.unmarked, hasserting.asserting, hasserting.others⟩
  · rcases List.mem_cons.mp hl with rfl | hl
    · exact htaught.value
    · exact (htaught.others l hl).1
  · exact Nat.ne_of_lt ((htaught.others l hl).2.2.trans_lt htaught.backjump_lt)
  · cases hothers : (s.analyze c).2.others with
    | nil => exact htaught.unit hothers
    | cons l rest =>
        refine (highest_eq List.mem_cons_self (htaught.second hothers) fun x hx => ?_).symm
        rw [← hothers] at hx
        exact (htaught.others x hx).2.2

/-- Every conflict that a search meets above level zero, after any calls, is analysed to the end:
the lesson follows from the stored clauses and the assignments of level zero, it is false, and it
becomes unit at the level to which the search returns. -/
theorem conclusive_of_clash (config : Config) (monitor : Monitor) (calls : List Call)
    {halt : Stats → Bool} {t : Search}
    {s : Solver} {c : Nat} (h : Clash halt (reached config monitor calls) t s c) : Conclusive s c :=
  (h.clashing (represents_reached config monitor calls)).conclusive

/-- Two clauses that require one of the first two variables. -/
def requiring : List Call :=
  [.addClause [.pos 0, .pos 1, .pos 2], .addClause [.pos 0, .pos 1, .neg 2]]

/-- The search decides against both variables, meets a conflict with the second clause and learns
that the second variable is true unless the first one is, for which it returns to the first
decision. -/
theorem conclusive_requiring :
    ∃ t s, Clash (fun _ => false) (reached {} {} requiring) t s 1 ∧ Conclusive s 1 ∧
    (s.analyze 1).2 = ⟨.pos 1, [.pos 0], 1⟩ := by
  obtain ⟨s₀, hs₀⟩ : ∃ s₀, s₀ = ((reached {} {} requiring).begun.cancelUntil 0).propagate.1 :=
    ⟨_, rfl⟩
  have hopen : ((reached {} {} requiring).begun.cancelUntil 0).propagate.2 = none := by
    decide +kernel
  have hroot : ((reached {} {} requiring).begun.cancelUntil 0).propagate = (s₀, none) :=
    Prod.ext hs₀.symm hopen
  obtain ⟨t₁, ht₁⟩ : ∃ t₁, t₁ = (Search.step (fun _ => false) ⟨s₀, 0, 0, s₀.restartLimit⟩).1 :=
    ⟨_, rfl⟩
  obtain ⟨t₂, ht₂⟩ : ∃ t₂, t₂ = (t₁.step fun _ => false).1 := ⟨_, rfl⟩
  have hgoes : (Search.step (fun _ => false) ⟨s₀, 0, 0, s₀.restartLimit⟩).2 = none ∧
      (t₁.step fun _ => false).2 = none ∧ t₂.solver.propagate.2 = some 1 ∧
      0 < (countConflict t₂.solver.propagate.1).level ∧
      ((countConflict t₂.solver.propagate.1).analyze 1).2 = ⟨.pos 1, [.pos 0], 1⟩ := by
    rw [ht₂, ht₁, hs₀]
    decide +kernel
  obtain ⟨hfirst, hsecond, hconflict, hlevel, hlesson⟩ := hgoes
  have hloop : Looping (fun _ => false) (reached {} {} requiring) t₂ :=
    ((Looping.enter (by decide +kernel) hroot).step (Prod.ext ht₁.symm hfirst)).step
      (Prod.ext ht₂.symm hsecond)
  have hclash : Clash (fun _ => false) (reached {} {} requiring) t₂
      (countConflict t₂.solver.propagate.1) 1 :=
    ⟨hloop, ⟨_, Prod.ext rfl hconflict, rfl⟩, hlevel⟩
  exact ⟨t₂, _, hclash, conclusive_of_clash {} {} requiring hclash, hlesson⟩

end Solver

end ModelExpansion.Sat
