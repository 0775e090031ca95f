import Mathlib.Data.Fintype.BigOperators
import Mathlib.Data.Fintype.Option
import Mathlib.Tactic.Ring
import ModelExpansion.Proofs.Sat.Search

/-! # Termination of the search
Every conflict teaches a clause with a new set of literals, a restart needs a conflict, and
decisions between them are bounded by the number of variables. -/

namespace ModelExpansion.Sat

/-! ## The Luby sequence -/

theorem Luby.pos_of_descend? {index size exponent n : Nat}
    (h : Luby.descend? index size exponent = some n) : 0 < n := by
  induction exponent generalizing index size with
  | zero =>
      rw [Luby.descend?] at h
      split at h
      · cases h
        exact Nat.one_pos
      · cases h
  | succ exponent ih =>
      rw [Luby.descend?] at h
      split at h
      · cases h
        exact Nat.pow_pos Nat.two_pos
      · dsimp only at h
        split at h
        · cases h
        · exact ih h

theorem luby_pos (index : Nat) : 0 < luby index := by
  rw [luby]
  cases h : luby? index with
  | none => exact Nat.one_pos
  | some n =>
      rw [luby?] at h
      split at h
      · cases h
      · exact Luby.pos_of_descend? h

theorem Solver.restartLimit_pos (s : Solver) : 0 < s.restartLimit :=
  Nat.mul_pos (Nat.lt_of_lt_of_le Nat.one_pos (Nat.le_max_right _ _)) (luby_pos _)

/-! ## Shapes of clauses -/

/-- How each of the first `n` variables occurs in a clause. -/
def shape (n : Nat) (c : List Lit) (v : Fin n) : Option Bool :=
  if Lit.pos v ∈ c then some true else if Lit.neg v ∈ c then some false else none

theorem eq_of_mem_of_var_eq {c : List Lit} (hc : (c.map Lit.var).Nodup) {a b : Lit} (ha : a ∈ c)
    (hb : b ∈ c) (h : a.var = b.var) : a = b :=
  List.inj_on_of_nodup_map hc ha hb h

/-- A clause over distinct variables is determined by its shape, but for the order. -/
theorem mem_iff_shape {n : Nat} {c : List Lit} (hc : (c.map Lit.var).Nodup) {l : Lit}
    (hl : l.var < n) :
    l ∈ c ↔ shape n c ⟨l.var, hl⟩ = some l.positive := by
  have hself : Lit.signed l.var l.positive = l := Lit.signed_var l
  cases hp : l.positive with
  | true =>
      have hpos : Lit.pos l.var = l := by rw [Lit.pos, ← hp, hself]
      rw [shape, hpos]
      by_cases hmem : l ∈ c
      · rw [if_pos hmem]
        exact iff_of_true hmem rfl
      · rw [if_neg hmem]
        split <;> simp [hmem]
  | false =>
      have hneg : Lit.neg l.var = l := by rw [Lit.neg, ← hp, hself]
      rw [shape, hneg]
      by_cases hmem : l ∈ c
      · have hpos : Lit.pos l.var ∉ c := by
          intro hc'
          have he := eq_of_mem_of_var_eq hc hmem hc' (by rw [Lit.pos, Lit.var_signed])
          rw [he, Lit.pos, Lit.positive_signed] at hp
          cases hp
        rw [if_neg hpos, if_pos hmem]
        exact iff_of_true hmem rfl
      · rw [if_neg hmem]
        split <;> simp [hmem]

namespace Solver

variable {s : Solver}

open Classical in
noncomputable def knownShapes (s : Solver) (n : Nat) : Finset (Fin n → Option Bool) :=
  Finset.univ.filter fun σ => ∃ c, s.Known c ∧ (c.map Lit.var).Nodup ∧ shape n c = σ

open Classical in
theorem mem_knownShapes {n : Nat} {σ : Fin n → Option Bool} :
    σ ∈ s.knownShapes n ↔ ∃ c, s.Known c ∧ (c.map Lit.var).Nodup ∧ shape n c = σ := by
  rw [knownShapes, Finset.mem_filter]
  exact and_iff_right (Finset.mem_univ σ)

theorem Continues.knownShapes_subset {s' : Solver} (h : Continues s s') (n : Nat) :
    s.knownShapes n ⊆ s'.knownShapes n := by
  intro σ hσ
  obtain ⟨c, hc, hdistinct, rfl⟩ := mem_knownShapes.mp hσ
  exact mem_knownShapes.mpr ⟨c, h.known c hc, hdistinct, rfl⟩

/-- The number of clauses that can still be learned. -/
noncomputable def unlearned (s : Solver) (n : Nat) : Nat := 3 ^ n - (s.knownShapes n).card

theorem card_knownShapes_le (s : Solver) (n : Nat) : (s.knownShapes n).card ≤ 3 ^ n := by
  have hcard : Fintype.card (Fin n → Option Bool) = 3 ^ n := by
    rw [Fintype.card_fun, Fintype.card_option, Fintype.card_bool, Fintype.card_fin]
  exact hcard ▸ Finset.card_le_univ _

theorem Continues.unlearned_le {s' : Solver} (h : Continues s s') (n : Nat) :
    s'.unlearned n ≤ s.unlearned n :=
  Nat.sub_le_sub_left (Finset.card_le_card (h.knownShapes_subset n)) _

theorem Known.var_lt (hwf : WellFormed s) {c : List Lit} (hc : s.Known c) :
    ∀ l ∈ c, l.var < s.numVars := by
  rcases hc with ⟨r, hr, hperm⟩ | ⟨i, l, hi, -, rfl⟩
  · exact fun l hl => hwf.clauses.var_lt hr l (hperm.mem_iff.mpr hl)
  · intro x hx
    rw [List.mem_singleton.mp hx]
    exact hwf.trail.var_lt hi

/-- A false watched literal of a lower level would have been noticed there. -/
theorem level_le_of_watch (ht : TrailInvariant s) (hs : ∀ {k}, k < s.level → s.Settled (s.start k))
    {w other : Lit} (hw : s.value w = .no) (hother : s.value other = .no)
    (hg : ∀ {q}, s.Settled q → s.Guards q w other) : s.level ≤ s.levelOf w := by
  by_contra hlt
  have hlt : s.levelOf w < s.level := Nat.lt_of_not_le hlt
  obtain ⟨i, hi⟩ := ht.exists_position (s.value_eq_no.mp hw)
  have hstart : i < s.start (s.levelOf w) :=
    (ht.lt_start hlt hi).mpr (Nat.le_of_eq (s.levelOf_negate w))
  have hyes := (hg (hs hlt) i hstart hi).1
  rw [hother] at hyes
  cases hyes

/-- No known clause has the literals of the lesson: such a clause would have been unit, and
propagated, at a lower level. -/
theorem not_known_of_taught {lesson : Lesson} (hwf : WellFormed s) (ht : Analysis.Taught s lesson)
    (hs : ∀ {k}, k < s.level → s.Settled (s.start k)) {c : List Lit}
    (hc : ∀ l, l ∈ c ↔ l ∈ lesson.asserting :: lesson.others) : ¬ s.Known c := by
  have hvalue : ∀ l ∈ c, s.value l = .no := by
    intro l hl
    rcases List.mem_cons.mp ((hc l).mp hl) with rfl | hl
    · exact ht.value
    · exact (ht.others l hl).1
  rintro (⟨r, hr, hperm⟩ | ⟨i, l, hi, -, rfl⟩)
  · have hmem : ∀ l ∈ (s.clause r).lits, l ∈ c := fun l hl => hperm.mem_iff.mp hl
    have hfirst := hmem _ List.mem_cons_self
    have hsecond := hmem (s.clause r).second (List.mem_cons_of_mem _ List.mem_cons_self)
    have hcurrent : ∀ w ∈ c, s.level ≤ s.levelOf w → w = lesson.asserting := by
      intro w hw hle
      refine (List.mem_cons.mp ((hc w).mp hw)).resolve_right fun hw => ?_
      have := (ht.others w hw).2.2
      have := ht.backjump_lt
      omega
    have h₁ :=
      hcurrent _ hfirst (level_le_of_watch hwf.trail hs (hvalue _ hfirst) (hvalue _ hsecond)
      fun hq => (hq r hr).1)
    have h₂ :=
      hcurrent _ hsecond (level_le_of_watch hwf.trail hs (hvalue _ hsecond) (hvalue _ hfirst)
      fun hq => (hq r hr).2)
    have hdistinct := hwf.clauses.distinct hr
    simp only [Clause.lits, List.map_cons, List.nodup_cons, List.mem_cons, not_or] at hdistinct
    exact hdistinct.1.1 (congrArg Lit.var (h₁.trans h₂.symm))
  · have hno := hvalue l List.mem_cons_self
    rw [hwf.trail.value_of_getElem? hi] at hno
    cases hno

/-- Learning a lesson adds a shape that was not known. -/
theorem unlearned_lt_of_learned {lesson : Lesson} {s' : Solver} (hwf : WellFormed s)
    (ht : Analysis.Taught s lesson) (hs : ∀ {k}, k < s.level → s.Settled (s.start k))
    (hl : Learned s (lesson.asserting :: lesson.others) s') :
    s'.unlearned s.numVars < s.unlearned s.numVars := by
  have hnew : shape s.numVars (lesson.asserting :: lesson.others) ∉ s.knownShapes s.numVars := by
    intro hmem
    obtain ⟨c, hc, hdistinct, hshape⟩ := mem_knownShapes.mp hmem
    have hlesson : ∀ l ∈ lesson.asserting :: lesson.others, l.var < s.numVars := by
      intro l hl'
      have hlt := hl.known.var_lt hl.wellFormed l hl'
      rwa [hl.continues.numVars] at hlt
    refine not_known_of_taught hwf ht hs (c := c) (fun l => ?_) hc
    by_cases hlt : l.var < s.numVars
    · rw [mem_iff_shape hdistinct hlt, hshape, ← mem_iff_shape ht.distinct hlt]
    · exact ⟨fun hl' => absurd (hc.var_lt hwf l hl') hlt, fun hl' => absurd (hlesson l hl') hlt⟩
  have hlt : (s.knownShapes s.numVars).card < (s'.knownShapes s.numVars).card := by
    refine Finset.card_lt_card ((Finset.ssubset_iff_of_subset
      (hl.continues.knownShapes_subset _)).mpr ⟨_, ?_, hnew⟩)
    exact mem_knownShapes.mpr ⟨_, hl.known, ht.distinct, rfl⟩
  have hle := s'.card_knownShapes_le s.numVars
  rw [unlearned, unlearned]
  omega

end Solver

namespace Search

/-! ## The potential of a search -/

/-- A bound on the steps that are left: a block of steps for each clause that can be learned and for
the restart that may follow, and within a block one step for each level. -/
noncomputable def potential (t : Search) : Nat :=
  (t.solver.numVars + 1) * (2 * t.solver.unlearned t.solver.numVars + min t.sinceRestart 1) +
    (t.solver.numVars - t.solver.level)

theorem level_le_numVars {s : Solver} (h : s.WellFormed) : s.level ≤ s.numVars :=
  h.trail.level_le.trans h.trail.size_le

theorem restartLimit_pos_of_derivation {halt : Stats → Bool} {t t' : Search}
    {verdict : Option Verdict}
    (h : Derivation halt t t' verdict) (hlimit : 0 < t.restartLimit) : 0 < t'.restartLimit := by
  cases h with
  | restarted => exact Solver.restartLimit_pos _
  | refuted => exact hlimit
  | learned => exact hlimit
  | stopped => exact hlimit
  | decided => exact hlimit
  | satisfied => exact hlimit

theorem mul_add_lt_mul {n a b x y : Nat} (h : a < b) (hx : x ≤ n) :
    (n + 1) * a + x < (n + 1) * b + y := by
  have hab : (n + 1) * (a + 1) ≤ (n + 1) * b := Nat.mul_le_mul_left _ h
  rw [Nat.mul_add, Nat.mul_one] at hab
  omega

/-- Every step that does not answer lowers the potential. -/
theorem Derivation.potential_lt {halt : Stats → Bool} {t t' : Search}
    (h : Derivation halt t t' none)
    (hr : Ready t.solver) (hlimit : 0 < t.restartLimit) : potential t' < potential t := by
  have hready := (h.reached hr).ready (by simp)
  have hnumVars : t'.solver.numVars = t.solver.numVars := hready.2.numVars
  have hunlearned := hready.2.unlearned_le t.solver.numVars
  rw [potential, potential, hnumVars]
  cases h with
  | @learned s s' c n since limit hp h0 =>
      have hprop := hr.propagation hp
      have hconflict := hr.conflict hp
      dsimp only at *
      obtain ⟨lesson, htaught, hlearned⟩ := learn_analyze hprop.wellFormed h0 hconflict
      have hlt :
          (((countConflict s').analyze c).1.learn ((countConflict s').analyze c).2).unlearned
          s'.numVars <
          s'.unlearned s'.numVars :=
        Solver.unlearned_lt_of_learned hprop.wellFormed htaught hconflict.settled hlearned
      have hle := hprop.continues.unlearned_le s.numVars
      rw [hprop.continues.numVars] at hlt
      refine mul_add_lt_mul ?_ (Nat.sub_le _ _)
      omega
  | @restarted s s' n since limit hp hstop hsince =>
      dsimp only at *
      refine mul_add_lt_mul ?_ (Nat.sub_le _ _)
      omega
  | @decided s s' l n since limit hp hstop hsince hb =>
      have hprop := hr.propagation hp
      dsimp only at *
      have hlevel : (s'.decide l).level = s.level + 1 :=
        (Solver.level_decide s' l).trans (congrArg (· + 1) hprop.level)
      have hle := level_le_numVars hready.1.wellFormed
      have hblock : (s.numVars + 1) * (2 * (s'.decide l).unlearned s.numVars + min since 1) ≤
          (s.numVars + 1) * (2 * s.unlearned s.numVars + min since 1) :=
        Nat.mul_le_mul_left _ (by omega)
      omega

/-- A search ends, after no more steps than its potential allows. -/
theorem exists_ends (halt : Stats → Bool) {t : Search} (hr : Ready t.solver)
    (hlimit : 0 < t.restartLimit) :
    ∃ n s verdict, n ≤ potential t + 1 ∧ Ends halt n t s verdict := by
  generalize hbound : potential t = bound
  induction bound using Nat.strong_induction_on generalizing t with
  | _ bound ih =>
      have hd := step_derivation halt t
      cases hstep : t.step halt with
      | mk t' verdict =>
          rw [hstep] at hd
          cases verdict with
          | some verdict => exact ⟨1, t'.solver, verdict, Nat.le_add_left _ _, .answer hstep⟩
          | none =>
              have hlt : potential t' < potential t := hd.potential_lt hr hlimit
              obtain ⟨n, s, verdict, hn, hends⟩ := ih (potential t') (hbound ▸ hlt)
                ((hd.reached hr).ready (by simp)).1 (restartLimit_pos_of_derivation hd hlimit) rfl
              exact ⟨n + 1, s, verdict, by omega, .step hstep hends⟩

theorem potential_lt_stepBound (t : Search) : potential t < stepBound t.solver.numVars := by
  have hunlearned : t.solver.unlearned t.solver.numVars ≤ 3 ^ t.solver.numVars := Nat.sub_le _ _
  rw [potential, stepBound]
  generalize t.solver.numVars = n at *
  generalize t.solver.unlearned n = r at *
  change r ≤ Nat.pow 3 n at hunlearned
  generalize Nat.pow 3 n = p at *
  have hblock : (n + 1) * (2 * r + min t.sinceRestart 1) ≤ (n + 2) * (2 * p + 1) :=
    Nat.mul_le_mul (Nat.le_succ _) (by omega)
  have hbound : 2 * (n + 2) * (p + 2) = (n + 2) * (2 * p + 1) + 3 * (n + 2) := by
    ring
  omega

/-- The bound on the steps of a search is never reached. -/
theorem run_ends (halt : Stats → Bool) {t : Search} (hr : Ready t.solver)
    (hlimit : 0 < t.restartLimit) :
    ∃ n ≤ stepBound t.solver.numVars, Ends halt n t (run halt (stepBound t.solver.numVars) t).1
      (run halt (stepBound t.solver.numVars) t).2 := by
  obtain ⟨n, s, verdict, hn, hends⟩ := exists_ends halt hr hlimit
  have hle : n ≤ stepBound t.solver.numVars := hn.trans (potential_lt_stepBound t)
  refine ⟨n, hle, ?_⟩
  rw [hends.run hle]
  exact hends

end Search

end ModelExpansion.Sat
