import ModelExpansion.Proofs.Sat.Propagation

/-! # Conflict analysis
The walk over the trail ends at the first unique implication point. Its lesson is false under the
current values, follows from the stored clauses, and has a single literal of the current level. -/

namespace ModelExpansion.Sat

open Solver

/-! ## Marks and activities -/

/-- Only marks and activities have changed. -/
structure Solver.Bumped (s s' : Solver) : Prop where
  frame : { s' with vars := s.vars, activity := s.activity, increment := s.increment } = s
  numVars : s'.numVars = s.numVars
  var : ∀ v, s'.var v = { s.var v with seen := (s'.var v).seen }

namespace Solver

namespace Bumped

variable {s s' s'' : Solver}

theorem refl (s : Solver) : Bumped s s := ⟨rfl, rfl, fun _ => rfl⟩

theorem trans (h : Bumped s s') (h' : Bumped s' s'') : Bumped s s'' where
  frame := by
    rw [← h.frame, ← h'.frame]
  numVars := h'.numVars.trans h.numVars
  var v := by rw [h'.var v, h.var v]

theorem trail (h : Bumped s s') : s'.trail = s.trail := (congrArg Solver.trail h.frame :)

theorem level (h : Bumped s s') : s'.level = s.level := (congrArg Solver.level h.frame :)

theorem clause (h : Bumped s s') (r : Nat) : s'.clause r = s.clause r :=
  (congrArg (Solver.clause · r) h.frame :)

theorem level_var (h : Bumped s s') (v : Nat) :
    (s'.var v).level = (s.var v).level := by rw [h.var v]

theorem reason_var (h : Bumped s s') (v : Nat) :
    (s'.var v).reason = (s.var v).reason := by rw [h.var v]

/-- Once all marks are gone, the variables are as they were. -/
theorem eq_of_unmarked (h : Bumped s s') (hs : Unmarked s) (hs' : Unmarked s') :
    s' = { s with activity := s'.activity, increment := s'.increment } := by
  have hvars : s'.vars = s.vars := by
    refine Array.ext h.numVars fun i hi hi' => ?_
    have hvar := h.var i
    rw [hs' i] at hvar
    have hold : s.var i = { s.var i with seen := false } := by rw [← hs i]
    rw [← hold] at hvar
    simpa only [Solver.var, Array.getD_eq_getD_getElem?, Array.getElem?_eq_getElem hi,
      Array.getElem?_eq_getElem hi', Option.getD_some] using hvar
  rw [← h.frame, ← hvars]

end Bumped

theorem bumped_bump (s : Solver) (v : Nat) : Bumped s (s.bump v) := by
  unfold bump
  split
  · dsimp only
    split
    · exact ⟨rfl, rfl, fun _ => rfl⟩
    · exact ⟨rfl, rfl, fun _ => rfl⟩
  · exact .refl s

theorem seen_bump (s : Solver) (v w : Nat) : ((s.bump v).var w).seen = (s.var w).seen := by
  unfold bump
  split
  · dsimp only
    split <;> rfl
  · rfl

theorem var_setSeen (s : Solver) (v : Nat) (b : Bool) (w : Nat) :
    (s.setSeen v b).var w = if v = w ∧ w < s.numVars then { s.var w with seen := b } else s.var w :=
  getD_modify _ _ _ _ _

theorem bumped_setSeen (s : Solver) (v : Nat) (b : Bool) : Bumped s (s.setSeen v b) where
  frame := rfl
  numVars := by simp only [numVars, setSeen, Array.size_modify]
  var w := by
    rw [var_setSeen]
    split <;> rfl

theorem seen_setSeen_of_ne {s : Solver} {v w : Nat} {b : Bool} (h : v ≠ w) :
    ((s.setSeen v b).var w).seen = (s.var w).seen := by
  rw [var_setSeen, if_neg fun hc => h hc.1]

theorem seen_setSeen_self {s : Solver} {v : Nat} {b : Bool} (h : v < s.numVars) :
    ((s.setSeen v b).var v).seen = b := by
  rw [var_setSeen, if_pos ⟨rfl, h⟩]

end Solver

/-! ## Marking -/

namespace Analysis

def isPending (s : Solver) (a : Analysis) (l : Lit) : Bool :=
  (a.solver.var l.var).seen && s.levelOf l == s.level

/-- The marked variables: those below the current level are collected, those of the current level
stand before position `index` of the trail and are counted. -/
structure Marking (s : Solver) (index : Nat) (a : Analysis) : Prop where
  bumped : Bumped s a.solver
  index_le : index ≤ s.trail.size
  seen : ∀ {v}, (a.solver.var v).seen = true → ∃ l : Lit, l.var = v ∧ s.value l = .no ∧
    0 < s.levelOf l ∧ (s.levelOf l < s.level → l ∈ a.lower) ∧
    (s.levelOf l = s.level → ∃ i : Nat, i < index ∧ s.trail[i]? = some l.negate)
  lower : ∀ l ∈ a.lower, (a.solver.var l.var).seen = true ∧ s.value l = .no ∧ 0 < s.levelOf l ∧
    s.levelOf l < s.level
  distinct : (a.lower.toList.map Lit.var).Nodup
  pending : a.pending = (s.trail.toList.take index).countP (isPending s a)

/-- Marking one more element of a list without repetition raises the count by one. -/
theorem countP_succ {xs : List Lit} {p p' : Lit → Bool} {x : Lit} (hx : x ∈ xs)
    (hdistinct : (xs.map Lit.var).Nodup) (hp : p x = false) (hp' : p' x = true)
    (hother : ∀ y ∈ xs, y.var ≠ x.var → p' y = p y) : xs.countP p' = xs.countP p + 1 := by
  induction xs with
  | nil => cases hx
  | cons y ys ih =>
      rw [List.map_cons, List.nodup_cons] at hdistinct
      rcases List.mem_cons.mp hx with rfl | hx
      · have hrest : ys.countP p' = ys.countP p := by
          refine List.countP_congr fun z hz => ?_
          rw [hother z (List.mem_cons_of_mem _ hz) fun he =>
            hdistinct.1 (he ▸ List.mem_map_of_mem hz)]
        rw [List.countP_cons_of_pos hp', List.countP_cons_of_neg (by simp [hp]), hrest]
      · have hy : p' y = p y := hother y List.mem_cons_self fun he =>
          hdistinct.1 (he ▸ List.mem_map_of_mem hx)
        rw [List.countP_cons, List.countP_cons, hy,
          ih hx hdistinct.2 fun z hz => hother z (List.mem_cons_of_mem _ hz)]
        omega

theorem trail_vars_nodup {s : Solver} (ht : TrailInvariant s) (n : Nat) :
    ((s.trail.toList.take n).map Lit.var).Nodup := by
  rw [List.map_take]
  exact ht.vars_nodup.sublist (List.take_sublist _ _)

theorem mem_take_trail {s : Solver} {n : Nat} {x : Lit} :
    x ∈ s.trail.toList.take n ↔ ∃ i : Nat, i < n ∧ s.trail[i]? = some x := by
  rw [List.mem_iff_getElem?]
  refine exists_congr fun i => ?_
  by_cases hi : i < n
  · rw [List.getElem?_take_of_lt hi, Array.getElem?_toList]
    exact (and_iff_right hi).symm
  · rw [List.getElem?_take_eq_none (Nat.le_of_not_lt hi)]
    exact iff_of_false (by simp) fun h => hi h.1

variable {s : Solver} {index : Nat} {a : Analysis}

/-- A literal that may be marked: it is false, and if it is of the current level it became so before
position `index`. -/
def Markable (s : Solver) (index : Nat) (l : Lit) : Prop :=
  s.value l = .no ∧ (s.levelOf l = s.level → ∃ i : Nat, i < index ∧ s.trail[i]? = some l.negate)

/-- The solver after a variable has been marked. -/
def marked (a : Analysis) (l : Lit) : Solver := (a.solver.bump l.var).setSeen l.var true

theorem mark_eq (h : Bumped s a.solver) (l : Lit) : mark a l =
    if (a.solver.var l.var).seen || s.levelOf l == 0 then a
    else if s.level ≤ s.levelOf l then ⟨marked a l, a.lower, a.pending + 1⟩
    else ⟨marked a l, a.lower.push l, a.pending⟩ := by
  obtain ⟨s', lower, pending⟩ := a
  have hlevel : (s'.var l.var).level = s.levelOf l := h.level_var l.var
  simp only [mark, hlevel, h.level]
  rfl

theorem bumped_marked (h : Bumped s a.solver) (l : Lit) : Bumped s (marked a l) :=
  h.trans ((bumped_bump _ _).trans (bumped_setSeen _ _ _))

theorem seen_marked (ht : TrailInvariant s) (h : Bumped s a.solver) {l : Lit}
    (hl : s.value l = .no) (v : Nat) :
    ((marked a l).var v).seen = (decide (l.var = v) || (a.solver.var v).seen) := by
  obtain ⟨i, hi⟩ := ht.exists_position (s.value_eq_no.mp hl)
  have hlt : l.var < s.numVars := by simpa using ht.var_lt hi
  by_cases hv : l.var = v
  · subst hv
    rw [marked, seen_setSeen_self (by rw [(bumped_bump _ _).numVars, h.numVars]; exact hlt)]
    simp
  · rw [marked, seen_setSeen_of_ne hv, seen_bump]
    simp [hv]

theorem Marking.count (ht : TrailInvariant s) (h : Marking s index a) {l : Lit}
    (hl : Markable s index l)
    (hunseen : (a.solver.var l.var).seen = false) (hpos : 0 < s.levelOf l)
    (hcurrent : s.levelOf l = s.level) :
    Marking s index ⟨marked a l, a.lower, a.pending + 1⟩ where
  bumped := bumped_marked h.bumped l
  index_le := h.index_le
  seen {v} hv := by
    rw [seen_marked ht h.bumped hl.1, Bool.or_eq_true, decide_eq_true_eq] at hv
    rcases hv with hlv | hv
    · exact ⟨l, hlv, hl.1, hpos, fun hlow => absurd hcurrent (Nat.ne_of_lt hlow), hl.2⟩
    · exact h.seen hv
  lower x hx := by
    obtain ⟨hs, hrest⟩ := h.lower x hx
    exact ⟨by simp [seen_marked ht h.bumped hl.1, hs], hrest⟩
  distinct := h.distinct
  pending := by
    rw [h.pending]
    refine (countP_succ (mem_take_trail.mpr (hl.2 hcurrent))
      (trail_vars_nodup ht index) ?_ ?_ ?_).symm
    · simp [isPending, hunseen]
    · simp [isPending, seen_marked ht h.bumped hl.1, levelOf_negate, hcurrent]
    · intro y _ hy
      rw [Lit.var_negate] at hy
      simp [isPending, seen_marked ht h.bumped hl.1, Ne.symm hy]

theorem Marking.collect (ht : TrailInvariant s) (h : Marking s index a) {l : Lit}
    (hl : Markable s index l)
    (hunseen : (a.solver.var l.var).seen = false) (hpos : 0 < s.levelOf l)
    (hlow : s.levelOf l < s.level) :
    Marking s index ⟨marked a l, a.lower.push l, a.pending⟩ where
  bumped := bumped_marked h.bumped l
  index_le := h.index_le
  seen {v} hv := by
    rw [seen_marked ht h.bumped hl.1, Bool.or_eq_true, decide_eq_true_eq] at hv
    rcases hv with hlv | hv
    · exact ⟨l, hlv, hl.1, hpos, fun _ => Array.mem_push_self, hl.2⟩
    · obtain ⟨x, hxv, hx, hpos, hlow, hcurrent⟩ := h.seen hv
      exact ⟨x, hxv, hx, hpos, fun hlt => Array.mem_push_of_mem _ (hlow hlt), hcurrent⟩
  lower x hx := by
    rcases Array.mem_push.mp hx with hx | rfl
    · obtain ⟨hs, hrest⟩ := h.lower x hx
      exact ⟨by simp [seen_marked ht h.bumped hl.1, hs], hrest⟩
    · exact ⟨by simp [seen_marked ht h.bumped hl.1], hl.1, hpos, hlow⟩
  distinct := by
    rw [Array.toList_push, List.map_append, List.nodup_append]
    refine ⟨h.distinct, by simp, fun v hv w hw he => ?_⟩
    obtain ⟨x, hx, rfl⟩ := List.mem_map.mp hv
    simp only [List.map_cons, List.map_nil, List.mem_singleton] at hw
    have hseen := (h.lower x (Array.mem_toList_iff.mp hx)).1
    rw [he, hw, hunseen] at hseen
    cases hseen
  pending := by
    rw [h.pending]
    refine List.countP_congr fun y _ => ?_
    simp only [isPending, seen_marked ht h.bumped hl.1]
    by_cases hy : l.var = y.var
    · have hlevels : s.levelOf y = s.levelOf l := by rw [levelOf, levelOf, hy]
      simp [hlevels, Nat.ne_of_lt hlow]
    · simp [hy]

theorem mark_spec (ht : TrailInvariant s) (h : Marking s index a) {l : Lit}
    (hl : Markable s index l) :
    Marking s index (mark a l) ∧
      (∀ {v}, (a.solver.var v).seen = true → ((mark a l).solver.var v).seen = true) ∧
      (s.levelOf l = 0 ∨ ((mark a l).solver.var l.var).seen = true) := by
  rw [mark_eq h.bumped]
  split
  · rename_i hskip
    rw [Bool.or_eq_true, beq_iff_eq] at hskip
    exact ⟨h, id, hskip.symm⟩
  rename_i hskip
  rw [Bool.or_eq_true, beq_iff_eq, not_or, Bool.not_eq_true] at hskip
  obtain ⟨hunseen, hlevel⟩ := hskip
  have hkept : ∀ {v}, (a.solver.var v).seen = true → ((marked a l).var v).seen = true :=
    fun hv => by
    simp [seen_marked ht h.bumped hl.1, hv]
  have hself : ((marked a l).var l.var).seen = true := by simp [seen_marked ht h.bumped hl.1]
  split
  · rename_i hcurrent
    obtain ⟨i, hi⟩ := ht.exists_position (s.value_eq_no.mp hl.1)
    have hle := ht.levelOf_le hi
    rw [levelOf_negate] at hle
    exact ⟨h.count ht hl hunseen (Nat.pos_of_ne_zero hlevel) (Nat.le_antisymm hle hcurrent),
      hkept, .inr hself⟩
  · rename_i hlow
    exact ⟨h.collect ht hl hunseen (Nat.pos_of_ne_zero hlevel) (Nat.lt_of_not_le hlow),
      hkept, .inr hself⟩

theorem markAll_spec (ht : TrailInvariant s) {lits : List Lit} (h : Marking s index a)
    (hlits : ∀ l ∈ lits, Markable s index l) :
    Marking s index (markAll a lits) ∧
      (∀ {v}, (a.solver.var v).seen = true → ((markAll a lits).solver.var v).seen = true) ∧
      ∀ l ∈ lits, s.levelOf l = 0 ∨ ((markAll a lits).solver.var l.var).seen = true := by
  induction lits generalizing a with
  | nil => exact ⟨h, id, fun l hl => absurd hl List.not_mem_nil⟩
  | cons x lits ih =>
      obtain ⟨hmark, hkept, hx⟩ := mark_spec ht h (hlits x List.mem_cons_self)
      obtain ⟨hall, hkept', hlits'⟩ := ih hmark fun l hl => hlits l (List.mem_cons_of_mem _ hl)
      refine ⟨hall, fun hv => hkept' (hkept hv), fun l hl => ?_⟩
      rcases List.mem_cons.mp hl with rfl | hl
      · exact hx.imp_right hkept'
      · exact hlits' l hl

/-! ## The walk -/

/-- The marked literals form a clause that every model satisfies. -/
def Implied (s : Solver) (a : Analysis) : Prop :=
  ∀ α, s.Models α → ∃ l : Lit, (a.solver.var l.var).seen = true ∧ s.value l = .no ∧ l.Holds α

/-- A walk that has ended at the first unique implication point. -/
structure ImplicationPoint (s : Solver) (out : Analysis × Lit × End) : Prop where
  ended : out.2.2 = .implicationPoint
  bumped : Bumped s out.1.solver
  value : s.value out.2.1 = .yes
  level : s.levelOf out.2.1 = s.level
  seen : ∀ {v}, (out.1.solver.var v).seen = true → ∃ l ∈ out.1.lower, l.var = v
  lower : ∀ l ∈ out.1.lower, s.value l = .no ∧ 0 < s.levelOf l ∧ s.levelOf l < s.level
  distinct : (out.1.lower.toList.map Lit.var).Nodup
  implied : ∀ α, s.Models α → ¬ out.2.1.Holds α ∨ Satisfies α out.1.lower.toList

theorem take_succ_trail {p : Lit} (hp : s.trail[index]? = some p) :
    s.trail.toList.take (index + 1) = s.trail.toList.take index ++ [p] := by
  have hlt : index < s.trail.toList.length := by
    rw [Array.length_toList]
    exact lt_size_of_getElem? hp
  have hget : s.trail.toList[index] = p := by
    rw [Array.getElem_toList]
    exact (Array.getElem?_eq_some_iff.mp hp).2
  rw [List.take_succ_eq_append_getElem hlt, hget]

/-- Only literals of the current level may be met while one of them is pending. -/
theorem Marking.level_of_seen (ht : TrailInvariant s) (h : Marking s (index + 1) a)
    (hpos : 0 < a.pending) {p : Lit} (hp : s.trail[index]? = some p) : s.levelOf p = s.level := by
  rw [h.pending] at hpos
  obtain ⟨x, hx, hpending⟩ := List.countP_pos_iff.mp hpos
  rw [isPending, Bool.and_eq_true, beq_iff_eq] at hpending
  obtain ⟨i, hlt, hi⟩ := mem_take_trail.mp hx
  refine Nat.le_antisymm (ht.levelOf_le hp) ?_
  rw [← hpending.2]
  exact ht.levelOf_mono hi hp (Nat.le_of_lt_succ hlt)

theorem Marking.pass (h : Marking s (index + 1) a) {p : Lit} (hp : s.trail[index]? = some p)
    (hseen : (a.solver.var p.var).seen = false) : Marking s index a := by
  refine ⟨h.bumped, Nat.le_of_succ_le h.index_le, fun {v} hv => ?_, h.lower, h.distinct, ?_⟩
  · obtain ⟨l, hlv, hl, hpos, hlow, hcurrent⟩ := h.seen hv
    refine ⟨l, hlv, hl, hpos, hlow, fun hlevel => ?_⟩
    obtain ⟨i, hi, hpi⟩ := hcurrent hlevel
    refine ⟨i, Nat.lt_of_le_of_ne (Nat.le_of_lt_succ hi) ?_, hpi⟩
    rintro rfl
    rw [hp, Option.some.injEq] at hpi
    rw [← hlv, ← Lit.var_negate, ← hpi, hseen] at hv
    cases hv
  · rw [h.pending, take_succ_trail hp, List.countP_append,
      List.countP_cons_of_neg (by simp [isPending, hseen])]
    rfl

theorem Marking.unmark (ht : TrailInvariant s) (h : Marking s (index + 1) a) {p : Lit}
    (hp : s.trail[index]? = some p) (hseen : (a.solver.var p.var).seen = true)
    (hlevel : s.levelOf p = s.level) (pending : Nat) (hpending : a.pending = pending + 1) :
    Marking s index ⟨a.solver.setSeen p.var false, a.lower, pending⟩ := by
  have hlt : p.var < a.solver.numVars := by
    rw [h.bumped.numVars]
    exact ht.var_lt hp
  have hunmarked : ∀ {v}, ((a.solver.setSeen p.var false).var v).seen = true →
      p.var ≠ v ∧ (a.solver.var v).seen = true := by
    intro v hv
    by_cases hpv : p.var = v
    · rw [← hpv, seen_setSeen_self hlt] at hv
      cases hv
    · rw [seen_setSeen_of_ne hpv] at hv
      exact ⟨hpv, hv⟩
  refine ⟨h.bumped.trans (bumped_setSeen _ _ _), Nat.le_of_succ_le h.index_le, fun {v} hv => ?_, ?_,
    h.distinct, ?_⟩
  · obtain ⟨hpv, hv⟩ := hunmarked hv
    obtain ⟨l, hlv, hl, hpos, hlow, hcurrent⟩ := h.seen hv
    refine ⟨l, hlv, hl, hpos, hlow, fun hlevel => ?_⟩
    obtain ⟨i, hi, hpi⟩ := hcurrent hlevel
    refine ⟨i, Nat.lt_of_le_of_ne (Nat.le_of_lt_succ hi) ?_, hpi⟩
    rintro rfl
    rw [hp, Option.some.injEq] at hpi
    rw [hpi, Lit.var_negate] at hpv
    exact hpv hlv
  · intro l hl
    obtain ⟨hs, hrest⟩ := h.lower l hl
    refine ⟨?_, hrest⟩
    have hpl : p.var ≠ l.var := by
      intro he
      rw [levelOf, ← he, ← levelOf, hlevel] at hrest
      exact Nat.lt_irrefl _ hrest.2.2
    dsimp only
    rw [seen_setSeen_of_ne hpl]
    exact hs
  · have hcount := h.pending
    rw [take_succ_trail hp, List.countP_append,
      List.countP_cons_of_pos (by simp [isPending, hseen, hlevel]),
      List.countP_nil, hpending, Nat.add_right_cancel_iff] at hcount
    dsimp only
    rw [hcount]
    refine List.countP_congr fun y hy => ?_
    have hdistinct := trail_vars_nodup ht (index + 1)
    rw [take_succ_trail hp, List.map_append, List.nodup_append] at hdistinct
    have hyp : p.var ≠ y.var :=
      fun he => hdistinct.2.2 _ (List.mem_map_of_mem hy) p.var (by simp) he.symm
    simp only [isPending, seen_setSeen_of_ne hyp]

/-- Above level zero only the first literal of a level has no reason. -/
theorem pending_eq_zero (hwf : WellFormed s) {p : Lit} (hp : s.trail[index]? = some p)
    (hlevel : s.levelOf p = s.level) (hpos : 0 < s.levelOf p)
    (hreason : (s.var p.var).reason = none) :
    (s.trail.toList.take index).countP (isPending s a) = 0 := by
  rw [List.countP_eq_zero]
  intro x hx hpending
  rw [isPending, Bool.and_eq_true, beq_iff_eq] at hpending
  obtain ⟨i, hlt, hi⟩ := mem_take_trail.mp hx
  rcases hwf.reasons.decided hp hreason with h0 | ⟨k, hk, rfl⟩
  · omega
  · have hle := (hwf.trail.lt_start hk hi).mp hlt
    omega

/-- When nothing is pending, the marked variables are the collected ones. -/
theorem Marking.mem_lower (ht : TrailInvariant s) (h : Marking s index a)
    (h0 : a.pending = 0) {l : Lit}
    (hseen : (a.solver.var l.var).seen = true) (hl : s.value l = .no) : l ∈ a.lower := by
  obtain ⟨x, hxv, hx, -, hlow, hcurrent⟩ := h.seen hseen
  have hxl : x = l := by
    rcases Lit.eq_or_eq_negate hxv with rfl | he
    · rfl
    · rw [he, value_negate, hl] at hx
      cases hx
  subst hxl
  refine hlow (Nat.lt_of_le_of_ne ?_ fun he => ?_)
  · obtain ⟨i, hi⟩ := ht.exists_position (s.value_eq_no.mp hx)
    rw [← levelOf_negate]
    exact ht.levelOf_le hi
  · have hnot :=
      List.countP_eq_zero.mp (h.pending.symm.trans h0) _ (mem_take_trail.mpr (hcurrent he))
    exact absurd (by simp [isPending, levelOf_negate, he, hseen]) hnot

/-- Without the mark of a true literal, a model still falsifies that literal or satisfies a marked
one. -/
theorem Implied.unmark (h : Implied s a) {p : Lit} (hp : s.value p = .yes) {α : Nat → Bool}
    (hα : s.Models α) : ¬ p.Holds α ∨
      ∃ l : Lit, ((a.solver.setSeen p.var false).var l.var).seen = true ∧ s.value l = .no ∧
      l.Holds α := by
  obtain ⟨l, hl, hno, hlα⟩ := h α hα
  by_cases hpl : p.var = l.var
  · refine .inl ?_
    have hnp : l = p.negate := by
      rcases Lit.eq_or_eq_negate hpl.symm with rfl | he
      · rw [hp] at hno
        cases hno
      · exact he
    rwa [hnp, Lit.holds_negate] at hlα
  · exact .inr ⟨l, by rwa [seen_setSeen_of_ne hpl], hno, hlα⟩

theorem pending_markAll_pos (ht : TrailInvariant s) {lits : List Lit} (h : Marking s index a)
    (hlits : ∀ l ∈ lits, Markable s index l) (hpos : 0 < a.pending) :
    0 < (markAll a lits).pending := by
  obtain ⟨hall, hkept, -⟩ := markAll_spec ht h hlits
  refine Nat.lt_of_lt_of_le hpos ?_
  rw [h.pending, hall.pending]
  refine List.countP_mono_left fun x _ hx => ?_
  rw [isPending, Bool.and_eq_true] at hx ⊢
  exact ⟨hkept hx.1, hx.2⟩

/-- The literals of a clause that are false in a model's view of level zero are no part of its
truth. -/
theorem implied_markAll (ht : TrailInvariant s) {lits : List Lit} (h : Marking s index a)
    (hlits : ∀ l ∈ lits, Markable s index l)
    (hclause : ∀ α, s.Models α → Satisfies α lits ∨
      ∃ l : Lit, (a.solver.var l.var).seen = true ∧ s.value l = .no ∧ l.Holds α) :
    Implied s (markAll a lits) := by
  obtain ⟨-, hkept, hmarked⟩ := markAll_spec ht h hlits
  intro α hα
  rcases hclause α hα with ⟨l, hl, hlα⟩ | ⟨l, hl, hno, hlα⟩
  · refine ⟨l, (hmarked l hl).resolve_left fun h0 => ?_, (hlits l hl).1, hlα⟩
    obtain ⟨i, hi⟩ := ht.exists_position (s.value_eq_no.mp (hlits l hl).1)
    exact Lit.holds_negate.mp (hα.root hi (by rwa [levelOf_negate])) hlα
  · exact ⟨l, hkept hl, hno, hlα⟩

theorem markable_reason (hwf : WellFormed s) {p : Lit} {r : Nat} (hp : s.trail[index]? = some p)
    (hr : (s.var p.var).reason = some r) : ∀ l ∈ (s.clause r).tail, Markable s index l := by
  obtain ⟨-, -, htail⟩ := hwf.reasons.implied hp hr
  intro l hl
  obtain ⟨j, hj, hpj⟩ := htail l hl
  exact ⟨s.value_eq_no.mpr (hwf.trail.value_of_getElem? hpj), fun _ => ⟨j, hj, hpj⟩⟩

/-- Resolution: the other literals of a reason take the place of the literal that it implies. -/
theorem Implied.resolve (h : Implied s a) (hwf : WellFormed s) {p : Lit} {r : Nat}
    (hp : s.trail[index]? = some p) (hr : (s.var p.var).reason = some r) {α : Nat → Bool}
    (hα : s.Models α) :
    Satisfies α (s.clause r).tail ∨
      ∃ l : Lit, ((a.solver.setSeen p.var false).var l.var).seen = true ∧ s.value l = .no ∧
      l.Holds α := by
  obtain ⟨hrlt, hfirst, -⟩ := hwf.reasons.implied hp hr
  rcases h.unmark (hwf.trail.value_of_getElem? hp) hα with hp' | hrest
  · obtain ⟨l, hl, hlα⟩ := hα.clause hrlt
    rcases List.mem_cons.mp hl with rfl | hl
    · rw [hfirst] at hlα
      exact absurd hlα hp'
    · exact .inl ⟨l, hl, hlα⟩
  · exact .inr hrest

/-- At the only pending literal the walk ends. -/
theorem Marking.implicationPoint (ht : TrailInvariant s) (h : Marking s (index + 1) a)
    (himplied : Implied s a) {p : Lit} (hp : s.trail[index]? = some p)
    (hseen : (a.solver.var p.var).seen = true) (hlevel : s.levelOf p = s.level)
    (hone : a.pending = 1) :
    ImplicationPoint s (⟨a.solver.setSeen p.var false, a.lower, 0⟩, p, .implicationPoint) := by
  have hend := h.unmark ht hp hseen hlevel 0 hone
  have hyes := ht.value_of_getElem? hp
  refine ⟨rfl, hend.bumped, hyes, hlevel, fun {v} hv => ?_, fun l hl => (hend.lower l hl).2,
    hend.distinct, fun α hα => ?_⟩
  · obtain ⟨l, rfl, hl, -⟩ := hend.seen hv
    exact ⟨l, hend.mem_lower ht rfl hv hl, rfl⟩
  · rcases himplied.unmark hyes hα with hp' | ⟨l, hl, hno, hlα⟩
    · exact .inl hp'
    · exact .inr ⟨l, Array.mem_toList_iff.mpr (hend.mem_lower ht rfl hl hno), hlα⟩

theorem walk_spec (hwf : WellFormed s) (h : Marking s index a) (himplied : Implied s a)
    (hpos : 0 < a.pending) : ImplicationPoint s (walk index a) := by
  induction index generalizing a with
  | zero =>
      have hpending := h.pending
      rw [List.take_zero, List.countP_nil] at hpending
      omega
  | succ index ih =>
      obtain ⟨s', lower, pending⟩ := a
      obtain ⟨p, hp⟩ : ∃ p, s.trail[index]? = some p := ⟨_, Array.getElem?_eq_getElem h.index_le⟩
      have hget : s'.trail.getD index default = p := by
        rw [h.bumped.trail, Array.getD_eq_getD_getElem?, hp, Option.getD_some]
      rw [walk, hget]
      dsimp only
      split
      swap
      · rename_i hseen
        exact ih (h.pass hp (by simpa using hseen)) himplied hpos
      rename_i hseen
      have hlevel := h.level_of_seen hwf.trail hpos hp
      match pending, hpos with
      | 1, _ => exact h.implicationPoint hwf.trail himplied hp hseen hlevel rfl
      | pending + 2, _ =>
          have hmarking := h.unmark hwf.trail hp hseen hlevel (pending + 1) rfl
          have hreason : (s'.var p.var).reason = (s.var p.var).reason := h.bumped.reason_var p.var
          dsimp only
          rw [hreason]
          cases hr : (s.var p.var).reason with
          | none =>
              have hp0 : 0 < s.levelOf p := by
                obtain ⟨l, hlv, -, hl, -⟩ := h.seen hseen
                rwa [levelOf, hlv] at hl
              have hzero :=
                pending_eq_zero (a := ⟨s'.setSeen p.var false, lower, pending + 1⟩) hwf hp
                  hlevel hp0 hr
              have hcount := hmarking.pending
              rw [hzero] at hcount
              cases hcount
          | some r =>
              dsimp only
              have hclause : (s'.setSeen p.var false).clause r = s.clause r :=
                hmarking.bumped.clause r
              rw [hclause]
              have hmarkable := markable_reason hwf hp hr
              exact ih (markAll_spec hwf.trail hmarking hmarkable).1
                (implied_markAll hwf.trail hmarking hmarkable fun α hα =>
                  himplied.resolve hwf hp hr hα)
                (pending_markAll_pos hwf.trail hmarking hmarkable (Nat.succ_pos _))

/-! ## The lesson -/

theorem argmax_lt (key : Nat → Nat) {n : Nat} (hn : 0 < n) : argmax key n < n := by
  have hfold : ∀ (xs : List Nat) (b : Nat), b < n → (∀ x ∈ xs, x < n) →
      xs.foldl (fun best i => if key best < key i then i else best) b < n := by
    intro xs
    induction xs with
    | nil => exact fun b hb _ => hb
    | cons x xs ih =>
        intro b hb hxs
        refine ih _ ?_ fun y hy => hxs y (List.mem_cons_of_mem _ hy)
        change (if key b < key x then x else b) < n
        split
        · exact hxs x List.mem_cons_self
        · exact hb
  exact hfold _ 0 hn fun x hx => List.mem_range.mp hx

theorem le_argmax (key : Nat → Nat) {n i : Nat} (hi : i < n) : key i ≤ key (argmax key n) := by
  have hfold : ∀ (xs : List Nat) (b : Nat),
      key b ≤ key (xs.foldl (fun best i => if key best < key i then i else best) b) ∧
        ∀ x ∈ xs,
          key x ≤ key (xs.foldl (fun best i => if key best < key i then i else best) b) := by
    intro xs
    induction xs with
    | nil => exact fun b => ⟨Nat.le_refl _, fun x hx => absurd hx List.not_mem_nil⟩
    | cons x xs ih =>
        intro b
        obtain ⟨hb, hxs⟩ := ih (if key b < key x then x else b)
        rw [List.foldl_cons]
        have hstep : key b ≤ key (if key b < key x then x else b) ∧
            key x ≤ key (if key b < key x then x else b) := by
          split <;> omega
        refine ⟨hstep.1.trans hb, fun y hy => ?_⟩
        rcases List.mem_cons.mp hy with rfl | hy
        · exact hstep.2.trans hb
        · exact hxs y hy
  exact (hfold _ 0).2 i (List.mem_range.mpr hi)

/-- What is known of a lesson: it is false and follows from the clauses; its first literal is the
only one of the current level, and the search returns to the highest level among the others. -/
structure Taught (s : Solver) (lesson : Lesson) : Prop where
  value : s.value lesson.asserting = .no
  level : s.levelOf lesson.asserting = s.level
  others : ∀ l ∈ lesson.others, s.value l = .no ∧ 0 < s.levelOf l ∧ s.levelOf l ≤ lesson.backjump
  distinct : ((lesson.asserting :: lesson.others).map Lit.var).Nodup
  backjump_lt : lesson.backjump < s.level
  unit : lesson.others = [] → lesson.backjump = 0
  second : ∀ {l rest}, lesson.others = l :: rest → s.levelOf l = lesson.backjump
  implied : ∀ α, s.Models α → Satisfies α (lesson.asserting :: lesson.others)

theorem swap_front_perm {α : Type} (xs : Array α) (i : Nat) :
    (xs.swapIfInBounds 0 i).toList.Perm xs.toList := by
  rw [Array.swapIfInBounds_def]
  split
  · split
    · exact Array.perm_iff_toList_perm.mp (Array.swap_perm _ _)
    · exact .refl _
  · exact .refl _

theorem levelOf_le_front {lower : Array Lit} {l : Lit} {rest : List Lit}
    (h :
      (lower.swapIfInBounds 0
        (argmax (fun i => s.levelOf (lower.getD i default)) lower.size)).toList =
      l :: rest) : ∀ x ∈ lower, s.levelOf x ≤ s.levelOf l := by
  have hpos : 0 < lower.size := by
    rw [← Array.length_toList, ← (swap_front_perm lower _).length_eq, h]
    exact Nat.succ_pos _
  have hlt := argmax_lt (fun i => s.levelOf (lower.getD i default)) hpos
  have hle :=
    fun {i} => le_argmax (fun i => s.levelOf (lower.getD i default)) (n := lower.size) (i := i)
  generalize argmax (fun i => s.levelOf (lower.getD i default)) lower.size = best at h hlt hle
  have hl : l = lower.getD best default := by
    have hhead : (lower.swapIfInBounds 0 best).toList[0]? = some l := by
      rw [h]
      rfl
    rw [Array.getElem?_toList, Array.getElem?_eq_getElem (by simpa using hpos),
      Array.getElem_swapIfInBounds_left hlt] at hhead
    rw [Array.getD_eq_getD_getElem?, Array.getElem?_eq_getElem hlt, Option.getD_some]
    exact (Option.some.inj hhead).symm
  intro x hx
  obtain ⟨i, hi, rfl⟩ := Array.mem_iff_getElem.mp hx
  have hle := hle hi
  rw [← hl] at hle
  simpa only [Array.getD_eq_getD_getElem?, Array.getElem?_eq_getElem hi, Option.getD_some] using hle

theorem lesson_spec (hlevel : 0 < s.level) {p : Lit} {e : End}
    (h : ImplicationPoint s (a, p, e)) {s' : Solver} (hs' : Bumped s s') :
    Taught s (lesson s' p a.lower) := by
  have hlevelOf : ∀ l, s'.levelOf l = s.levelOf l := fun l => hs'.level_var l.var
  have hvalue : s.value p.negate = .no := by
    rw [value_negate, h.value]
    rfl
  have hp : ∀ l ∈ a.lower, l.var ≠ p.var := by
    intro l hl he
    have hlt := (h.lower l hl).2.2
    rw [levelOf, he] at hlt
    exact absurd h.level (Nat.ne_of_lt hlt)
  rw [lesson]
  have hperm :=
    swap_front_perm a.lower (argmax (fun i => s'.levelOf (a.lower.getD i default)) a.lower.size)
  split
  · rename_i hlist
    rw [hlist] at hperm
    have hempty : a.lower.toList = [] := hperm.symm.eq_nil
    refine ⟨hvalue, by rw [levelOf_negate]; exact h.level, fun l hl => absurd hl List.not_mem_nil,
      by simp, hlevel, fun _ => rfl, fun hc => (by cases hc), fun α hα => ?_⟩
    rcases h.implied α hα with hp' | ⟨l, hl, -⟩
    · exact ⟨p.negate, List.mem_cons_self, Lit.holds_negate.mpr hp'⟩
    · rw [hempty] at hl
      cases hl
  · rename_i l rest hlist
    rw [hlist] at hperm
    have hmem : ∀ {x}, x ∈ l :: rest → x ∈ a.lower := fun hx =>
      Array.mem_toList_iff.mp (hperm.mem_iff.mp hx)
    refine ⟨hvalue,
      by rw [levelOf_negate]; exact h.level, fun x hx => ?_, ?_, ?_, fun hc => (by cases hc),
      fun hc => ?_, fun α hα => ?_⟩
    · rw [← hlevelOf x]
      exact ⟨(h.lower x (hmem hx)).1, hlevelOf x ▸ (h.lower x (hmem hx)).2.1,
        levelOf_le_front hlist x (hmem hx)⟩
    · rw [List.map_cons, List.nodup_cons]
      refine ⟨fun hc => ?_, (hperm.map Lit.var).nodup_iff.mpr h.distinct⟩
      obtain ⟨x, hx, he⟩ := List.mem_map.mp hc
      rw [Lit.var_negate] at he
      exact hp x (hmem hx) he
    · dsimp only
      rw [hlevelOf]
      exact (h.lower l (hmem List.mem_cons_self)).2.2
    · cases hc
      exact (hlevelOf _).symm
    · rcases h.implied α hα with hp' | ⟨x, hx, hxα⟩
      · exact ⟨p.negate, List.mem_cons_self, Lit.holds_negate.mpr hp'⟩
      · exact ⟨x, List.mem_cons_of_mem _ (hperm.mem_iff.mpr hx), hxα⟩

/-- A clause can only become false at the current level: otherwise its watches would have been
noticed. -/
theorem exists_current {c : Nat} (ht : TrailInvariant s) (hc : Conflict s c) :
    ∃ l ∈ (s.clause c).lits, s.levelOf l = s.level := by
  have hfirst := hc.value _ (List.mem_cons_self (a := (s.clause c).first))
  have hsecond := hc.value (s.clause c).second (List.mem_cons_of_mem _ List.mem_cons_self)
  refine ⟨(s.clause c).first, List.mem_cons_self, ?_⟩
  obtain ⟨i, hi⟩ := ht.exists_position (s.value_eq_no.mp hfirst)
  have hle := ht.levelOf_le hi
  rw [levelOf_negate] at hle
  by_contra hne
  have hlt : s.levelOf (s.clause c).first < s.level := Nat.lt_of_le_of_ne hle hne
  have hi' : i < s.start (s.levelOf (s.clause c).first) :=
    (ht.lt_start hlt hi).mpr (Nat.le_of_eq (s.levelOf_negate _))
  have hyes := ((hc.settled hlt c hc.lt).1 i hi' hi).1
  rw [hsecond] at hyes
  cases hyes

theorem marking_start (hwf : WellFormed s) : Marking s s.trail.size ⟨s, #[], 0⟩ := by
  refine ⟨.refl s, Nat.le_refl _, fun {v} hv => ?_, fun l hl => (by simp at hl), List.nodup_nil, ?_⟩
  · rw [hwf.unmarked v] at hv
    cases hv
  · refine (List.countP_eq_zero.mpr fun l _ => ?_).symm
    simp [isPending, hwf.unmarked l.var]

theorem trace_spec {c : Nat} (hwf : WellFormed s) (hlevel : 0 < s.level) (hc : Conflict s c) :
    ImplicationPoint s (s.trace c) := by
  have hstart := marking_start hwf
  have hmarkable : ∀ l ∈ (s.clause c).lits, Markable s s.trail.size l := by
    intro l hl
    refine ⟨hc.value l hl, fun _ => ?_⟩
    obtain ⟨i, hi⟩ := hwf.trail.exists_position (s.value_eq_no.mp (hc.value l hl))
    exact ⟨i, lt_size_of_getElem? hi, hi⟩
  obtain ⟨hall, -, hmarked⟩ := markAll_spec hwf.trail hstart hmarkable
  refine walk_spec hwf hall (implied_markAll hwf.trail hstart hmarkable fun α hα =>
    .inl (hα.clause hc.lt)) ?_
  obtain ⟨l, hl, hcurrent⟩ := exists_current hwf.trail hc
  have hseen := (hmarked l hl).resolve_left (by omega)
  obtain ⟨i, hi⟩ := hwf.trail.exists_position (s.value_eq_no.mp (hc.value l hl))
  rw [hall.pending]
  refine List.countP_pos_iff.mpr
    ⟨l.negate, ?_, by simp [isPending, levelOf_negate, hcurrent, hseen]⟩
  rw [List.take_of_length_le (Nat.le_of_eq Array.length_toList)]
  exact Array.mem_toList_iff.mpr (Array.mem_iff_getElem?.mpr ⟨i, hi⟩)

end Analysis

namespace Solver

theorem seen_foldl_setSeen (ls : List Lit) (s : Solver) (hls : ∀ l ∈ ls, l.var < s.numVars) :
    Bumped s (ls.foldl (fun s l => s.setSeen l.var false) s) ∧
      ∀ v, ((ls.foldl (fun s l => s.setSeen l.var false) s).var v).seen = true →
        (s.var v).seen = true ∧ ∀ l ∈ ls, l.var ≠ v := by
  induction ls generalizing s with
  | nil => exact ⟨.refl s, fun v hv => ⟨hv, fun l hl => absurd hl List.not_mem_nil⟩⟩
  | cons x ls ih =>
      have hx := bumped_setSeen s x.var false
      obtain ⟨hbumped, hseen⟩ := ih (s.setSeen x.var false) fun l hl => by
        rw [hx.numVars]
        exact hls l (List.mem_cons_of_mem _ hl)
      refine ⟨hx.trans hbumped, fun v hv => ?_⟩
      obtain ⟨hv, hrest⟩ := hseen v hv
      by_cases hxv : x.var = v
      · rw [← hxv, seen_setSeen_self (hls x List.mem_cons_self)] at hv
        cases hv
      · rw [seen_setSeen_of_ne hxv] at hv
        refine ⟨hv, fun l hl => ?_⟩
        rcases List.mem_cons.mp hl with rfl | hl
        · exact hxv
        · exact hrest l hl

/-- Analysis changes nothing but activities and ends with a sound lesson. -/
theorem analyze_spec {s : Solver} {c : Nat} (hwf : WellFormed s) (hlevel : 0 < s.level)
    (hc : Conflict s c) :
    (∃ activity increment, (s.analyze c).1 =
      { s with activity := activity, increment := increment }) ∧
      Analysis.Taught s (s.analyze c).2 := by
  have htrace := Analysis.trace_spec hwf hlevel hc
  have hanalyze : s.analyze c =
      ((s.trace c).1.lower.foldl (fun s l => s.setSeen l.var false) (s.trace c).1.solver,
        Analysis.lesson
        ((s.trace c).1.lower.foldl (fun s l => s.setSeen l.var false) (s.trace c).1.solver)
          (s.trace c).2.1 (s.trace c).1.lower) := rfl
  rw [hanalyze]
  clear hanalyze
  generalize s.trace c = out at htrace ⊢
  obtain ⟨⟨s', lower, pending⟩, p, e⟩ := out
  simp only [← Array.foldl_toList]
  have hlt : ∀ l ∈ lower.toList, l.var < s'.numVars := by
    intro l hl
    have hno := (htrace.lower l (Array.mem_toList_iff.mp hl)).1
    have hlt := s.lt_of_value_eq_yes (s.value_eq_no.mp hno)
    rw [Lit.var_negate] at hlt
    rw [htrace.bumped.numVars]
    exact hlt
  obtain ⟨hbumped, hseen⟩ := seen_foldl_setSeen lower.toList s' hlt
  have hunmarked : Unmarked (lower.toList.foldl (fun s l => s.setSeen l.var false) s') := by
    intro v
    by_contra hv
    rw [Bool.not_eq_false] at hv
    obtain ⟨hv, hnot⟩ := hseen v hv
    obtain ⟨l, hl, hlv⟩ := htrace.seen hv
    exact hnot l (Array.mem_toList_iff.mpr hl) hlv
  exact ⟨⟨_, _, (htrace.bumped.trans hbumped).eq_of_unmarked hwf.unmarked hunmarked⟩,
    Analysis.lesson_spec hlevel htrace (htrace.bumped.trans hbumped)⟩

end Solver

end ModelExpansion.Sat
