import Mathlib.Tactic.Common
import ModelExpansion.Sat.Enumeration

/-! # Reading a solver after an update
What each elementary update of a solver does to its variables, clauses, watch lists and trail. -/

namespace ModelExpansion.Sat

theorem getD_modify {α : Type} (xs : Array α) (f : α → α) (i j : Nat) (d : α) :
    (xs.modify i f).getD j d = if i = j ∧ j < xs.size then f (xs.getD j d) else xs.getD j d := by
  simp only [Array.getD_eq_getD_getElem?, Array.getElem?_modify]
  by_cases h : i = j
  · subst h
    by_cases hi : i < xs.size <;> simp [hi]
  · simp [h]

theorem getElem?_take {α : Type} (xs : Array α) (k i : Nat) :
    (xs.take k)[i]? = if i < k then xs[i]? else none := by
  simp only [Array.take_eq_extract, Array.getElem?_extract]
  by_cases h : i < k
  · rw [if_pos h]
    by_cases hi : i < xs.size
    · rw [if_pos (by omega), Nat.zero_add]
    · rw [if_neg (by omega), Array.getElem?_eq_none (Nat.le_of_not_lt hi)]
  · rw [if_neg h, if_neg (by omega)]

theorem toList_drop {α : Type} (xs : Array α) (k : Nat) :
    (xs.drop k).toList = xs.toList.drop k := by
  rw [Array.drop_eq_extract, Array.toList_extract, List.extract_eq_take_drop]
  exact List.take_of_length_le (Nat.le_of_eq (by rw [List.length_drop, Array.length_toList]))

theorem getD_push {α : Type} (xs : Array α) (x d : α) (j : Nat) :
    (xs.push x).getD j d = if j = xs.size then x else xs.getD j d := by
  simp only [Array.getD_eq_getD_getElem?, Array.getElem?_push]
  split <;> rfl

/-! ## Truth values of literals -/

namespace Lit

theorem under_eq_yes {l : Lit} {t : Truth} : l.under t = .yes ↔ t = .ofBool l.positive := by
  cases h : l.positive <;> cases t <;> simp [under, h, Truth.withSign, Truth.not, Truth.ofBool]

theorem under_eq_unknown {l : Lit} {t : Truth} : l.under t = .unknown ↔ t = .unknown := by
  cases h : l.positive <;> cases t <;> simp [under, h, Truth.withSign, Truth.not]

theorem under_negate (l : Lit) (t : Truth) : l.negate.under t = (l.under t).not := by
  cases h : l.positive <;> cases t <;> simp [under, h, Truth.withSign, Truth.not]

theorem negate_inj {a b : Lit} : a.negate = b.negate ↔ a = b := by
  constructor
  · intro h
    simpa using congrArg Lit.negate h
  · intro h
    rw [h]

theorem eq_negate_iff {a b : Lit} : a = b.negate ↔ a.negate = b := by
  rw [← negate_inj, negate_negate]

theorem code_lt_of_var_lt {l : Lit} {n : Nat} (h : l.var < n) : l.code < 2 * n := by
  have : l.code / 2 < n := h
  omega

theorem eq_or_eq_negate {a b : Lit} (h : a.var = b.var) : a = b ∨ a = b.negate := by
  cases ha : a.positive <;> cases hb : b.positive <;> simp [eq_iff, h, ha, hb]

end Lit

/-! ## The interrupt flag -/

/-- A later monitor: the flag is no lower, and without an alarm it is as it was. -/
structure Monitor.Follows (m m' : Monitor) : Prop where
  raised : m.raised = true → m'.raised = true
  quiet : m.alarm = none → m'.alarm = none ∧ m'.raised = m.raised

namespace Monitor

theorem Follows.refl (m : Monitor) : Follows m m := ⟨id, fun h => ⟨h, rfl⟩⟩

theorem Follows.trans {m m' m'' : Monitor} (h : Follows m m')
    (h' : Follows m' m'') : Follows m m'' where
  raised hr := h'.raised (h.raised hr)
  quiet hq := by
    obtain ⟨hq', hraised⟩ := h.quiet hq
    obtain ⟨hq'', hraised'⟩ := h'.quiet hq'
    exact ⟨hq'', hraised'.trans hraised⟩

theorem follows_record (m : Monitor) (e : Event) : Follows m (m.record e) where
  raised h := by simp [record, h]
  quiet h := by simp [record, tick, h]

end Monitor

namespace Solver

variable (s : Solver)

theorem value_eq_yes {l : Lit} : s.value l = .yes ↔ (s.var l.var).value = .ofBool l.positive :=
  Lit.under_eq_yes

theorem value_eq_unknown {l : Lit} : s.value l = .unknown ↔ (s.var l.var).value = .unknown :=
  Lit.under_eq_unknown

@[simp] theorem value_negate (l : Lit) : s.value l.negate = (s.value l).not := by
  simp only [value, Lit.var_negate, Lit.under_negate]

theorem value_eq_no {l : Lit} : s.value l = .no ↔ s.value l.negate = .yes := by
  rw [value_negate]
  cases s.value l <;> simp [Truth.not]

theorem levelOf_negate (l : Lit) : s.levelOf l.negate = s.levelOf l := by
  simp only [levelOf, Lit.var_negate]

theorem var_of_le {v : Nat} (h : s.numVars ≤ v) : s.var v = default := by
  simp only [var, Array.getD_eq_getD_getElem?, Array.getElem?_eq_none (by exact h),
    Option.getD_none]

theorem lt_of_value_eq_yes {l : Lit} (h : s.value l = .yes) : l.var < s.numVars := by
  by_contra hle
  rw [value_eq_yes, var_of_le s (Nat.le_of_not_lt hle)] at h
  cases hp : l.positive <;> simp [hp, Truth.ofBool, default] at h

/-! ## Assignment -/

variable (l : Lit) (r : Option Nat)

@[simp] theorem numVars_assign : (s.assign l r).numVars = s.numVars := by
  simp only [numVars, assign, Array.size_modify]

@[simp] theorem trail_assign : (s.assign l r).trail = s.trail.push l := rfl

@[simp] theorem levelStarts_assign : (s.assign l r).levelStarts = s.levelStarts := rfl

@[simp] theorem level_assign : (s.assign l r).level = s.level := rfl

@[simp] theorem queueHead_assign : (s.assign l r).queueHead = s.queueHead := rfl

@[simp] theorem clauses_assign : (s.assign l r).clauses = s.clauses := rfl

@[simp] theorem watches_assign : (s.assign l r).watches = s.watches := rfl

theorem var_assign (v : Nat) :
    (s.assign l r).var v =
      if l.var = v ∧ v < s.numVars then
        { s.var v with value := .ofBool l.positive, level := s.level, reason := r }
      else s.var v :=
  getD_modify _ _ _ _ _

theorem var_assign_of_ne {v : Nat} (h : l.var ≠ v) : (s.assign l r).var v = s.var v := by
  rw [var_assign, if_neg fun hv => h hv.1]

theorem var_assign_self (h : l.var < s.numVars) :
    (s.assign l r).var l.var =
      { s.var l.var with value := .ofBool l.positive, level := s.level, reason := r } := by
  rw [var_assign, if_pos ⟨rfl, h⟩]

@[simp] theorem seen_assign (v : Nat) : ((s.assign l r).var v).seen = (s.var v).seen := by
  rw [var_assign]
  split <;> rfl

/-! ## Backtracking -/

theorem getD_foldl_unassign (ls : List Lit) (vars : Array Variable) (v : Nat) :
    let x := vars.getD v default
    let y := (ls.foldl unassign vars).getD v default
    y.level = x.level ∧ y.seen = x.seen ∧ (v ∉ ls.map Lit.var → y = x) ∧
      (v ∈ ls.map Lit.var → y.value = .unknown) := by
  induction ls generalizing vars with
  | nil => simp
  | cons l ls ih =>
      obtain ⟨hlevel, hseen, hkept, hundone⟩ := ih (unassign vars l)
      have hhead : (unassign vars l).getD v default =
          if l.var = v ∧ v < vars.size then
            { vars.getD v default with value := .unknown, reason := none, phase := l.positive }
          else vars.getD v default := getD_modify _ _ _ _ _
      simp only [List.foldl_cons, List.map_cons, List.mem_cons, not_or]
      refine ⟨?_, ?_, ?_, ?_⟩
      · rw [hlevel, hhead]
        split <;> rfl
      · rw [hseen, hhead]
        split <;> rfl
      · rintro ⟨hv, hls⟩
        rw [hkept hls, hhead, if_neg fun h => hv h.1.symm]
      · intro h
        by_cases hls : v ∈ ls.map Lit.var
        · exact hundone hls
        · have hv : l.var = v := (h.resolve_right hls).symm
          rw [hkept hls, hhead]
          split
          · rfl
          · rename_i hsize
            have : vars.size ≤ v := Nat.le_of_not_lt fun hlt => hsize ⟨hv, hlt⟩
            simp [Array.getD_eq_getD_getElem?, Array.getElem?_eq_none this, default]

/-- Position at which the trail of the levels above `k` begins. -/
def start (k : Nat) : Nat := s.levelStarts.getD k 0

theorem size_foldl_unassign (ls : List Lit) (vars : Array Variable) :
    (ls.foldl unassign vars).size = vars.size := by
  induction ls generalizing vars with
  | nil => rfl
  | cons l ls ih => rw [List.foldl_cons, ih, unassign, Array.size_modify]

section CancelUntil

variable {s} {k : Nat}

theorem cancelUntil_of_le (h : s.level ≤ k) : s.cancelUntil k = s := by
  rw [cancelUntil, if_pos h]

@[simp] theorem clauses_cancelUntil : (s.cancelUntil k).clauses = s.clauses := by
  unfold cancelUntil
  split <;> rfl

@[simp] theorem watches_cancelUntil : (s.cancelUntil k).watches = s.watches := by
  unfold cancelUntil
  split <;> rfl

@[simp] theorem config_cancelUntil : (s.cancelUntil k).config = s.config := by
  unfold cancelUntil
  split <;> rfl

@[simp] theorem stats_cancelUntil : (s.cancelUntil k).stats = s.stats := by
  unfold cancelUntil
  split <;> rfl

@[simp] theorem inconsistent_cancelUntil : (s.cancelUntil k).inconsistent = s.inconsistent := by
  unfold cancelUntil
  split <;> rfl

@[simp] theorem numVars_cancelUntil : (s.cancelUntil k).numVars = s.numVars := by
  unfold cancelUntil
  split
  · rfl
  · simp only [numVars, ← Array.foldl_toList, size_foldl_unassign]

theorem trail_cancelUntil (h : k < s.level) :
    (s.cancelUntil k).trail = s.trail.take (s.start k) := by
  rw [cancelUntil, if_neg (Nat.not_le_of_lt h)]
  simp only [Array.shrink_eq_take, start]

theorem queueHead_cancelUntil (h : k < s.level) :
    (s.cancelUntil k).queueHead = (s.cancelUntil k).trail.size := by
  rw [cancelUntil, if_neg (Nat.not_le_of_lt h)]

theorem levelStarts_cancelUntil (h : k < s.level) :
    (s.cancelUntil k).levelStarts = s.levelStarts.take k := by
  rw [cancelUntil, if_neg (Nat.not_le_of_lt h)]
  simp only [Array.shrink_eq_take]

theorem level_cancelUntil (h : k ≤ s.level) : (s.cancelUntil k).level = k := by
  rcases Nat.eq_or_lt_of_le h with h | h
  · rw [cancelUntil_of_le (Nat.le_of_eq h.symm), h]
  · have hsize : k < s.levelStarts.size := h
    rw [level, levelStarts_cancelUntil h, Array.take_eq_extract, Array.size_extract]
    omega

theorem start_cancelUntil {j : Nat} (h : k ≤ s.level) (hj : j < k) :
    (s.cancelUntil k).start j = s.start j := by
  rcases Nat.eq_or_lt_of_le h with h | h
  · rw [cancelUntil_of_le (Nat.le_of_eq h.symm)]
  · simp only [start, levelStarts_cancelUntil h, Array.getD_eq_getD_getElem?,
      getElem?_take, if_pos hj]

theorem var_cancelUntil (h : k < s.level) (v : Nat) :
    let undone := (s.trail.toList.drop (s.start k)).map Lit.var
    let y := (s.cancelUntil k).var v
    y.level = (s.var v).level ∧ y.seen = (s.var v).seen ∧ (v ∉ undone → y = s.var v) ∧
      (v ∈ undone → y.value = .unknown) := by
  have hvar : (s.cancelUntil k).var v =
      ((s.trail.toList.drop (s.start k)).foldl unassign s.vars).getD v default := by
    rw [cancelUntil, if_neg (Nat.not_le_of_lt h)]
    simp only [var, start, ← Array.foldl_toList, toList_drop]
  simp only [hvar]
  exact getD_foldl_unassign _ _ _

end CancelUntil

/-! ## Clauses and watch lists -/

def watchers : List Nat := (s.watches.getD l.code #[]).toList

section Clauses

variable (index : Nat) (f : Clause → Clause)

@[simp] theorem numClauses_modifyClause : (s.modifyClause index f).numClauses = s.numClauses := by
  simp only [numClauses, modifyClause, Array.size_modify]

theorem clause_modifyClause (j : Nat) :
    (s.modifyClause index f).clause j =
      if index = j ∧ j < s.numClauses then f (s.clause j) else s.clause j :=
  getD_modify _ _ _ _ _

@[simp] theorem clause_watch (j : Nat) : (s.watch l index).clause j = s.clause j := rfl

@[simp] theorem numClauses_watch : (s.watch l index).numClauses = s.numClauses := rfl

@[simp] theorem numVars_watch : (s.watch l index).numVars = s.numVars := rfl

theorem watchers_watch (x : Lit) (h : l.negate.code < s.watches.size) :
    (s.watch l index).watchers x =
      if x = l.negate then s.watchers x ++ [index] else s.watchers x := by
  simp only [watchers, watch, getD_modify]
  by_cases hx : x = l.negate
  · subst hx
    simp [h]
  · rw [if_neg fun hc => hx (Lit.code_inj.mp hc.1.symm), if_neg hx]

end Clauses

section Attach

variable (c : Clause)

@[simp] theorem numVars_attach : (s.attach c).numVars = s.numVars := rfl

@[simp] theorem trail_attach : (s.attach c).trail = s.trail := rfl

@[simp] theorem var_attach (v : Nat) : (s.attach c).var v = s.var v := rfl

theorem size_watches_attach : (s.attach c).watches.size = s.watches.size := by
  simp only [attach, watch, Array.size_modify]

theorem numClauses_attach : (s.attach c).numClauses = s.numClauses + 1 := by
  simp only [numClauses, attach, watch, Array.size_push]

theorem clause_attach (j : Nat) :
    (s.attach c).clause j = if j = s.numClauses then c else s.clause j := by
  exact getD_push _ _ _ _

theorem watchers_attach (x : Lit) (h₁ : c.first.negate.code < s.watches.size)
    (h₂ : c.second.negate.code < s.watches.size) :
    (s.attach c).watchers x = s.watchers x ++ (if x = c.first.negate then [s.numClauses] else [])
      ++ (if x = c.second.negate then [s.numClauses] else []) := by
  have hwatch : (s.attach c).watchers x =
      ((s.watch c.first s.numClauses).watch c.second s.numClauses).watchers x := rfl
  rw [hwatch, watchers_watch _ _ _ _ (by simpa [watch] using h₂), watchers_watch _ _ _ _ h₁]
  split <;> split <;> simp

end Attach

end Solver

end ModelExpansion.Sat
