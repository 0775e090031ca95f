import ModelExpansion.Proofs.Sat.Moments

/-! # What the events tell
Replaying the recorded events gives the assignment of the solver with the level of every variable.
No event comes unexpectedly: only unassigned variables are assigned, a level is opened only next to
the last one, and the search returns only to lower levels. -/

namespace ModelExpansion.Sat

/-! ## Replaying events -/

namespace Event

def apply (entries : List (Lit × Nat)) : Event → List (Lit × Nat)
  | assign l k => entries ++ [(l, k)]
  | backtrack k => entries.filter fun e => e.2 ≤ k

/-- The level at which the search is after an event. -/
def level : Event → Nat
  | assign _ k => k
  | backtrack k => k

end Event

/-- The literals that are assigned after some events, with their levels. -/
def replay (events : List Event) : List (Lit × Nat) := events.foldl Event.apply []

/-- The level of the last event, zero before the first one. -/
def lastLevel (events : List Event) : Nat := (events.getLast?.map Event.level).getD 0

/-- Whether an event may come next. -/
def Event.Follows (past : List Event) : Event → Prop
  | assign l k =>
    (∀ e ∈ replay past, e.1.var ≠ l.var) ∧ (k = lastLevel past ∨ k = lastLevel past + 1)
  | backtrack k => k < lastLevel past

/-- Each event follows those before it. -/
def Orderly (events : List Event) : Prop :=
  ∀ past e rest, events = past ++ e :: rest → e.Follows past

variable {events : List Event} {e : Event}

@[simp] theorem replay_append_singleton : replay (events ++ [e]) = e.apply (replay events) := by
  rw [replay, List.foldl_append]
  rfl

@[simp] theorem lastLevel_append_singleton : lastLevel (events ++ [e]) = e.level := by
  simp [lastLevel]

theorem orderly_nil : Orderly [] := fun past e rest h => by simp at h

theorem orderly_append_singleton (h : Orderly events) (he : e.Follows events) :
    Orderly (events ++ [e]) := by
  intro past x rest heq
  rcases rest.eq_nil_or_concat with rfl | ⟨rest, y, rfl⟩
  · obtain ⟨rfl, hx⟩ := List.append_inj' heq rfl
    obtain rfl := List.singleton_inj.mp hx
    exact he
  · rw [List.concat_eq_append, ← List.cons_append, ← List.append_assoc] at heq
    exact h past x rest (List.append_inj' heq rfl).1

/-- A list whose first `n` members are those with a property. -/
theorem filter_eq_take {α : Type} {xs : List α} {p : α → Bool} {n : Nat}
    (h : ∀ (i : Nat) (x : α), xs[i]? = some x → (i < n ↔ p x = true)) :
    xs.filter p = xs.take n := by
  induction xs generalizing n with
  | nil => simp
  | cons x xs ih =>
      have hx := h 0 x rfl
      cases n with
      | zero =>
          rw [List.take_zero, List.filter_eq_nil_iff]
          intro y hy
          obtain ⟨i, hi⟩ := List.mem_iff_getElem?.mp hy
          exact fun hp => absurd ((h i y hi).mpr hp) (Nat.not_lt_zero i)
      | succ n =>
          rw [List.filter_cons_of_pos (hx.mp (Nat.succ_pos n)), List.take_succ_cons]
          refine congrArg (x :: ·) (ih fun i y hi => ?_)
          rw [← h (i + 1) y (by simpa using hi), Nat.succ_lt_succ_iff]

namespace Solver

/-! ## The trail as the events show it -/

/-- The true literals in the order of assignment, with their levels. -/
def entries (s : Solver) : List (Lit × Nat) := s.trail.toList.map fun l => (l, s.levelOf l)

/-- The events give a true picture of the solver. -/
structure Mirrored (s : Solver) : Prop where
  orderly : Orderly s.monitor.log.toList
  replayed : replay s.monitor.log.toList = s.entries
  level : lastLevel s.monitor.log.toList = s.level

variable {s s' : Solver} {l : Lit} {r : Option Nat}

theorem Mirrored.congr (h : Mirrored s) (hlog : s'.monitor.log = s.monitor.log)
    (htrail : s'.trail = s.trail)
    (hstarts : s'.levelStarts = s.levelStarts) (hlevel : s'.levelOf = s.levelOf) : Mirrored s' := by
  have hentries : s'.entries = s.entries := by rw [entries, entries, htrail, hlevel]
  refine ⟨?_, ?_, ?_⟩
  · rw [hlog]
    exact h.orderly
  · rw [hlog, hentries]
    exact h.replayed
  · rw [hlog, Solver.level, hstarts]
    exact h.level

theorem log_assign :
    (s.assign l r).monitor.log.toList = s.monitor.log.toList ++ [.assign l s.level] :=
  Array.toList_push

/-- The trail of an assignment has the levels that the literals had before. -/
theorem entries_assign (ht : ∀ x ∈ s.trail, s.value x = .yes) (hu : s.value l = .unknown)
    (hv : l.var < s.numVars) :
    (s.assign l r).entries = s.entries ++ [(l, s.level)] := by
  rw [entries, trail_assign, Array.toList_push, List.map_append, List.map_singleton,
    levelOf_assign_self hv, entries]
  refine congrArg (· ++ [(l, s.level)]) (List.map_congr_left fun x hx => ?_)
  have hx := ht x (Array.mem_toList_iff.mp hx)
  rw [(extends_assign (r := r) hu).levelOf (by simp [hx])]

theorem mirrored_assign (horderly : Orderly s.monitor.log.toList)
    (hreplay : replay s.monitor.log.toList = s.entries)
    (hlevel :
      s.level = lastLevel s.monitor.log.toList ∨ s.level = lastLevel s.monitor.log.toList + 1)
    (ht : ∀ x ∈ s.trail, s.value x = .yes) (hu : s.value l = .unknown) (hv : l.var < s.numVars) :
    Mirrored (s.assign l r) := by
  have hunassigned : ∀ e ∈ replay s.monitor.log.toList, e.1.var ≠ l.var := by
    intro e he hvar
    rw [hreplay] at he
    obtain ⟨x, hx, rfl⟩ := List.mem_map.mp he
    dsimp only at hvar
    have hyes := s.value_eq_yes.mp (ht x (Array.mem_toList_iff.mp hx))
    rw [hvar, s.value_eq_unknown.mp hu] at hyes
    cases hp : x.positive <;> simp [hp, Truth.ofBool] at hyes
  refine ⟨?_, ?_, ?_⟩
  · rw [log_assign]
    exact orderly_append_singleton horderly ⟨hunassigned, hlevel⟩
  · rw [log_assign, replay_append_singleton, hreplay, entries_assign ht hu hv]
    rfl
  · rw [log_assign, lastLevel_append_singleton]
    rfl

theorem TrailInvariant.value_of_mem (h : TrailInvariant s) : ∀ x ∈ s.trail, s.value x = .yes :=
  fun x hx => by
  obtain ⟨i, hi⟩ := Array.mem_iff_getElem?.mp hx
  exact h.value_of_getElem? hi

theorem Mirrored.assign (h : Mirrored s) (ht : TrailInvariant s) (hu : s.value l = .unknown)
    (hv : l.var < s.numVars) :
    Mirrored (s.assign l r) :=
  mirrored_assign h.orderly h.replayed (.inl h.level.symm) ht.value_of_mem hu hv

theorem Mirrored.decide (h : Mirrored s) (ht : TrailInvariant s) (hu : s.value l = .unknown)
    (hv : l.var < s.numVars) :
    Mirrored (s.decide l) := by
  rw [decide_eq]
  refine mirrored_assign (s := s.openLevel) h.orderly h.replayed (.inr ?_) ht.value_of_mem hu hv
  rw [level_openLevel]
  exact congrArg (· + 1) h.level.symm

theorem entries_cancelUntil (h : TrailInvariant s) {k : Nat} (hk : k < s.level) :
    (s.cancelUntil k).entries = s.entries.filter fun e => e.2 ≤ k := by
  have hlevels : (s.cancelUntil k).levelOf = s.levelOf := funext levelOf_cancelUntil
  have htake : s.entries.filter (fun e => e.2 ≤ k) = s.entries.take (s.start k) := by
    refine filter_eq_take fun i e he => ?_
    rw [entries, List.getElem?_map, Option.map_eq_some_iff] at he
    obtain ⟨l, hl, rfl⟩ := he
    rw [h.lt_start hk (by simpa using hl), decide_eq_true_iff]
  rw [htake, entries, entries, hlevels, trail_cancelUntil hk, ← List.map_take,
    Array.take_eq_extract, Array.toList_extract, List.extract_eq_take_drop, List.drop_zero,
    Nat.sub_zero]

theorem Mirrored.cancelUntil (h : Mirrored s) (ht : TrailInvariant s) (k : Nat) :
    Mirrored (s.cancelUntil k) := by
  by_cases hk : k < s.level
  swap
  · rwa [cancelUntil_of_le (Nat.le_of_not_lt hk)]
  have hlog : (s.cancelUntil k).monitor.log.toList = s.monitor.log.toList ++ [.backtrack k] := by
    rw [Solver.cancelUntil, if_neg (Nat.not_le_of_lt hk)]
    exact Array.toList_push
  refine ⟨?_, ?_, ?_⟩
  · rw [hlog]
    refine orderly_append_singleton h.orderly ?_
    change k < lastLevel s.monitor.log.toList
    rwa [h.level]
  · rw [hlog, replay_append_singleton, h.replayed, entries_cancelUntil ht hk]
    rfl
  · rw [hlog, lastLevel_append_singleton, level_cancelUntil (Nat.le_of_lt hk)]
    rfl

theorem Mirrored.newVar (h : Mirrored s) : Mirrored s.newVar :=
  h.congr rfl rfl rfl (funext s.levelOf_newVar)

/-! ## Propagation -/

theorem Mirrored.visit {falsified : Lit} {q : Nat} {rest : List Nat} {kept : Array Nat}
    (h : Mirrored s)
    (hv : Visiting falsified q rest kept s) : Mirrored (visit falsified rest kept s).1 := by
  induction rest generalizing kept s with
  | nil => exact h
  | cons index rest ih =>
      obtain ⟨h₁, hturn⟩ := hv.turn _ rfl
      have horient : Mirrored (s.modifyClause index (Clause.orient falsified)) :=
        h.congr rfl rfl rfl rfl
      have hvar := h₁.wellFormed.clauses.var_lt h₁.next.1 _ (List.mem_cons_self ..)
      generalize s.modifyClause index (Clause.orient falsified) = s₁ at h₁ hturn horient hvar
      generalize Solver.visit falsified (index :: rest) kept s = out at hturn ⊢
      cases hturn with
      | satisfied _ later => exact ih horient later
      | moved _ _ later => exact ih (horient.congr rfl rfl rfl rfl) later
      | conflict => exact horient
      | unit _ hu _ later => exact ih (horient.assign h₁.trail hu hvar) later

theorem Mirrored.propagateUpTo (h : Mirrored s) (hwf : WellFormed s) (hs : s.Settled s.queueHead)
    (count : Nat) :
    Mirrored (propagateUpTo count s).1 := by
  induction count generalizing s with
  | zero => exact h
  | succ count ih =>
      have hround := propagateUpTo_round count s
      generalize Solver.propagateUpTo (count + 1) s = out at hround ⊢
      have hdequeued : ∀ p, Mirrored (s.dequeued p) := fun p => h.congr rfl rfl rfl rfl
      cases hround with
      | done => exact h
      | @passed p s' kept hp hvisit =>
          have hvisited := (hdequeued p).visit (visiting_dequeued hwf hs hp)
          rw [hvisit] at hvisited
          exact ih (hvisited.congr rfl rfl rfl rfl) (wellFormed_of_visit hwf hs hp hvisit)
            (settled_of_visit hwf hs hp hvisit rfl)
      | @conflict p s' kept c hp hvisit =>
          have hvisited := (hdequeued p).visit (visiting_dequeued hwf hs hp)
          rw [hvisit] at hvisited
          exact hvisited.congr rfl rfl rfl rfl

theorem Mirrored.propagate (h : Mirrored s) (hr : Search.Ready s) {conflict : Option Nat}
    (hp : s.propagate = (s', conflict)) : Mirrored s' := by
  have hout := h.propagateUpTo hr.wellFormed hr.settled (s.numVars + 1)
  rw [show Solver.propagateUpTo (s.numVars + 1) s = (s', conflict) from hp] at hout
  exact hout

/-! ## Clauses and lessons -/

variable {added : List (List Lit)}

theorem Mirrored.prepare (h : Mirrored s) (hs : s.Represents added) (hinc : s.inconsistent = false)
    (lits : List Lit) : Mirrored ((s.cancelUntil 0).ensureAll lits) :=
  ensureAll_induction (P := Mirrored) (fun _ => Mirrored.newVar)
    (h.cancelUntil (hs.wellFormed hinc).trail 0) lits

theorem Leaves.mirrored {s₁ : Solver} {lits left : List Lit} (hl : Leaves s lits s₁ left)
    (h : Mirrored s) (hs : s.Represents added) : Mirrored s₁ := by
  rw [hl.prepared]
  exact h.prepare hs hl.consistent _

theorem Leaves.mirrored_assign {s₁ : Solver} {lits : List Lit} {l : Lit} (hl : Leaves s lits s₁ [l])
    (h : Mirrored s) (hs : s.Represents added) : Mirrored (s₁.assign l none) :=
  (hl.mirrored h hs).assign (hl.rooted hs).wellFormed.trail (hl.unknown List.mem_cons_self)
    (hl.var_lt List.mem_cons_self)

theorem Insertion.mirrored {lits : List Lit} {out : Solver × Bool} (hi : Insertion s lits out)
    (h : Mirrored s) (hs : s.Represents added) : Mirrored out.1 := by
  cases hi with
  | refused _ => exact h
  | dropped hinc hprepared _ =>
      rw [hprepared]
      exact h.prepare hs hinc _
  | empty hl => exact (hl.mirrored h hs).congr rfl rfl rfl rfl
  | unit hl hp => exact (hl.mirrored_assign h hs).propagate (hl.ready hs) hp
  | conflict hl hp =>
    exact ((hl.mirrored_assign h hs).propagate (hl.ready hs) hp).congr rfl rfl rfl rfl
  | stored hl => exact (hl.mirrored h hs).congr rfl rfl rfl rfl

theorem Mirrored.addClause (h : Mirrored s) (hs : s.Represents added) (lits : List Lit) :
    Mirrored (s.addClause lits).1 := (addClause_insertion s lits).mirrored h hs

theorem Mirrored.learn {lesson : Lesson} (h : Mirrored s) (hwf : WellFormed s)
    (ht : Analysis.Taught s lesson) :
    Mirrored (s.learn lesson) := by
  have hback := h.cancelUntil hwf.trail lesson.backjump
  have hwf' := (hwf.cancelUntil lesson.backjump)
  have hasserting := asserting_cancelUntil hwf.trail ht
  obtain ⟨a, others, k⟩ := lesson
  dsimp only at *
  have hvar := hasserting.var_lt a List.mem_cons_self
  rw [Solver.learn]
  dsimp only
  generalize s.cancelUntil k = t at *
  cases others with
  | nil => exact (hback.assign hwf'.trail hasserting.asserting hvar).congr rfl rfl rfl rfl
  | cons l rest =>
      have hattached : Mirrored (t.attach ⟨a, l, rest.toArray⟩) := hback.congr rfl rfl rfl rfl
      have htrail := (hwf'.attach (c := ⟨a, l, rest.toArray⟩) hasserting.var_lt ht.distinct).trail
      exact (hattached.assign htrail hasserting.asserting hvar).congr rfl rfl rfl rfl

end Solver

/-! ## The search -/

open Solver Search

variable {halt : Stats → Bool} {s s' : Solver} {t t' : Search} {verdict : Option Verdict}
    {added : List (List Lit)}

theorem Search.Derivation.mirrored (h : Derivation halt t t' verdict) (hm : t.solver.Mirrored)
    (hr : Ready t.solver) :
    t'.solver.Mirrored := by
  cases h with
  | refuted hp _ => exact (hm.propagate hr hp).congr rfl rfl rfl rfl
  | @learned s s' c n since limit hp h0 =>
      have hcounted : (countConflict s').Mirrored := (hm.propagate hr hp).congr rfl rfl rfl rfl
      have hc := hr.conflict hp
      have hclash : Clashing (countConflict s') c :=
        ⟨(hr.propagation hp).wellFormed.bookkeeping _ _ _ _ _ _, ⟨hc.lt, hc.value, hc.settled⟩,
          Nat.pos_of_ne_zero h0⟩
      obtain ⟨⟨activity, increment, hsolver⟩, -⟩ :=
        analyze_spec hclash.wellFormed hclash.level hclash.conflict
      refine Mirrored.learn ?_ hclash.wellFormed_analyze hclash.taught
      rw [hsolver]
      exact hcounted.congr rfl rfl rfl rfl
  | stopped hp _ => exact (hm.propagate hr hp).cancelUntil (hr.propagate hp).wellFormed.trail 0
  | @restarted s s' n since limit hp _ _ =>
      have hcounted : (countRestart s').Mirrored := (hm.propagate hr hp).congr rfl rfl rfl rfl
      have hwf : (countRestart s').WellFormed :=
        (hr.propagate hp).wellFormed.bookkeeping _ _ _ _ _ _
      exact hcounted.cancelUntil hwf.trail 0
  | decided hp _ _ hb =>
      obtain ⟨hv, hu⟩ := branch?_eq_some hb
      exact (hm.propagate hr hp).decide (hr.propagate hp).wellFormed.trail hu hv
  | satisfied hp _ _ _ => exact (hm.propagate hr hp).congr rfl rfl rfl rfl

theorem Search.Ends.mirrored {n : Nat} {verdict : Verdict} (h : Ends halt n t s verdict)
    (hm : t.solver.Mirrored) (hr : Ready t.solver) : s.Mirrored := by
  induction h with
  | @answer t t' verdict h =>
      have hd := step_derivation halt t
      rw [h] at hd
      exact hd.mirrored hm hr
  | @step n t t' s verdict h _ ih =>
      have hd := step_derivation halt t
      rw [h] at hd
      exact ih (hd.mirrored hm hr) ((hd.reached hr).ready (by simp)).1

namespace Solver

theorem Mirrored.solve (h : s.Mirrored) (hs : s.Represents added) (halt : Stats → Bool) :
    (s.solve halt).1.Mirrored := by
  obtain ⟨n, hanswers⟩ := exists_answers hs halt
  generalize s.solve halt = out at hanswers ⊢
  obtain ⟨s', verdict⟩ := out
  have hbegun : s.begun.Mirrored := h.congr rfl rfl rfl rfl
  cases hanswers with
  | inconsistent hinc => exact hbegun
  | refuted hinc hp =>
      have hroot := hbegun.cancelUntil (hs.begun.wellFormed hinc).trail 0
      exact (hroot.propagate (ready_root hs hinc) hp).congr rfl rfl rfl rfl
  | searched hinc hp hends =>
      have hroot := hbegun.cancelUntil (hs.begun.wellFormed hinc).trail 0
      exact hends.mirrored (hroot.propagate (ready_root hs hinc) hp)
        ((ready_root hs hinc).propagate hp)

/-! ## Sequences of calls -/

/-- Calls that leave the log to the solver: what is changed from outside is the interrupt flag and
the alarm only. -/
def LeaveLog (s : Solver) : List Call → Prop
  | [] => True
  | call :: calls =>
    (∀ m, call = .monitor m → m.log = s.monitor.log) ∧ (call.perform s).LeaveLog calls

theorem Mirrored.perform {call : Call} (h : s.Mirrored) (hs : s.Represents added)
    (hlog : ∀ m, call = .monitor m → m.log = s.monitor.log) : (call.perform s).Mirrored := by
  cases call with
  | newVar => exact h.newVar
  | addClause lits => exact h.addClause hs lits
  | solve halt => exact h.solve hs halt
  | monitor m => exact h.congr (hlog m rfl) rfl rfl rfl

theorem Mirrored.performAll {calls : List Call} (h : s.Mirrored) (hs : s.Represents added)
    (hcalls : s.LeaveLog calls) : (Call.performAll s calls).Mirrored := by
  induction calls generalizing s added with
  | nil => exact h
  | cons call calls ih => exact ih (h.perform hs hcalls.1) (hs.perform call) hcalls.2

/-- After any calls, the recorded events are in order, and their replay gives the literals that are
true, each with the level at which it was assigned, in the order of the trail. -/
theorem replay_log (config : Config) (monitor : Monitor) (calls : List Call)
    (hlog : monitor.log = #[]) (hcalls : (fresh config monitor).LeaveLog calls) :
    Orderly (reached config monitor calls).monitor.log.toList ∧
      replay (reached config monitor calls).monitor.log.toList =
      (reached config monitor calls).entries ∧
      ∀ l k, (l, k) ∈ replay (reached config monitor calls).monitor.log.toList ↔
        (reached config monitor calls).value l = .yes ∧
        (reached config monitor calls).levelOf l = k := by
  have hfresh : (fresh config monitor).Mirrored := by
    refine ⟨?_, ?_, ?_⟩ <;> rw [show (fresh config monitor).monitor.log = #[] from hlog]
    · exact orderly_nil
    · rfl
    · rfl
  have hmirrored := hfresh.performAll (represents_fresh config monitor) hcalls
  change (reached config monitor calls).Mirrored at hmirrored
  refine ⟨hmirrored.orderly, hmirrored.replayed, fun l k => ?_⟩
  rw [hmirrored.replayed, entries, List.mem_map]
  constructor
  · rintro ⟨x, hx, heq⟩
    cases heq
    exact ⟨(wellFormed_reached config monitor calls).trail.value_of_mem l
      (Array.mem_toList_iff.mp hx), rfl⟩
  · rintro ⟨hyes, rfl⟩
    obtain ⟨i, hi⟩ := (wellFormed_reached config monitor calls).trail.exists_position hyes
    exact ⟨l, Array.mem_toList_iff.mpr (Array.mem_iff_getElem?.mpr ⟨i, hi⟩), rfl⟩

/-- A decision that a clause added later takes back. -/
def revising : List Call := [.newVar, .solve fun _ => false, .addClause [.pos 0]]

/-- The events of the decision, of the return to level zero and of the clause. -/
theorem replay_log_revising : (fresh {} {}).LeaveLog revising ∧
    (reached {} {} revising).monitor.log.toList =
    [.assign (.neg 0) 1, .backtrack 0, .assign (.pos 0) 0] ∧
    Orderly [.assign (.neg 0) 1, .backtrack 0, .assign (.pos 0) 0] ∧
    ∀ l k, (l, k) ∈ replay [.assign (.neg 0) 1, .backtrack 0, .assign (.pos 0) 0] ↔
      (reached {} {} revising).value l = .yes ∧ (reached {} {} revising).levelOf l = k := by
  have hcalls : (fresh {} {}).LeaveLog revising := ⟨nofun, nofun, nofun, trivial⟩
  have hlog : (reached {} {} revising).monitor.log.toList =
      [.assign (.neg 0) 1, .backtrack 0, .assign (.pos 0) 0] := by
    decide
  obtain ⟨horderly, -, hreplay⟩ := replay_log {} {} revising rfl hcalls
  rw [hlog] at horderly hreplay
  exact ⟨hcalls, hlog, horderly, hreplay⟩

end Solver

end ModelExpansion.Sat
