import ModelExpansion.Proofs.Sat.Visit

/-! # Unit propagation
Propagation ends with a conflict or with the whole trail propagated. It keeps the invariants and the
models in either case, and the number of literals it may take is never used up. -/

namespace ModelExpansion

theorem Truth.isYes_iff {t : Truth} : t.isYes = true ↔ t = .yes := by cases t <;> simp [Truth.isYes]

theorem Truth.isNo_iff {t : Truth} : t.isNo = true ↔ t = .no := by cases t <;> simp [Truth.isNo]

namespace Sat

theorem Clause.position?_eq_some {free : Lit → Bool} {c : Clause} {i : Nat}
    (h : c.position? free = some i) : i < c.rest.size ∧ free (c.unwatched i) = true := by
  obtain ⟨-, hi, hfree⟩ := findFrom?_eq_some h
  exact ⟨by omega, hfree⟩

theorem Clause.position?_eq_none {free : Lit → Bool} {c : Clause} (h : c.position? free = none) :
    ∀ x ∈ c.rest, free x = false := by
  intro x hx
  obtain ⟨i, hi, rfl⟩ := Array.mem_iff_getElem.mp hx
  have hfree := findFrom?_eq_none h (Nat.zero_le i) (by omega)
  rwa [Array.getD_eq_getD_getElem?, Array.getElem?_eq_getElem hi] at hfree

namespace Solver

/-- What a visit leaves behind. -/
structure Visited (falsified : Lit) (q : Nat) (s : Solver)
    (out : Solver × Array Nat × Option Nat) : Prop where
  propagates : Propagates s out.1
  wellFormed : WellFormed (out.1.withWatchers falsified.negate out.2.1.toList)
  queueHead : out.1.queueHead = s.queueHead
  settled : out.2.2 = none → out.1.Settled (q + 1)
  conflict : ∀ {c}, out.2.2 = some c →
    c < out.1.numClauses ∧ (∀ l ∈ (out.1.clause c).lits, out.1.value l = .no) ∧ out.1.Settled q

theorem Visited.of_propagates {falsified : Lit} {q : Nat} {s s' : Solver}
    {out : Solver × Array Nat × Option Nat} (h : Visited falsified q s' out) (hs : Propagates s s')
    (hhead : s'.queueHead = s.queueHead) : Visited falsified q s out :=
  ⟨hs.trans h.propagates, h.wellFormed, h.queueHead.trans hhead, h.settled, h.conflict⟩

/-- Without a free literal all but the first are false. -/
theorem Visiting.tail_false {falsified : Lit} {q index : Nat} {rest : List Nat}
    {kept : Array Nat} {s : Solver}
    (h : Visiting falsified q rest kept s) (hsecond : (s.clause index).second = falsified)
    (hposition : (s.clause index).position? (fun l => !(s.value l).isNo) = none) :
    ∀ x ∈ (s.clause index).tail, s.value x = .no := by
  intro x hx
  rcases List.mem_cons.mp hx with rfl | hx
  · rw [hsecond]
    exact h.value_falsified
  · have hnot := Clause.position?_eq_none hposition x (Array.mem_toList_iff.mp hx)
    exact Truth.isNo_iff.mp (by simpa using hnot)

theorem Visiting.conflict {falsified : Lit} {q index : Nat} {rest : List Nat}
    {kept : Array Nat} {s : Solver}
    (h : Visiting falsified q (index :: rest) kept s) (hindex : index < s.numClauses)
    (hno : s.value (s.clause index).first = .no)
    (htail : ∀ x ∈ (s.clause index).tail, s.value x = .no) :
    Visited falsified q s (s, kept.push index ++ rest, some index) := by
  refine ⟨.refl s, ?_, rfl, fun hc => (by cases hc), ?_⟩
  · rw [Array.toList_appendList, Visiting.kept_push_append]
    exact h.wellFormed
  · rintro c hc
    cases hc
    refine ⟨hindex, fun l hl => ?_, h.settled⟩
    rcases List.mem_cons.mp hl with rfl | hl
    · exact hno
    · exact htail l hl

theorem Visiting.unit {falsified : Lit} {q index : Nat} {rest : List Nat}
    {kept : Array Nat} {s : Solver}
    (h : Visiting falsified q (index :: rest) kept s) (hindex : index < s.numClauses)
    (hsecond : (s.clause index).second = falsified) (hfirst : (s.clause index).first ≠ falsified)
    (hu : s.value (s.clause index).first = .unknown)
    (htail : ∀ x ∈ (s.clause index).tail, s.value x = .no) :
    Visiting falsified q rest (kept.push index) (s.assign (s.clause index).first (some index)) := by
  have hv := h.wellFormed.clauses.var_lt hindex _ (List.mem_cons_self ..)
  have hassign := propagates_assign h.trail hu hv hindex rfl htail
  have hlater := h.assign (r := some index) hu hv ⟨hindex, rfl, htail⟩
  refine hlater.keep ⟨?_, ?_⟩
  · exact hassign.guards h.trail (h.guards_first hindex hsecond hfirst _)
      (lt_size_of_getElem? h.position)
  · change Guards _ _ (s.clause index).second (s.clause index).first
    rw [hsecond]
    exact hlater.guards_falsified (value_assign_self hv)

/-! ## One clause of a visit -/

section Visit

variable {s : Solver} {falsified : Lit} {index i : Nat} {rest : List Nat} {kept : Array Nat}

/-- The next clause of a visit is satisfied by its first literal. -/
theorem visit_of_satisfied (s₁ : Solver) (hs₁ : s₁ = s.modifyClause index (Clause.orient falsified))
    (hfirst : (s₁.value (s₁.clause index).first).isYes = true) :
    visit falsified (index :: rest) kept s = visit falsified rest (kept.push index) s₁ := by
  subst hs₁
  rw [visit]
  exact if_pos hfirst

theorem visit_of_position (s₁ : Solver) (hs₁ : s₁ = s.modifyClause index (Clause.orient falsified))
    (hfirst : ¬ (s₁.value (s₁.clause index).first).isYes = true)
    (hposition : (s₁.clause index).position? (fun l => !(s₁.value l).isNo) = some i) :
    visit falsified (index :: rest) kept s = visit falsified rest kept
      ((s₁.modifyClause index (Clause.rewatch i)).watch ((s₁.clause index).unwatched i) index) := by
  subst hs₁
  rw [visit]
  simp only [if_neg hfirst, hposition]

theorem visit_of_conflict (s₁ : Solver) (hs₁ : s₁ = s.modifyClause index (Clause.orient falsified))
    (hfirst : ¬ (s₁.value (s₁.clause index).first).isYes = true)
    (hposition : (s₁.clause index).position? (fun l => !(s₁.value l).isNo) = none)
    (hconflict : (s₁.value (s₁.clause index).first).isNo = true) :
    visit falsified (index :: rest) kept s = (s₁, kept.push index ++ rest, some index) := by
  subst hs₁
  rw [visit]
  simp only [if_neg hfirst, hposition, if_pos hconflict]

theorem visit_of_unit (s₁ : Solver) (hs₁ : s₁ = s.modifyClause index (Clause.orient falsified))
    (hfirst : ¬ (s₁.value (s₁.clause index).first).isYes = true)
    (hposition : (s₁.clause index).position? (fun l => !(s₁.value l).isNo) = none)
    (hunit : ¬ (s₁.value (s₁.clause index).first).isNo = true) :
    visit falsified (index :: rest) kept s =
      visit falsified rest (kept.push index) (s₁.assign (s₁.clause index).first (some index)) := by
  subst hs₁
  rw [visit]
  simp only [if_neg hfirst, hposition, if_neg hunit]

end Visit

/-- What a visit does with its next clause once the clause has been turned round. -/
inductive Turn (falsified : Lit) (q index : Nat) (rest : List Nat) (kept : Array Nat) (s : Solver) :
    Solver × Array Nat × Option Nat → Prop where
  /-- The first literal is true. -/
  | satisfied (hyes : s.value (s.clause index).first = .yes)
      (later : Visiting falsified q rest (kept.push index) s) :
      Turn falsified q index rest kept s (visit falsified rest (kept.push index) s)
  /-- A literal that is not false is watched from now on. -/
  | moved {i : Nat} (hyes : s.value (s.clause index).first ≠ .yes)
      (hposition : (s.clause index).position? (fun l => !(s.value l).isNo) = some i)
      (later : Visiting falsified q rest kept
        ((s.modifyClause index (Clause.rewatch i)).watch ((s.clause index).unwatched i) index)) :
      Turn falsified q index rest kept s (visit falsified rest kept
        ((s.modifyClause index (Clause.rewatch i)).watch ((s.clause index).unwatched i) index))
  /-- All literals are false. -/
  | conflict (hposition : (s.clause index).position? (fun l => !(s.value l).isNo) = none)
      (hno : s.value (s.clause index).first = .no)
      (htail : ∀ x ∈ (s.clause index).tail, s.value x = .no) :
      Turn falsified q index rest kept s (s, kept.push index ++ rest, some index)
  /-- All literals but the first are false. -/
  | unit (hposition : (s.clause index).position? (fun l => !(s.value l).isNo) = none)
      (hu : s.value (s.clause index).first = .unknown)
      (htail : ∀ x ∈ (s.clause index).tail, s.value x = .no)
      (later : Visiting falsified q rest (kept.push index)
        (s.assign (s.clause index).first (some index))) :
      Turn falsified q index rest kept s
        (visit falsified rest (kept.push index) (s.assign (s.clause index).first (some index)))

theorem Visiting.turn {falsified : Lit} {q index : Nat} {rest : List Nat}
    {kept : Array Nat} {s : Solver} (h : Visiting falsified q (index :: rest) kept s) (s₁ : Solver)
    (hs₁ : s₁ = s.modifyClause index (Clause.orient falsified)) :
    Visiting falsified q (index :: rest) kept s₁ ∧
      Turn falsified q index rest kept s₁ (visit falsified (index :: rest) kept s) := by
  obtain ⟨hsecond, hfirst⟩ := h.second_orient
  have h₁ : Visiting falsified q (index :: rest) kept
      (s.modifyClause index (Clause.orient falsified)) := h.orient
  rw [← hs₁] at hsecond hfirst h₁
  refine ⟨h₁, ?_⟩
  have hindex := h₁.next.1
  by_cases hyes : s₁.value (s₁.clause index).first = .yes
  · rw [visit_of_satisfied s₁ hs₁ (Truth.isYes_iff.mpr hyes)]
    refine .satisfied hyes (h₁.keep ⟨h₁.guards_first hindex hsecond hfirst _, ?_⟩)
    rw [hsecond]
    exact h₁.guards_falsified hyes
  have hyes' := Truth.isYes_iff.not.mpr hyes
  cases hposition : (s₁.clause index).position? (fun l => !(s₁.value l).isNo) with
  | some i =>
      rw [visit_of_position s₁ hs₁ hyes' hposition]
      obtain ⟨hi, hfree⟩ := Clause.position?_eq_some hposition
      refine .moved hyes hposition (h₁.rewatch hsecond hfirst hi fun hno => ?_)
      simp [hno, Truth.isNo] at hfree
  | none =>
      have htail := h₁.tail_false hsecond hposition
      cases hvalue : s₁.value (s₁.clause index).first with
      | yes => exact absurd hvalue hyes
      | no =>
          rw [visit_of_conflict s₁ hs₁ hyes' hposition (Truth.isNo_iff.mpr hvalue)]
          exact .conflict hposition hvalue htail
      | unknown =>
          rw [visit_of_unit s₁ hs₁ hyes' hposition (by simp [hvalue, Truth.isNo])]
          exact .unit hposition hvalue htail (h₁.unit hindex hsecond hfirst hvalue htail)

theorem visit_spec {falsified : Lit} {q : Nat} {rest : List Nat} {kept : Array Nat} {s : Solver}
    (h : Visiting falsified q rest kept s) :
    Visited falsified q s (visit falsified rest kept s) := by
  induction rest generalizing kept s with
  | nil =>
      refine ⟨.refl s, ?_, rfl, fun _ r hr => h.visited hr List.not_mem_nil,
        fun hc => (by cases hc)⟩
      have hwf := h.wellFormed
      rwa [List.append_nil] at hwf
  | cons index rest ih =>
      have horient : Propagates s (s.modifyClause index (Clause.orient falsified)) :=
        propagates_rearrange (rearranges_orient h.value_falsified)
      obtain ⟨h₁, hturn⟩ := h.turn _ rfl
      refine Visited.of_propagates ?_ horient rfl
      have hindex := h₁.next.1
      generalize visit falsified (index :: rest) kept s = out at hturn ⊢
      cases hturn with
      | satisfied _ later => exact ih later
      | moved _ hposition later =>
          refine (ih later).of_propagates ?_ rfl
          exact (propagates_rearrange
            (rearranges_rewatch (Clause.position?_eq_some hposition).1)).trans
            (propagates_watch _ _ _)
      | conflict _ hno htail => exact h₁.conflict hindex hno htail
      | unit _ hu htail later =>
          have hv := h₁.wellFormed.clauses.var_lt hindex _ (List.mem_cons_self ..)
          exact (ih later).of_propagates (propagates_assign h₁.trail hu hv hindex rfl htail) rfl

/-! ## The queue -/

/-- A clause has become false while the levels below the current one are propagated. -/
structure Conflict (s : Solver) (c : Nat) : Prop where
  lt : c < s.numClauses
  value : ∀ l ∈ (s.clause c).lits, s.value l = .no
  settled : ∀ {k}, k < s.level → s.Settled (s.start k)

/-- What propagation leaves behind. -/
structure Propagated (s : Solver) (out : Solver × Option Nat) : Prop where
  propagates : Propagates s out.1
  wellFormed : WellFormed out.1
  settled : out.2 = none → out.1.Settled out.1.trail.size ∧ out.1.queueHead = out.1.trail.size
  conflict : ∀ {c}, out.2 = some c → Conflict out.1 c

def dequeued (s : Solver) (p : Lit) : Solver :=
  { s with
    queueHead := s.queueHead + 1
    watches := s.watches.setIfInBounds p.code #[]
    stats := { s.stats with propagations := s.stats.propagations + 1 } }

theorem visiting_dequeued {s : Solver} {p : Lit} (h : WellFormed s) (hs : s.Settled s.queueHead)
    (hp : s.trail[s.queueHead]? = some p) :
    Visiting p.negate s.queueHead (s.watchers p) #[] (s.dequeued p) := by
  have hsize : ((s.dequeued p).withWatchers p (s.watchers p)).watches.size = s.watches.size := by
    simp only [withWatchers, dequeued, Array.size_setIfInBounds]
  have hcode : p.code < s.watches.size := by
    rw [h.watches.size]
    exact Lit.code_lt_of_var_lt (h.trail.var_lt hp)
  have hwatchers : ∀ x, ((s.dequeued p).withWatchers p (s.watchers p)).watchers x =
      s.watchers x := by
    intro x
    rw [watchers_withWatchers (by simpa only [dequeued, Array.size_setIfInBounds] using hcode)]
    split
    · rename_i hx
      rw [hx]
    · rename_i hx
      have hkept := watchers_withWatchers hcode [] x
      rw [if_neg hx] at hkept
      exact hkept
  have hlt : s.queueHead < s.trail.size := lt_size_of_getElem? hp
  refine ⟨?_, by rw [Lit.negate_negate]; exact hp, h.trail.start_le, hs, ?_⟩
  · rw [Lit.negate_negate, Array.toList_empty, List.nil_append]
    refine ⟨⟨h.trail.mem_iff, h.trail.position, hlt,
      fun hk => Nat.le_succ_of_le (h.trail.start_le hk),
      h.trail.le_start, h.trail.level_le, h.trail.levelOf_le, h.trail.lt_start⟩,
      ⟨h.clauses.var_lt, h.clauses.distinct⟩, ⟨h.reasons.implied, h.reasons.decided⟩,
      ⟨hsize.trans h.watches.size, fun x r => ?_⟩, h.unmarked⟩
    rw [hwatchers]
    exact h.watches.count x r
  · intro r hr hrest
    have hcount := h.watches.count p r
    rw [List.count_eq_zero.mpr hrest] at hcount
    have hnot : ¬ ((s.clause r).first = p.negate ∨ (s.clause r).second = p.negate) := by
      intro hwatch
      rw [if_pos ⟨hr, hwatch⟩] at hcount
      cases hcount
    rw [not_or] at hnot
    have hposition : ∀ w, w ≠ p.negate → (s.dequeued p).trail[s.queueHead]? ≠ some w.negate := by
      intro w hw he
      have he : some p = some w.negate := hp.symm.trans he
      exact hw (Lit.eq_negate_iff.mpr (Option.some.inj he).symm)
    exact ⟨Guards.succ (hs r hr).1 (hposition _ hnot.1),
      Guards.succ (hs r hr).2 (hposition _ hnot.2)⟩

theorem propagates_dequeued (s : Solver) (p : Lit) : Propagates s (s.dequeued p) :=
  ⟨⟨⟨id, fun _ => rfl⟩, rfl, rfl⟩, rfl, fun _ => .refl _, rfl, rfl, rfl, rfl, .refl _,
    fun _ hα => ⟨hα.root, hα.clause⟩⟩

theorem propagates_withWatchers (s : Solver) (p : Lit) (ws : List Nat) :
    Propagates s (s.withWatchers p ws) :=
  ⟨⟨⟨id, fun _ => rfl⟩, rfl, rfl⟩, rfl, fun _ => .refl _, rfl, rfl, rfl, rfl, .refl _,
    fun _ hα => ⟨hα.root, hα.clause⟩⟩

def endQueue (s : Solver) : Solver := { s with queueHead := s.trail.size }

theorem propagates_endQueue (s : Solver) : Propagates s s.endQueue :=
  ⟨⟨⟨id, fun _ => rfl⟩, rfl, rfl⟩, rfl, fun _ => .refl _, rfl, rfl, rfl, rfl, .refl _,
    fun _ hα => ⟨hα.root, hα.clause⟩⟩

theorem WellFormed.endQueue {s : Solver} (h : WellFormed s) : WellFormed s.endQueue where
  trail := ⟨h.trail.mem_iff, h.trail.position, Nat.le_refl _, fun hk => h.trail.start_le_size hk,
    h.trail.le_start, h.trail.level_le, h.trail.levelOf_le, h.trail.lt_start⟩
  clauses := ⟨h.clauses.var_lt, h.clauses.distinct⟩
  reasons := ⟨h.reasons.implied, h.reasons.decided⟩
  watches := ⟨h.watches.size, h.watches.count⟩
  unmarked := h.unmarked

theorem Propagated.of_propagates {s s' : Solver} {out : Solver × Option Nat} (h : Propagated s' out)
    (hs : Propagates s s') : Propagated s out :=
  ⟨hs.trans h.propagates, h.wellFormed, h.settled, h.conflict⟩

theorem Visited.conflict_withWatchers {s s' : Solver} {falsified : Lit} {kept : Array Nat}
    {c : Nat} {t : Solver} (h : WellFormed s) (hst : Propagates s t)
    (hvisit : Visited falsified s.queueHead t (s', kept, some c)) (p : Lit) :
    Conflict (s'.withWatchers p kept.toList).endQueue c := by
  obtain ⟨hlt, hvalue, hsettled⟩ := hvisit.conflict rfl
  have hprop := hst.trans hvisit.propagates
  refine ⟨hlt, hvalue, fun {k} hk => ?_⟩
  have hstart : s'.start k ≤ s.queueHead := by
    rw [hprop.start]
    exact h.trail.start_le (hprop.level ▸ hk)
  exact hsettled.mono hstart

/-- What propagation does with the next literal of the queue. -/
inductive Round (count : Nat) (s : Solver) : Solver × Option Nat → Prop where
  /-- The queue has come to its end. -/
  | done (hp : s.trail[s.queueHead]? = none) : Round count s (s, none)
  | passed {p : Lit} {s' : Solver} {kept : Array Nat} (hp : s.trail[s.queueHead]? = some p)
      (hvisit : visit p.negate (s.watchers p) #[] (s.dequeued p) = (s', kept, none)) :
      Round count s (propagateUpTo count (s'.withWatchers p kept.toList))
  | conflict {p : Lit} {s' : Solver} {kept : Array Nat} {c : Nat}
      (hp : s.trail[s.queueHead]? = some p)
      (hvisit : visit p.negate (s.watchers p) #[] (s.dequeued p) = (s', kept, some c)) :
      Round count s ((s'.withWatchers p kept.toList).endQueue, some c)

theorem propagateUpTo_round (count : Nat) (s : Solver) :
    Round count s (propagateUpTo (count + 1) s) := by
  rw [propagateUpTo, dequeue?]
  cases hp : s.trail[s.queueHead]? with
  | none => exact .done hp
  | some p =>
      have hout : visit p.negate (s.watches.getD p.code #[]).toList #[]
          { s with
            queueHead := s.queueHead + 1
            watches := s.watches.setIfInBounds p.code #[]
            stats := { s.stats with propagations := s.stats.propagations + 1 } } =
          visit p.negate (s.watchers p) #[] (s.dequeued p) := rfl
      dsimp only at hout ⊢
      rw [hout]
      cases hvisit : visit p.negate (s.watchers p) #[] (s.dequeued p) with
      | mk s' rest =>
          obtain ⟨kept, conflict⟩ := rest
          cases conflict with
          | none => exact .passed hp hvisit
          | some c => exact .conflict hp hvisit

section Round

variable {s s' : Solver} {p : Lit} {kept : Array Nat} {conflict : Option Nat} (h : WellFormed s)
  (hs : s.Settled s.queueHead) (hp : s.trail[s.queueHead]? = some p)
  (hvisit : visit p.negate (s.watchers p) #[] (s.dequeued p) = (s', kept, conflict))
include h hs hp hvisit

theorem visited_of_visit : Visited p.negate s.queueHead (s.dequeued p) (s', kept, conflict) :=
  hvisit ▸ visit_spec (visiting_dequeued h hs hp)

/-- Once the clauses that stay are put back, the solver is as well-formed as before. -/
theorem wellFormed_of_visit : WellFormed (s'.withWatchers p kept.toList) := by
  have hwf := (visited_of_visit h hs hp hvisit).wellFormed
  rwa [Lit.negate_negate] at hwf

theorem propagates_of_visit : Propagates s (s'.withWatchers p kept.toList) :=
  (propagates_dequeued s p).trans
    ((visited_of_visit h hs hp hvisit).propagates.trans (propagates_withWatchers s' p kept.toList))

theorem settled_of_visit (hnone : conflict = none) :
    (s'.withWatchers p kept.toList).Settled (s'.withWatchers p kept.toList).queueHead := by
  have hvisited := visited_of_visit h hs hp hvisit
  change s'.Settled s'.queueHead
  rw [show s'.queueHead = s.queueHead + 1 from hvisited.queueHead]
  exact hvisited.settled hnone

end Round

theorem propagateUpTo_spec {count : Nat} {s : Solver} (h : WellFormed s)
    (hs : s.Settled s.queueHead)
    (hcount : s.numVars < count + s.queueHead) : Propagated s (propagateUpTo count s) := by
  induction count generalizing s with
  | zero =>
      have := h.trail.head_le
      have := h.trail.size_le
      omega
  | succ count ih =>
      have hround := propagateUpTo_round count s
      generalize propagateUpTo (count + 1) s = out at hround ⊢
      cases hround with
      | done hp =>
          have hhead : s.queueHead = s.trail.size :=
            Nat.le_antisymm h.trail.head_le (Array.getElem?_eq_none_iff.mp hp)
          exact ⟨.refl s, h, fun _ => ⟨hhead ▸ hs, hhead⟩, fun hc => (by cases hc)⟩
      | @passed p s' kept hp hvisit =>
          have hprop := propagates_of_visit h hs hp hvisit
          refine (ih (wellFormed_of_visit h hs hp hvisit)
            (settled_of_visit h hs hp hvisit rfl) ?_).of_propagates hprop
          have hhead : s'.queueHead = s.queueHead + 1 := (visited_of_visit h hs hp hvisit).queueHead
          change (s'.withWatchers p kept.toList).numVars < count + s'.queueHead
          rw [hprop.numVars, hhead]
          omega
      | @conflict p s' kept c hp hvisit =>
          refine ⟨(propagates_of_visit h hs hp hvisit).trans (propagates_endQueue _),
            (wellFormed_of_visit h hs hp hvisit).endQueue, fun hc => (by cases hc), ?_⟩
          rintro c' hc
          cases hc
          exact (visited_of_visit h hs hp hvisit).conflict_withWatchers h
            (propagates_dequeued s p) p

theorem propagate_spec {s : Solver} (h : WellFormed s) (hs : s.Settled s.queueHead) :
    Propagated s s.propagate := propagateUpTo_spec h hs (by omega)

end Solver

end Sat

end ModelExpansion
