import ModelExpansion.Proofs.Sat.Moments

/-! # Watch lists and unit propagation
At every moment of a call each stored clause is watched by its first two literals and by no other.
Propagation that ends without a conflict leaves no clause that is unit or false, and none of its
indices is out of range. -/

namespace ModelExpansion.Sat.Solver

/-! ## Propagation that checks its indices -/

/-- Value of a literal, unless its variable does not exist. -/
def value? (s : Solver) (l : Lit) : Option Truth := s.vars[l.var]?.map fun x => l.under x.value

/-- The first of `count` positions from `start` on at which a literal is not false, unless an index
is out of range. -/
def free? (s : Solver) (lits : Array Lit) : (count start : Nat) → Option (Option Nat)
  | 0, _ => some none
  | count + 1, start => do
    let l ← lits[start]?
    if !(← s.value? l).isNo then some (some start) else free? s lits count (start + 1)

/-- A visit that stops at the first index which is out of range. -/
def visit? (falsified : Lit) :
    List Nat → Array Nat → Solver → Option (Solver × Array Nat × Option Nat)
  | [], kept, s => some (s, kept, none)
  | index :: rest, kept, s => do
    let c := Clause.orient falsified (← s.clauses[index]?)
    let s := s.modifyClause index (Clause.orient falsified)
    if (← s.value? c.first).isYes then visit? falsified rest (kept.push index) s
    else
      match ← s.free? c.rest c.rest.size 0 with
      | some i =>
        let l ← c.rest[i]?
        let _ ← s.watches[l.negate.code]?
        visit? falsified rest kept ((s.modifyClause index (Clause.rewatch i)).watch l index)
      | none =>
        if (← s.value? c.first).isNo then some (s, kept.push index ++ rest, some index)
        else
          let _ ← s.vars[c.first.var]?
          visit? falsified rest (kept.push index) (s.assign c.first (some index))

/-- Propagation of so many literals that stops at the first index which is out of range. -/
def propagateUpTo? : Nat → Solver → Option (Solver × Option Nat)
  | 0, s => some (s, none)
  | count + 1, s =>
    match s.trail[s.queueHead]? with
    | none => some (s, none)
    | some p => do
      let watchers ← s.watches[p.code]?
      let (s, kept, conflict) ← visit? p.negate watchers.toList #[] (s.dequeued p)
      let _ ← s.watches[p.code]?
      match conflict with
      | none => propagateUpTo? count (s.withWatchers p kept.toList)
      | some c => some ((s.withWatchers p kept.toList).endQueue, some c)

/-- Propagation that stops at the first index which is out of range. -/
def propagate? (s : Solver) : Option (Solver × Option Nat) := propagateUpTo? (s.numVars + 1) s

section Checked

variable {s : Solver} {falsified : Lit} {q index : Nat} {rest : List Nat} {kept : Array Nat}

theorem value?_eq {l : Lit} (h : l.var < s.numVars) : s.value? l = some (s.value l) := by
  rw [value?, value, var, Array.getD_eq_getD_getElem?, Array.getElem?_eq_getElem (by exact h)]
  rfl

theorem clauses_getElem? {r : Nat} (h : r < s.numClauses) : s.clauses[r]? = some (s.clause r) := by
  rw [clause, Array.getD_eq_getD_getElem?, Array.getElem?_eq_getElem (by exact h)]
  rfl

theorem free?_eq {lits : Array Lit} (hlits : ∀ l ∈ lits, l.var < s.numVars) {count start : Nat}
    (h : start + count ≤ lits.size) :
    s.free? lits count start = some (findFrom? (fun l => !(s.value l).isNo) lits count start) := by
  induction count generalizing start with
  | zero => rfl
  | succ count ih =>
      have hstart : start < lits.size := by omega
      have hget : lits[start]? = some lits[start] := Array.getElem?_eq_getElem hstart
      have hd : lits.getD start default = lits[start] := by
        rw [Array.getD_eq_getD_getElem?, hget, Option.getD_some]
      rw [free?, findFrom?, hget, hd]
      simp only [Option.bind_eq_bind, Option.bind_some,
        value?_eq (hlits _ (Array.getElem_mem hstart))]
      split
      · rfl
      · exact ih (by omega)

theorem visit?_eq (h : Visiting falsified q rest kept s) :
    visit? falsified rest kept s = some (visit falsified rest kept s) := by
  induction rest generalizing kept s with
  | nil => rfl
  | cons index rest ih =>
      obtain ⟨h₁, hturn⟩ := h.turn _ rfl
      have hindex := h.next.1
      have hclause : (s.modifyClause index (Clause.orient falsified)).clause index =
          Clause.orient falsified (s.clause index) := by
        rw [clause_modifyClause, if_pos ⟨rfl, hindex⟩]
      rw [visit?, clauses_getElem? hindex]
      simp only [Option.bind_eq_bind, Option.bind_some]
      rw [← hclause]
      generalize s.modifyClause index (Clause.orient falsified) = s₁ at h₁ hturn ⊢
      have hvar : ∀ l ∈ (s₁.clause index).lits, l.var < s₁.numVars :=
        h₁.wellFormed.clauses.var_lt h₁.next.1
      have hrest : ∀ l ∈ (s₁.clause index).rest, l.var < s₁.numVars := fun l hl =>
        hvar l (List.mem_cons_of_mem _ (List.mem_cons_of_mem _ (Array.mem_toList_iff.mpr hl)))
      have hfirst := hvar _ (List.mem_cons_self ..)
      have hfree : s₁.free? (s₁.clause index).rest (s₁.clause index).rest.size 0 =
          some ((s₁.clause index).position? fun l => !(s₁.value l).isNo) :=
        free?_eq hrest (Nat.le_of_eq (Nat.zero_add _))
      rw [value?_eq hfirst, hfree]
      simp only [Option.bind_some]
      generalize visit falsified (index :: rest) kept s = out at hturn ⊢
      cases hturn with
      | satisfied hyes later => rw [if_pos (Truth.isYes_iff.mpr hyes), ih later]
      | @moved i hyes hposition later =>
          have hi := (Clause.position?_eq_some hposition).1
          have hl : (s₁.clause index).rest[i]? = some ((s₁.clause index).unwatched i) := by
            rw [Clause.unwatched, Array.getD_eq_getD_getElem?, Array.getElem?_eq_getElem hi,
              Option.getD_some]
          have hcode : ((s₁.clause index).unwatched i).negate.code < s₁.watches.size := by
            rw [h₁.size_watches]
            exact Lit.code_lt_of_var_lt (by
              rw [Lit.var_negate]
              exact hrest _ (Array.mem_of_getElem? hl))
          simp only [if_neg (Truth.isYes_iff.not.mpr hyes), hposition, hl,
            Array.getElem?_eq_getElem hcode, Option.bind_some]
          exact ih later
      | conflict hposition hno _ =>
          have hyes : ¬ (s₁.value (s₁.clause index).first).isYes = true := by
            simp [hno, Truth.isYes]
          simp only [if_neg hyes, hposition, if_pos (Truth.isNo_iff.mpr hno)]
      | unit hposition hu _ later =>
          have hvars : s₁.vars[(s₁.clause index).first.var]? =
              some s₁.vars[(s₁.clause index).first.var] :=
            Array.getElem?_eq_getElem hfirst
          have hyes : ¬ (s₁.value (s₁.clause index).first).isYes = true := by simp [hu, Truth.isYes]
          have hno : ¬ (s₁.value (s₁.clause index).first).isNo = true := by simp [hu, Truth.isNo]
          simp only [if_neg hyes, hposition, if_neg hno, hvars, Option.bind_some]
          exact ih later

theorem propagateUpTo?_eq (h : WellFormed s) (hs : s.Settled s.queueHead) (count : Nat) :
    propagateUpTo? count s = some (propagateUpTo count s) := by
  induction count generalizing s with
  | zero => rfl
  | succ count ih =>
      have hround := propagateUpTo_round count s
      generalize propagateUpTo (count + 1) s = out at hround ⊢
      rw [propagateUpTo?]
      have hsize : ∀ {p s' kept conflict}, s.trail[s.queueHead]? = some p →
          visit p.negate (s.watchers p) #[] (s.dequeued p) = (s', kept, conflict) →
          p.code < s.watches.size ∧ p.code < s'.watches.size := by
        intro p s' kept conflict hp hvisit
        have hcode := Lit.code_lt_of_var_lt (h.trail.var_lt hp)
        have hwf := wellFormed_of_visit h hs hp hvisit
        have hvars := (propagates_of_visit h hs hp hvisit).numVars
        have hlater := hwf.watches.size
        rw [hvars, withWatchers, Array.size_setIfInBounds] at hlater
        exact ⟨by rwa [h.watches.size], by rwa [hlater]⟩
      have hwatchers : ∀ {p}, (hp : p.code < s.watches.size) →
          (s.watches[p.code]).toList = s.watchers p := by
        intro p hp
        rw [watchers, Array.getD_eq_getD_getElem?, Array.getElem?_eq_getElem hp, Option.getD_some]
      cases hround with
      | done hp => rw [hp]
      | @passed p s' kept hp hvisit =>
          obtain ⟨hbefore, hafter⟩ := hsize hp hvisit
          have hchecked := visit?_eq (visiting_dequeued h hs hp)
          rw [hvisit] at hchecked
          simp only [hp, Array.getElem?_eq_getElem hbefore, Option.bind_eq_bind, Option.bind_some,
            hwatchers hbefore, hchecked, Array.getElem?_eq_getElem hafter]
          exact ih (wellFormed_of_visit h hs hp hvisit) (settled_of_visit h hs hp hvisit rfl)
      | @conflict p s' kept c hp hvisit =>
          obtain ⟨hbefore, hafter⟩ := hsize hp hvisit
          have hchecked := visit?_eq (visiting_dequeued h hs hp)
          rw [hvisit] at hchecked
          simp only [hp, Array.getElem?_eq_getElem hbefore, Option.bind_eq_bind, Option.bind_some,
            hwatchers hbefore, hchecked, Array.getElem?_eq_getElem hafter]

theorem propagate?_eq (h : Search.Ready s) : s.propagate? = some s.propagate :=
  propagateUpTo?_eq h.wellFormed h.settled _

end Checked

/-! ## What propagation leaves -/

/-- Once the whole trail is propagated, a clause is true or has two literals without a value. -/
theorem Guarded.true_or_open {s : Solver} {c : Clause} (h : s.Guarded s.trail.size c)
    (ht : TrailInvariant s) :
    (∃ l ∈ c.lits, s.value l = .yes) ∨ 2 ≤ c.lits.countP fun l => s.value l == .unknown := by
  have hguard : ∀ {w other}, s.Guards s.trail.size w other → s.value w = .no →
      s.value other = .yes := by
    intro w other hg hno
    obtain ⟨i, hi⟩ := ht.exists_position (s.value_eq_no.mp hno)
    exact (hg i (lt_size_of_getElem? hi) hi).1
  have hfirst : c.first ∈ c.lits := List.mem_cons_self
  have hsecond : c.second ∈ c.lits := List.mem_cons_of_mem _ List.mem_cons_self
  cases hf : s.value c.first with
  | yes => exact .inl ⟨_, hfirst, hf⟩
  | no => exact .inl ⟨_, hsecond, hguard h.1 hf⟩
  | unknown =>
      cases hs : s.value c.second with
      | yes => exact .inl ⟨_, hsecond, hs⟩
      | no =>
          rw [hguard h.2 hs] at hf
          cases hf
      | unknown =>
          refine .inr ?_
          rw [Clause.lits, List.countP_cons_of_pos (by simp [hf]),
            List.countP_cons_of_pos (by simp [hs])]
          exact Nat.le_add_left 2 _

/-- The index of a clause stands once in the list of each literal that makes one of its first two
literals false, and in no other list. -/
theorem WatchInvariant.count_of_lt {s : Solver} (h : WatchInvariant s) {r : Nat}
    (hr : r < s.numClauses) (l : Lit) :
    (s.watchers l).count r = if l = (s.clause r).first.negate ∨ l = (s.clause r).second.negate
    then 1 else 0 := by
  rw [h.count l r]
  refine if_congr ?_ rfl rfl
  rw [Lit.eq_negate_iff, Lit.eq_negate_iff, eq_comm, @eq_comm _ _ l]
  exact and_iff_right hr

/-- At each moment of a call after any others, every stored clause has at least two literals over
distinct variables and is watched once by each of the first two and by no other. Whenever the solver
propagates, no index is out of range; without a conflict each clause is left with a true literal or
with two that have no value, and a conflicting clause is false. -/
theorem watched_throughout (config : Config) (monitor : Monitor) (calls : List Call) (call : Call) :
    (∀ s, Moment (reached config monitor calls) call s → ∀ r < s.numClauses,
      2 ≤ (s.clause r).lits.length ∧ ((s.clause r).lits.map Lit.var).Nodup ∧
      ∀ l, (s.watchers l).count r =
        if l = (s.clause r).first.negate ∨ l = (s.clause r).second.negate then 1 else 0) ∧
    ∀ p, Propagating (reached config monitor calls) call p →
      p.propagate? = some p.propagate ∧
      (p.propagate.2 = none → ∀ r < p.propagate.1.numClauses,
        (∃ l ∈ (p.propagate.1.clause r).lits, p.propagate.1.value l = .yes) ∨
          2 ≤ (p.propagate.1.clause r).lits.countP fun l => p.propagate.1.value l == .unknown) ∧
      ∀ c, p.propagate.2 = some c → c < p.propagate.1.numClauses ∧
        ∀ l ∈ (p.propagate.1.clause c).lits, p.propagate.1.value l = .no := by
  have hwf := wellFormed_reached config monitor calls
  have hrep := represents_reached config monitor calls
  refine ⟨fun s hs r hr => ?_, fun p hp => ?_⟩
  · have hmoment := hs.wellFormed hwf hrep
    exact ⟨Nat.le_add_left 2 _, hmoment.clauses.distinct hr, hmoment.watches.count_of_lt hr⟩
  · have hready := hp.ready hrep
    have hprop := propagate_spec hready.wellFormed hready.settled
    refine ⟨propagate?_eq hready, fun hnone r hr => ?_, fun c hc => ?_⟩
    · exact ((hprop.settled hnone).1 r hr).true_or_open hprop.wellFormed.trail
    · exact ⟨(hprop.conflict hc).lt, (hprop.conflict hc).value⟩

/-- Two clauses that exclude the first variable. -/
def excluding : List Call := [.addClause [.neg 0, .pos 1], .addClause [.neg 0, .neg 1]]

/-- Propagating the first variable makes the second clause false, which stays watched by both of its
literals; with nothing assigned both clauses are open. -/
theorem watched_excluding :
    (∃ p, Propagating (reached {} {} excluding) (.addClause [.pos 0]) p ∧
      p.propagate? = some p.propagate ∧
      p.propagate.2 = some 1 ∧ (∀ l ∈ (p.propagate.1.clause 1).lits, p.propagate.1.value l = .no) ∧
      (p.propagate.1.watchers (.pos 0)).count 1 = 1 ∧
      (p.propagate.1.watchers (.neg 1)).count 1 = 0) ∧
    ∃ p, Propagating (reached {} {} excluding) (.solve fun _ => false) p ∧ p.propagate.2 = none ∧
      ((∃ l ∈ (p.propagate.1.clause 1).lits, p.propagate.1.value l = .yes) ∨
        2 ≤ (p.propagate.1.clause 1).lits.countP fun l => p.propagate.1.value l == .unknown) := by
  obtain ⟨s₁, hs₁⟩ : ∃ s₁, s₁ = ((reached {} {} excluding).cancelUntil 0).ensureAll
      (ascending [.pos 0]) := ⟨_, rfl⟩
  have hunit : Leaves (reached {} {} excluding) [.pos 0] s₁ [.pos 0] := by
    refine ⟨by decide, hs₁, ?_, ?_⟩ <;> rw [hs₁] <;> decide
  obtain ⟨hmoment, hprop⟩ := watched_throughout {} {} excluding (.addClause [.pos 0])
  have hroot : Propagating (reached {} {} excluding) (.solve fun _ => false) _ := .root (by decide)
  have hsolve := (watched_throughout {} {} excluding (.solve fun _ => false)).2 _ hroot
  have hconflict : (s₁.assign (.pos 0) none).propagate.2 = some 1 := by
    rw [hs₁]
    decide
  have hlt : 1 < (s₁.assign (.pos 0) none).propagate.1.numClauses := by
    rw [hs₁]
    decide
  obtain ⟨hindices, -, hfalse⟩ := hprop _ (.unit hunit)
  obtain ⟨-, -, hcount⟩ := hmoment _ (.propagated (.unit hunit)) 1 hlt
  refine ⟨⟨_, .unit hunit, hindices, hconflict, (hfalse 1 hconflict).2, ?_, ?_⟩, _, hroot,
    by decide, ?_⟩
  · rw [hcount, hs₁]
    decide
  · rw [hcount, hs₁]
    decide
  · exact hsolve.2.1 (by decide) 1 (by decide)

end ModelExpansion.Sat.Solver
