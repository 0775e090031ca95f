import ModelExpansion.Proofs.Sat.Backtracking

/-! # Visiting the clauses of a falsified literal
A visit keeps the invariants when the clauses that are still to be visited count as watched. -/

namespace ModelExpansion.Sat.Solver

/-! ## Changes to the clause database only -/

section Database

variable {s : Solver}

theorem TrailInvariant.database (h : TrailInvariant s) (cs : Array Clause)
    (ws : Array (Array Nat)) :
    TrailInvariant { s with clauses := cs, watches := ws } :=
  ⟨h.mem_iff, h.position, h.head_le, h.start_le, h.le_start, h.level_le, h.levelOf_le, h.lt_start⟩

/-- A clause may be rearranged, but one that is a reason keeps its first literal. -/
structure Rearranges (s : Solver) (index : Nat) (f : Clause → Clause) : Prop where
  perm : (f (s.clause index)).lits.Perm (s.clause index).lits
  first : s.value (s.clause index).first = .yes →
    (f (s.clause index)).first = (s.clause index).first

variable {index : Nat} {f : Clause → Clause}

theorem Rearranges.lits_perm (h : Rearranges s index f) (r : Nat) :
    ((s.modifyClause index f).clause r).lits.Perm (s.clause r).lits := by
  rw [clause_modifyClause]
  split
  · rename_i hr
    rw [← hr.1]
    exact h.perm
  · exact .refl _

theorem ClauseInvariant.rearrange (h : ClauseInvariant s) (hf : Rearranges s index f) :
    ClauseInvariant (s.modifyClause index f) where
  var_lt hr l hl := h.var_lt (by simpa using hr) l ((hf.lits_perm _).mem_iff.mp hl)
  distinct hr := ((hf.lits_perm _).map Lit.var).nodup_iff.mpr (h.distinct (by simpa using hr))

theorem ReasonInvariant.rearrange (h : ReasonInvariant s) (ht : TrailInvariant s)
    (hf : Rearranges s index f) : ReasonInvariant (s.modifyClause index f) where
  implied {i l r} hi hr := by
    obtain ⟨hlt, hfirst, htail⟩ := h.implied hi hr
    refine ⟨by simpa using hlt, ?_⟩
    have hhead : ((s.modifyClause index f).clause r).first = l := by
      rw [clause_modifyClause]
      split
      · rename_i hindex
        rw [hindex.1] at hf
        rw [hf.first (by rw [hfirst]; exact ht.value_of_getElem? hi), hfirst]
      · exact hfirst
    refine ⟨hhead, fun x hx => htail x ?_⟩
    have hperm := hf.lits_perm r
    simp only [Clause.lits, hhead, hfirst] at hperm
    exact hperm.cons_inv.mem_iff.mp hx
  decided hi hr := h.decided hi hr

theorem Clause.eq_or_eq_of_orient (l : Lit) (c : Clause) :
    (Clause.orient l c = c ∧ c.first ≠ l) ∨
      (Clause.orient l c = ⟨c.second, c.first, c.rest⟩ ∧ c.first = l) := by
  unfold Clause.orient
  split
  · rename_i h
    exact .inr ⟨rfl, h⟩
  · rename_i h
    exact .inl ⟨rfl, h⟩

theorem rearranges_orient {l : Lit} (hl : s.value l = .no) :
    Rearranges s index (Clause.orient l) where
  perm := Clause.lits_orient l _
  first hyes := by
    rcases Clause.eq_or_eq_of_orient l (s.clause index) with ⟨h, -⟩ | ⟨-, h⟩
    · rw [h]
    · rw [h, hl] at hyes
      cases hyes

theorem rearranges_rewatch {i : Nat} (hi : i < (s.clause index).rest.size) :
    Rearranges s index (Clause.rewatch i) where
  perm := Clause.lits_rewatch hi
  first _ := rfl

theorem Guarded.orient {q : Nat} {c : Clause} (h : s.Guarded q c) (l : Lit) :
    s.Guarded q (Clause.orient l c) := by
  rcases Clause.eq_or_eq_of_orient l c with ⟨hc, -⟩ | ⟨hc, -⟩ <;> rw [hc]
  · exact h
  · exact ⟨h.2, h.1⟩

theorem WatchInvariant.orient (h : WatchInvariant s) (l : Lit) :
    WatchInvariant (s.modifyClause index (Clause.orient l)) where
  size := h.size
  count x r := by
    have hpair : (((s.modifyClause index (Clause.orient l)).clause r).first = x.negate ∨
        ((s.modifyClause index (Clause.orient l)).clause r).second = x.negate) ↔
        ((s.clause r).first = x.negate ∨ (s.clause r).second = x.negate) := by
      rw [clause_modifyClause]
      split
      · rcases Clause.eq_or_eq_of_orient l (s.clause r) with ⟨hc, -⟩ | ⟨hc, -⟩ <;> rw [hc]
        exact or_comm
      · exact Iff.rfl
    simp only [hpair, numClauses_modifyClause]
    exact h.count x r

def withWatchers (s : Solver) (p : Lit) (ws : List Nat) : Solver :=
  { s with watches := s.watches.setIfInBounds p.code ws.toArray }

theorem watchers_withWatchers {p : Lit} (hp : p.code < s.watches.size) (ws : List Nat) (x : Lit) :
    (s.withWatchers p ws).watchers x = if x = p then ws else s.watchers x := by
  simp only [watchers, withWatchers, Array.getD_eq_getD_getElem?, Array.getElem?_setIfInBounds]
  by_cases hx : x = p
  · subst hx
    simp [hp]
  · rw [if_neg fun h => hx (Lit.code_inj.mp h.symm), if_neg hx]

end Database

/-! ## Progress of propagation -/

/-- What propagation does to a solver: it adds implied literals and rearranges clauses. -/
structure Propagates (s s' : Solver) : Prop extends Extends s s' where
  numClauses : s'.numClauses = s.numClauses
  perm : ∀ r, (s'.clause r).lits.Perm (s.clause r).lits
  config : s'.config = s.config
  inconsistent : s'.inconsistent = s.inconsistent
  model : s'.model = s.model
  stats : s'.stats = { s.stats with propagations := s'.stats.propagations }
  monitor : s.monitor.Follows s'.monitor
  models : ∀ α, s.Models α → s'.Models α

namespace Propagates

variable {s s' s'' : Solver}

theorem refl (s : Solver) : Propagates s s :=
  ⟨.refl s, rfl, fun _ => .refl _, rfl, rfl, rfl, rfl, .refl _, fun _ => id⟩

theorem trans (h : Propagates s s') (h' : Propagates s' s'') : Propagates s s'' where
  toExtends := h.toExtends.trans h'.toExtends
  numClauses := h'.numClauses.trans h.numClauses
  perm r := (h'.perm r).trans (h.perm r)
  config := h'.config.trans h.config
  inconsistent := h'.inconsistent.trans h.inconsistent
  model := h'.model.trans h.model
  stats := by rw [h'.stats, h.stats]
  monitor := h.monitor.trans h'.monitor
  models α hα := h'.models α (h.models α hα)

/-- Nothing is lost either: the models are the same. -/
theorem models_iff (h : Propagates s s') (ht : TrailInvariant s) {α : Nat → Bool} :
    s'.Models α ↔ s.Models α := by
  refine ⟨fun hα => ⟨fun hi h0 => ?_, fun {r} hr => ?_⟩, h.models α⟩
  · refine hα.root (h.trail hi) ?_
    rw [h.levelOf (by simp [ht.value_of_getElem? hi])]
    exact h0
  · exact (hα.clause (h.numClauses ▸ hr)).perm (h.perm r)

end Propagates

theorem propagates_rearrange {s : Solver} {index : Nat} {f : Clause → Clause}
    (h : Rearranges s index f) :
    Propagates s (s.modifyClause index f) where
  toExtends := ⟨⟨id, fun _ => rfl⟩, rfl, rfl⟩
  numClauses := numClauses_modifyClause s index f
  perm := h.lits_perm
  config := rfl
  inconsistent := rfl
  model := rfl
  stats := rfl
  monitor := .refl _
  models α hα := ⟨hα.root, fun {r} hr =>
    (hα.clause (by simpa using hr)).perm (h.lits_perm r).symm⟩

theorem propagates_watch (s : Solver) (l : Lit) (index : Nat) : Propagates s (s.watch l index) :=
  ⟨⟨⟨id, fun _ => rfl⟩, rfl, rfl⟩, rfl, fun _ => .refl _, rfl, rfl, rfl, rfl, .refl _,
    fun _ hα => ⟨hα.root, hα.clause⟩⟩

/-- A literal of a clause whose other literals are false may be assigned. -/
theorem propagates_assign {s : Solver} {l : Lit} {index : Nat} (ht : TrailInvariant s)
    (hu : s.value l = .unknown) (hv : l.var < s.numVars) (hindex : index < s.numClauses)
    (hfirst : (s.clause index).first = l) (htail : ∀ x ∈ (s.clause index).tail, s.value x = .no) :
    Propagates s (s.assign l (some index)) where
  toExtends := extends_assign hu
  numClauses := rfl
  perm _ := .refl _
  config := rfl
  inconsistent := rfl
  model := rfl
  stats := rfl
  monitor := Monitor.follows_record _ _
  models α hα := by
    refine (models_assign ht hu hv).mpr ⟨hα, fun h0 => ?_⟩
    obtain ⟨x, hx, hxα⟩ := hα.clause hindex
    rcases List.mem_cons.mp hx with rfl | hx
    · rwa [hfirst] at hxα
    · obtain ⟨i, hi⟩ := ht.exists_position (s.value_eq_no.mp (htail x hx))
      have hlevel : s.levelOf x.negate = 0 := Nat.le_zero.mp (h0 ▸ ht.levelOf_le hi)
      exact absurd hxα (Lit.holds_negate.mp (hα.root hi hlevel))

/-! ## The visit -/

/-- State of a visit of the clauses that watch a literal: `kept` stay, `rest` are still to be
visited. The literal became false at position `q` of the trail. -/
structure Visiting (falsified : Lit) (q : Nat) (rest : List Nat) (kept : Array Nat)
    (s : Solver) : Prop where
  wellFormed : WellFormed (s.withWatchers falsified.negate (kept.toList ++ rest))
  position : s.trail[q]? = some falsified.negate
  start_le : ∀ {k}, k < s.level → s.start k ≤ q
  settled : s.Settled q
  visited : ∀ {r}, r < s.numClauses → r ∉ rest → s.Guarded (q + 1) (s.clause r)

namespace Visiting

variable {falsified : Lit} {q index : Nat} {rest : List Nat} {kept : Array Nat} {s : Solver}

theorem trail (h : Visiting falsified q rest kept s) : TrailInvariant s :=
  h.wellFormed.trail.database s.clauses s.watches

theorem value_falsified (h : Visiting falsified q rest kept s) : s.value falsified = .no :=
  s.value_eq_no.mpr (h.trail.value_of_getElem? h.position)

theorem size_watches (h : Visiting falsified q rest kept s) : s.watches.size = 2 * s.numVars := by
  have hsize : (s.watches.setIfInBounds falsified.negate.code (kept.toList ++ rest).toArray).size =
      2 * s.numVars := h.wellFormed.watches.size
  rwa [Array.size_setIfInBounds] at hsize

theorem code_lt (h : Visiting falsified q rest kept s) :
    falsified.negate.code < s.watches.size := by
  rw [h.size_watches]
  exact Lit.code_lt_of_var_lt (h.trail.var_lt h.position)

theorem count_watchers (h : Visiting falsified q rest kept s) (x : Lit) (r : Nat) :
    (if x = falsified.negate then kept.toList ++ rest else s.watchers x).count r =
      if r < s.numClauses ∧ ((s.clause r).first = x.negate ∨ (s.clause r).second = x.negate)
      then 1 else 0 := by
  rw [← watchers_withWatchers h.code_lt]
  exact h.wellFormed.watches.count x r

/-- The next clause to be visited watches the literal and is visited once. -/
theorem next (h : Visiting falsified q (index :: rest) kept s) :
    index < s.numClauses ∧ index ∉ rest ∧
      ((s.clause index).first = falsified ∨ (s.clause index).second = falsified) := by
  have hcount := h.count_watchers falsified.negate index
  simp only [if_pos, List.count_append, List.count_cons_self, Lit.negate_negate] at hcount
  split at hcount
  · rename_i hr
    refine ⟨hr.1, ?_, hr.2⟩
    rw [← List.count_eq_zero]
    omega
  · omega

theorem lits_distinct (h : Visiting falsified q rest kept s) (hindex : index < s.numClauses) :
    (s.clause index).first.var ≠ (s.clause index).second.var ∧
      ∀ x ∈ (s.clause index).rest, (s.clause index).first.var ≠ x.var ∧
        (s.clause index).second.var ≠ x.var := by
  have hdistinct := h.wellFormed.clauses.distinct (r := index) hindex
  change ((s.clause index).lits.map Lit.var).Nodup at hdistinct
  simp only [Clause.lits, List.map_cons, List.nodup_cons, List.mem_cons, List.mem_map, not_or,
    not_exists, not_and, Array.mem_toList_iff] at hdistinct
  obtain ⟨⟨hfs, hf⟩, hs, -⟩ := hdistinct
  exact ⟨hfs, fun x hx => ⟨fun he => hf x hx he.symm, fun he => hs x hx he.symm⟩⟩

/-- Turning a clause round changes nothing but the order of its watched literals. -/
theorem orient (h : Visiting falsified q rest kept s) :
    Visiting falsified q rest kept (s.modifyClause index (Clause.orient falsified)) := by
  have hf : Rearranges (s.withWatchers falsified.negate (kept.toList ++ rest)) index
      (Clause.orient falsified) := rearranges_orient h.value_falsified
  have hguarded : ∀ {n r}, s.Guarded n (s.clause r) →
      (s.modifyClause index (Clause.orient falsified)).Guarded n
        ((s.modifyClause index (Clause.orient falsified)).clause r) := by
    intro n r hg
    rw [clause_modifyClause]
    split
    · exact hg.orient falsified
    · exact hg
  refine ⟨⟨h.wellFormed.trail.database _ _, h.wellFormed.clauses.rearrange hf,
    h.wellFormed.reasons.rearrange h.wellFormed.trail hf, h.wellFormed.watches.orient falsified,
    h.wellFormed.unmarked⟩, h.position, h.start_le, ?_, ?_⟩
  · intro r hr
    exact hguarded (h.settled r (by simpa using hr))
  · intro r hr hrest
    exact hguarded (h.visited (by simpa using hr) hrest)

/-- After turning it round, the clause has the literal in second place and another one in front. -/
theorem second_orient (h : Visiting falsified q (index :: rest) kept s) :
    ((s.modifyClause index (Clause.orient falsified)).clause index).second = falsified ∧
      ((s.modifyClause index (Clause.orient falsified)).clause index).first ≠ falsified := by
  obtain ⟨hindex, -, hwatch⟩ := h.next
  have hne := (h.lits_distinct hindex).1
  rw [clause_modifyClause, if_pos ⟨rfl, hindex⟩]
  rcases Clause.eq_or_eq_of_orient falsified (s.clause index) with ⟨hc, hfirst⟩
    | ⟨hc, hfirst⟩ <;> rw [hc]
  · exact ⟨hwatch.resolve_left hfirst, hfirst⟩
  · refine ⟨hfirst, fun he => hne ?_⟩
    change (s.clause index).second = falsified at he
    rw [hfirst, he]

/-- The first literal was not false before the visit began. -/
theorem guards_first (h : Visiting falsified q rest kept s) (hindex : index < s.numClauses)
    (hsecond : (s.clause index).second = falsified) (hfirst : (s.clause index).first ≠ falsified)
    (other : Lit) : s.Guards (q + 1) (s.clause index).first other := by
  refine Guards.succ (fun i hi hw => ?_) fun hq => ?_
  · have hyes := ((h.settled index hindex).1 i hi hw).1
    rw [hsecond, h.value_falsified] at hyes
    cases hyes
  · rw [h.position, Option.some.injEq, Lit.negate_inj] at hq
    exact hfirst hq.symm

theorem kept_push_append (kept : Array Nat) (index : Nat) (rest : List Nat) :
    (kept.push index).toList ++ rest = kept.toList ++ index :: rest := by
  rw [Array.toList_push, List.append_assoc, List.singleton_append]

theorem keep (h : Visiting falsified q (index :: rest) kept s)
    (hg : s.Guarded (q + 1) (s.clause index)) : Visiting falsified q rest (kept.push index) s := by
  refine ⟨by rw [kept_push_append]; exact h.wellFormed, h.position, h.start_le, h.settled, ?_⟩
  intro r hr hrest
  by_cases hri : r = index
  · rw [hri]
    exact hg
  · exact h.visited hr (by simp [hri, hrest])

/-- An assignment does not disturb the visit. -/
theorem assign (h : Visiting falsified q rest kept s) {l : Lit} {r : Option Nat}
    (hu : s.value l = .unknown) (hv : l.var < s.numVars) (hj : s.Justified l r) :
    Visiting falsified q rest kept (s.assign l r) := by
  have hext : Extends s (s.assign l r) := extends_assign hu
  have hq : q + 1 ≤ s.trail.size := lt_size_of_getElem? h.position
  refine ⟨WellFormed.assign (s := s.withWatchers falsified.negate (kept.toList ++ rest))
    h.wellFormed hu hv hj, hext.trail h.position, h.start_le, ?_, ?_⟩
  · intro i hi
    exact ⟨hext.guards h.trail (h.settled i hi).1 (Nat.le_of_succ_le hq),
      hext.guards h.trail (h.settled i hi).2 (Nat.le_of_succ_le hq)⟩
  · intro i hi hrest
    exact ⟨hext.guards h.trail (h.visited hi hrest).1 hq,
      hext.guards h.trail (h.visited hi hrest).2 hq⟩

theorem guards_falsified (h : Visiting falsified q rest kept s) {other : Lit}
    (hother : s.value other = .yes) : s.Guards (q + 1) falsified other := by
  intro i _ hi
  obtain ⟨j, hj⟩ := h.trail.exists_position hother
  refine ⟨hother, (h.trail.levelOf_le hj).trans ?_⟩
  by_contra hlt
  rw [← levelOf_negate] at hlt
  have hk : s.levelOf falsified.negate < s.level := Nat.lt_of_not_le hlt
  have hlt := (h.trail.lt_start hk h.position).mpr (Nat.le_refl _)
  exact absurd (h.start_le hk) (Nat.not_le_of_lt hlt)

/-- A free literal among the unwatched ones: it is not the falsified one, nor one of the watched. -/
theorem unwatched_spec (h : Visiting falsified q (index :: rest) kept s) {i : Nat}
    (hi : i < (s.clause index).rest.size) :
    (s.clause index).unwatched i ∈ (s.clause index).lits ∧
      (s.clause index).first ≠ (s.clause index).unwatched i ∧
      (s.clause index).second ≠ (s.clause index).unwatched i := by
  have hmem : (s.clause index).unwatched i ∈ (s.clause index).rest := by
    rw [Clause.unwatched, Array.getD_eq_getD_getElem?, Array.getElem?_eq_getElem hi]
    exact Array.getElem_mem hi
  obtain ⟨hf, hs⟩ := (h.lits_distinct h.next.1).2 _ hmem
  refine ⟨List.mem_cons_of_mem _ (List.mem_cons_of_mem _ (Array.mem_toList_iff.mpr hmem)), ?_, ?_⟩
  · exact fun he => hf (congrArg Lit.var he)
  · exact fun he => hs (congrArg Lit.var he)

theorem clause_rewatch (hindex : index < s.numClauses) (i : Nat) (l : Lit) (r : Nat) :
    ((s.modifyClause index (Clause.rewatch i)).watch l index).clause r =
      if r = index then Clause.rewatch i (s.clause index) else s.clause r := by
  rw [clause_watch, clause_modifyClause]
  by_cases hr : r = index
  · rw [if_pos ⟨hr.symm, hr ▸ hindex⟩, if_pos hr, hr]
  · rw [if_neg fun hc => hr hc.1.symm, if_neg hr]

theorem watchers_rewatch (h : Visiting falsified q (index :: rest) kept s) {i : Nat}
    (hi : i < (s.clause index).rest.size) (x : Lit) :
    (((s.modifyClause index (Clause.rewatch i)).watch
      ((s.clause index).unwatched i) index).withWatchers
      falsified.negate (kept.toList ++ rest)).watchers x =
      if x = falsified.negate then kept.toList ++ rest
      else if x = ((s.clause index).unwatched i).negate then s.watchers x ++ [index]
      else s.watchers x := by
  have hlt : ((s.clause index).unwatched i).negate.code < s.watches.size := by
    rw [h.size_watches]
    refine Lit.code_lt_of_var_lt ?_
    rw [Lit.var_negate]
    exact h.wellFormed.clauses.var_lt h.next.1 _ (h.unwatched_spec hi).1
  rw [watchers_withWatchers, watchers_watch (s.modifyClause index (Clause.rewatch i)) _ index x hlt]
  · rfl
  · simpa only [watch, modifyClause, Array.size_modify] using h.code_lt

/-- When a watch moves, the clause leaves one list and enters another. -/
theorem count_rewatch (h : Visiting falsified q (index :: rest) kept s)
    (hsecond : (s.clause index).second = falsified)
    (hfirst : (s.clause index).first ≠ falsified) {i : Nat}
    (hi : i < (s.clause index).rest.size) (x : Lit) :
    (if x = falsified.negate then kept.toList ++ rest
      else if x = ((s.clause index).unwatched i).negate then s.watchers x ++ [index]
      else s.watchers x).count index =
      if (s.clause index).first = x.negate ∨ (s.clause index).unwatched i = x.negate
      then 1 else 0 := by
  obtain ⟨-, hnotfirst, hnotsecond⟩ := h.unwatched_spec hi
  have hold := h.count_watchers x index
  rw [hsecond] at hnotsecond
  simp only [hsecond, h.next.1, true_and] at hold
  generalize (s.clause index).unwatched i = l at *
  by_cases hx : x = falsified.negate
  · subst hx
    simp only [if_pos, Lit.negate_negate, or_true, List.count_append,
      List.count_cons_self] at hold ⊢
    rw [if_neg (by rintro (he | he); exacts [hfirst he, hnotsecond he.symm])]
    omega
  · rw [if_neg hx] at hold
    rw [if_neg hx]
    by_cases hxl : x = l.negate
    · subst hxl
      rw [Lit.negate_negate,
        if_neg (by rintro (he | he); exacts [hnotfirst he, hnotsecond he])] at hold
      rw [if_pos rfl, List.count_append, hold, Lit.negate_negate, if_pos (.inr rfl),
        List.count_singleton_self]
    · rw [if_neg hxl, hold]
      have hf : falsified ≠ x.negate := fun he => hx (Lit.eq_negate_iff.mp he).symm
      have hl' : l ≠ x.negate := fun he => hxl (Lit.eq_negate_iff.mp he).symm
      simp only [hf, hl']

theorem watches_rewatch (h : Visiting falsified q (index :: rest) kept s)
    (hsecond : (s.clause index).second = falsified)
    (hfirst : (s.clause index).first ≠ falsified) {i : Nat}
    (hi : i < (s.clause index).rest.size) :
    WatchInvariant
    (((s.modifyClause index (Clause.rewatch i)).watch ((s.clause index).unwatched i) index)
      |>.withWatchers falsified.negate (kept.toList ++ rest)) := by
  have hindex := h.next.1
  have hsize :
      (((s.modifyClause index (Clause.rewatch i)).watch ((s.clause index).unwatched i) index)
      |>.withWatchers falsified.negate (kept.toList ++ rest)).watches.size = s.watches.size := by
    simp only [withWatchers, watch, modifyClause, Array.size_setIfInBounds, Array.size_modify]
  refine ⟨hsize.trans h.size_watches, fun x r => ?_⟩
  have hclause :
      (((s.modifyClause index (Clause.rewatch i)).watch ((s.clause index).unwatched i) index)
      |>.withWatchers falsified.negate (kept.toList ++ rest)).clause r =
      if r = index then Clause.rewatch i (s.clause index) else s.clause r :=
    clause_rewatch hindex i ((s.clause index).unwatched i) r
  have hnum :
      (((s.modifyClause index (Clause.rewatch i)).watch ((s.clause index).unwatched i) index)
      |>.withWatchers falsified.negate (kept.toList ++ rest)).numClauses = s.numClauses :=
    numClauses_modifyClause s index (Clause.rewatch i)
  rw [h.watchers_rewatch hi, hclause, hnum]
  by_cases hr : r = index
  · rw [hr, h.count_rewatch hsecond hfirst hi, if_pos rfl]
    simp only [hindex, true_and]
    rfl
  · rw [if_neg hr, ← h.count_watchers x r]
    have hne : index ≠ r := fun he => hr he.symm
    split
    · simp only [List.count_append, List.count_cons_of_ne hne]
    · split
      · simp only [List.count_append, List.count_cons_of_ne hne, List.count_nil, Nat.add_zero]
      · rfl

/-- The second watch of a clause may move to a literal that is not false. -/
theorem rewatch (h : Visiting falsified q (index :: rest) kept s)
    (hsecond : (s.clause index).second = falsified)
    (hfirst : (s.clause index).first ≠ falsified) {i : Nat}
    (hi : i < (s.clause index).rest.size) (hfree : s.value ((s.clause index).unwatched i) ≠ .no) :
    Visiting falsified q rest kept
      ((s.modifyClause index (Clause.rewatch i)).watch ((s.clause index).unwatched i) index) := by
  obtain ⟨hindex, hrest, -⟩ := h.next
  have hf : Rearranges (s.withWatchers falsified.negate (kept.toList ++ index :: rest)) index
      (Clause.rewatch i) := rearranges_rewatch hi
  have hclause := clause_rewatch (s := s) hindex i ((s.clause index).unwatched i)
  have hguarded : s.Guarded (q + 1) (Clause.rewatch i (s.clause index)) :=
    ⟨h.guards_first hindex hsecond hfirst _, guards_of_value h.trail hfree⟩
  have hclauses := h.wellFormed.clauses.rearrange hf
  have hreasons := h.wellFormed.reasons.rearrange h.wellFormed.trail hf
  refine ⟨⟨h.wellFormed.trail.database _ _, ⟨hclauses.var_lt, hclauses.distinct⟩,
    ⟨hreasons.implied, hreasons.decided⟩, h.watches_rewatch hsecond hfirst hi,
    h.wellFormed.unmarked⟩, h.position, h.start_le, ?_, ?_⟩
  · intro r hr
    rw [hclause]
    split
    · exact hguarded.mono (Nat.le_succ q)
    · exact h.settled r (by simpa using hr)
  · intro r hr hrest'
    rw [hclause]
    split
    · exact hguarded
    · rename_i hne
      exact h.visited (by simpa using hr) (by simp [hne, hrest'])

end Visiting

end ModelExpansion.Sat.Solver
