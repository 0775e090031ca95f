import ModelExpansion.Proofs.Sat.Analysis
import ModelExpansion.Proofs.Sat.Growth

/-! # Learning from a conflict
The lesson of a conflict is a clause that was not known before. Learning it returns to a lower
level, where its first literal becomes true. -/

namespace ModelExpansion.Sat.Solver

/-! ## What is known -/

/-- The clauses that a solver holds: the stored ones and the literals of level zero. -/
def Known (s : Solver) (c : List Lit) : Prop :=
  (∃ r < s.numClauses, (s.clause r).lits.Perm c) ∨
    ∃ (i : Nat) (l : Lit), s.trail[i]? = some l ∧ s.levelOf l = 0 ∧ c = [l]

theorem models_iff_known {s : Solver} {α : Nat → Bool} :
    s.Models α ↔ ∀ c, s.Known c → Satisfies α c := by
  constructor
  · rintro h c (⟨r, hr, hperm⟩ | ⟨i, l, hi, h0, rfl⟩)
    · exact (h.clause hr).perm hperm
    · exact ⟨l, List.mem_cons_self, h.root hi h0⟩
  · intro h
    refine ⟨fun {i l} hi h0 => ?_, fun {r} hr => h _ (.inl ⟨r, hr, .refl _⟩)⟩
    obtain ⟨x, hx, hα⟩ := h [l] (.inr ⟨i, l, hi, h0, rfl⟩)
    rwa [List.mem_singleton.mp hx] at hα

/-- Later on in a search: nothing is forgotten, and what is learned was implied. -/
structure Continues (s s' : Solver) : Prop where
  numVars : s'.numVars = s.numVars
  config : s'.config = s.config
  inconsistent : s'.inconsistent = s.inconsistent
  monitor : s.monitor.Follows s'.monitor
  known : ∀ c, s.Known c → s'.Known c
  models : ∀ α, s.Models α → s'.Models α

namespace Continues

variable {s s' s'' : Solver}

theorem trans (h : Continues s s') (h' : Continues s' s'') : Continues s s'' where
  numVars := h'.numVars.trans h.numVars
  config := h'.config.trans h.config
  inconsistent := h'.inconsistent.trans h.inconsistent
  monitor := h.monitor.trans h'.monitor
  known c hc := h'.known c (h.known c hc)
  models α hα := h'.models α (h.models α hα)

theorem models_iff (h : Continues s s') {α : Nat → Bool} : s'.Models α ↔ s.Models α :=
  ⟨fun hα => models_iff_known.mpr fun c hc => models_iff_known.mp hα c (h.known c hc), h.models α⟩

end Continues

variable {s : Solver}

theorem Propagates.continues {s' : Solver} (h : Propagates s s') (ht : TrailInvariant s) :
    Continues s s' where
  numVars := h.numVars
  config := h.config
  inconsistent := h.inconsistent
  monitor := h.monitor
  known := by
    rintro c (⟨r, hr, hperm⟩ | ⟨i, l, hi, h0, rfl⟩)
    · exact .inl ⟨r, h.numClauses ▸ hr, (h.perm r).trans hperm⟩
    · refine .inr ⟨i, l, h.trail hi, ?_, rfl⟩
      rw [h.levelOf (by simp [ht.value_of_getElem? hi])]
      exact h0
  models := h.models

theorem follows_cancelUntil (s : Solver) (k : Nat) :
    s.monitor.Follows (s.cancelUntil k).monitor := by
  unfold cancelUntil
  split
  · exact .refl _
  · exact Monitor.follows_record _ _

theorem continues_cancelUntil (ht : TrailInvariant s) (k : Nat) :
    Continues s (s.cancelUntil k) where
  numVars := numVars_cancelUntil
  config := config_cancelUntil
  inconsistent := inconsistent_cancelUntil
  monitor := follows_cancelUntil s k
  known := by
    rintro c (⟨r, hr, hperm⟩ | ⟨i, l, hi, h0, rfl⟩)
    · refine .inl ⟨r, ?_, ?_⟩ <;> simpa only [numClauses, clause, clauses_cancelUntil]
    · refine .inr ⟨i, l, (getElem?_trail_cancelUntil ht).mpr ⟨hi, ?_⟩, ?_, rfl⟩
      · rw [h0]
        exact Nat.zero_le k
      · rw [levelOf_cancelUntil, h0]
  models _ hα := (models_cancelUntil ht).mpr hα

theorem Grows.known {s' : Solver} (h : Grows s s') (ht : TrailInvariant s)
    (hclause : ∀ r < s.numClauses, r < s'.numClauses ∧ s'.clause r = s.clause r) {c : List Lit}
    (hc : s.Known c) : s'.Known c := by
  rcases hc with ⟨r, hr, hperm⟩ | ⟨i, l, hi, h0, rfl⟩
  · obtain ⟨hr', he⟩ := hclause r hr
    exact .inl ⟨r, hr', he ▸ hperm⟩
  · refine .inr ⟨i, l, h.trail hi, ?_, rfl⟩
    rw [h.levelOf (by simp [ht.value_of_getElem? hi]), h0]

theorem continues_assign {l : Lit} {r : Option Nat} (ht : TrailInvariant s)
    (hu : s.value l = .unknown)
    (hv : l.var < s.numVars) (hl : ∀ α, s.Models α → s.level = 0 → l.Holds α) :
    Continues s (s.assign l r) where
  numVars := numVars_assign s l r
  config := rfl
  inconsistent := rfl
  monitor := Monitor.follows_record _ _
  known _ hc := (extends_assign hu).known ht (fun _ hr => ⟨hr, rfl⟩) hc
  models α hα := (models_assign ht hu hv).mpr ⟨hα, hl α hα⟩

theorem continues_decide {l : Lit} (ht : TrailInvariant s) (hu : s.value l = .unknown)
    (hv : l.var < s.numVars) : Continues s (s.decide l) where
  numVars := numVars_decide s l
  config := rfl
  inconsistent := rfl
  monitor := Monitor.follows_record _ _
  known _ hc := (grows_decide hu).known ht (fun _ hr => ⟨hr, rfl⟩) hc
  models _ hα := (models_decide ht hu hv).mpr hα

theorem continues_attach {c : Clause} (ht : TrailInvariant s)
    (hc : ∀ α, s.Models α → Satisfies α c.lits) : Continues s (s.attach c) where
  numVars := rfl
  config := rfl
  inconsistent := rfl
  monitor := .refl _
  known _ hknown := by
    refine (grows_attach s c).known ht (fun r hr => ⟨?_, clause_attach_of_lt hr⟩) hknown
    rw [numClauses_attach]
    exact Nat.lt_succ_of_lt hr
  models α hα := models_attach.mpr ⟨hα, hc α hα⟩

/-- Counters, activities and answers have no part in what is known. -/
theorem continues_bookkeeping (s : Solver) (stats : Stats) (activity : FloatArray)
    (increment : Float) (model : Option Model) :
    Continues s
      { s with stats := stats, activity := activity, increment := increment, model := model } :=
  ⟨rfl, rfl, rfl, .refl _, fun _ => id, fun _ hα => ⟨hα.root, hα.clause⟩⟩

/-! ## The lesson is learned -/

/-- What learning does: the clause is known from then on and is true at the level returned to. -/
structure Learned (s : Solver) (c : List Lit) (s' : Solver) : Prop where
  continues : Continues s s'
  wellFormed : WellFormed s'
  settled : s'.Settled s'.queueHead
  known : s'.Known c

theorem learned_unit {l : Lit} (h : WellFormed s) (hs : s.Settled s.queueHead)
    (hlevel : s.level = 0)
    (hu : s.value l = .unknown) (hv : l.var < s.numVars)
    (himplied : ∀ α, s.Models α → Satisfies α [l]) :
    Learned s [l] (s.assign l none) where
  continues := by
    refine continues_assign h.trail hu hv fun α hα _ => ?_
    obtain ⟨x, hx, hxα⟩ := himplied α hα
    rwa [List.mem_singleton.mp hx] at hxα
  wellFormed := h.assign hu hv (Or.inl hlevel)
  settled := hs.assign h.trail hu
  known := by
    refine .inr ⟨s.trail.size, l, ?_, ?_, rfl⟩
    · rw [trail_assign, Array.getElem?_push, if_pos rfl]
    · rw [levelOf_assign_self hv, hlevel]

/-- A new clause may be watched by its first literal, which becomes true, and one of the highest
level. -/
theorem learned_clause {c : Clause} (h : WellFormed s) (hs : s.Settled s.queueHead)
    (hlevel : 0 < s.level)
    (hlt : ∀ l ∈ c.lits, l.var < s.numVars) (hdistinct : (c.lits.map Lit.var).Nodup)
    (hu : s.value c.first = .unknown) (htail : ∀ l ∈ c.tail, s.value l = .no)
    (hsecond : s.levelOf c.second = s.level) (himplied : ∀ α, s.Models α → Satisfies α c.lits) :
    Learned s c.lits ((s.attach c).assign c.first (some s.numClauses)) := by
  have hu' : (s.attach c).value c.first = .unknown := hu
  have hv : c.first.var < (s.attach c).numVars := hlt _ List.mem_cons_self
  have hwf := h.attach hlt hdistinct
  have hunit : (s.attach c).Justified c.first (some s.numClauses) := by
    refine ⟨?_, ?_, ?_⟩
    · rw [numClauses_attach]
      exact Nat.lt_succ_self _
    · rw [clause_attach_self]
    · rw [clause_attach_self]
      exact htail
  have hassigned := hwf.assign hu' hv hunit
  have hextends : Extends (s.attach c) ((s.attach c).assign c.first (some s.numClauses)) :=
    extends_assign hu'
  refine ⟨(continues_attach h.trail himplied).trans
    (continues_assign hwf.trail hu' hv fun _ _ h0 => ?_),
    hassigned, fun r hr => ?_, .inl ⟨s.numClauses, ?_, ?_⟩⟩
  · exact absurd h0 (Nat.ne_of_gt hlevel)
  · change ((s.attach c).assign c.first (some s.numClauses)).Guarded s.queueHead
      ((s.attach c).clause r)
    rcases lt_or_eq_of_attach hr with hr | rfl
    · rw [clause_attach_of_lt hr]
      exact ⟨hextends.guards hwf.trail (hs r hr).1 h.trail.head_le,
        hextends.guards hwf.trail (hs r hr).2 h.trail.head_le⟩
    · rw [clause_attach_self]
      have hyes := value_assign_self (r := some s.numClauses) hv
      refine ⟨guards_of_value hassigned.trail (by simp [hyes]), fun _ _ _ => ⟨hyes, ?_⟩⟩
      have hno : (s.attach c).value c.second = .no := htail _ List.mem_cons_self
      rw [levelOf_assign_self hv, hextends.levelOf (by simp [hno])]
      exact Nat.le_of_eq hsecond.symm
  · change s.numClauses < (s.attach c).numClauses
    rw [numClauses_attach]
    exact Nat.lt_succ_self _
  · change ((s.attach c).clause s.numClauses).lits.Perm c.lits
    rw [clause_attach_self]

theorem Learned.of_continues {c : List Lit} {s' s'' : Solver} (h : Learned s' c s'')
    (hs : Continues s s') : Learned s c s'' :=
  ⟨hs.trans h.continues, h.wellFormed, h.settled, h.known⟩

/-- What the lesson looks like at the level that the search returns to. -/
structure Asserting (s : Solver) (lesson : Lesson) : Prop where
  var_lt : ∀ l ∈ lesson.asserting :: lesson.others, l.var < s.numVars
  asserting : s.value lesson.asserting = .unknown
  others : ∀ l ∈ lesson.others, s.value l = .no

theorem asserting_cancelUntil {lesson : Lesson} (h : TrailInvariant s)
    (ht : Analysis.Taught s lesson) :
    Asserting (s.cancelUntil lesson.backjump) lesson where
  var_lt l hl := by
    rw [numVars_cancelUntil, ← Lit.var_negate]
    refine s.lt_of_value_eq_yes (s.value_eq_no.mp ?_)
    rcases List.mem_cons.mp hl with rfl | hl
    · exact ht.value
    · exact (ht.others l hl).1
  asserting := by
    have hlevel : lesson.backjump < s.levelOf lesson.asserting.negate := by
      rw [levelOf_negate, ht.level]
      exact ht.backjump_lt
    have hlost := value_cancelUntil_of_lt h ht.backjump_lt (s.value_eq_no.mp ht.value) hlevel
    rwa [value_eq_unknown, Lit.var_negate, ← value_eq_unknown] at hlost
  others l hl := by
    obtain ⟨hno, -, hle⟩ := ht.others l hl
    rw [value_eq_no, value_cancelUntil_eq_yes h, levelOf_negate]
    exact ⟨s.value_eq_no.mp hno, hle⟩

theorem learn_spec {lesson : Lesson} (h : WellFormed s) (ht : Analysis.Taught s lesson)
    (hs : ∀ {k}, k < s.level → s.Settled (s.start k)) :
    Learned s (lesson.asserting :: lesson.others) (s.learn lesson) := by
  have hwf := h.cancelUntil lesson.backjump
  have hsettled := (hs ht.backjump_lt).cancelUntil h.trail ht.backjump_lt
  have hback := continues_cancelUntil h.trail lesson.backjump
  have hlevel : (s.cancelUntil lesson.backjump).level = lesson.backjump :=
    level_cancelUntil (Nat.le_of_lt ht.backjump_lt)
  have hasserting := asserting_cancelUntil h.trail ht
  have himplied : ∀ α, (s.cancelUntil lesson.backjump).Models α →
      Satisfies α (lesson.asserting :: lesson.others) :=
    fun α hα => ht.implied α (hback.models_iff.mp hα)
  have hlevelOf : ∀ l, (s.cancelUntil lesson.backjump).levelOf l = s.levelOf l :=
    levelOf_cancelUntil
  obtain ⟨a, others, k⟩ := lesson
  dsimp only at *
  rw [learn]
  dsimp only
  generalize s.cancelUntil k = t at *
  have hcounted : ∀ {c s' stats increment}, Learned t c s' →
      Learned s c { s' with stats := stats, increment := increment } := fun h' =>
    ⟨(hback.trans h'.continues).trans (continues_bookkeeping _ _ _ _ _),
      h'.wellFormed.bookkeeping _ _ _ _ _ _, h'.settled, h'.known⟩
  cases others with
  | nil =>
      exact hcounted (learned_unit hwf hsettled (hlevel.trans (ht.unit rfl)) hasserting.asserting
        (hasserting.var_lt a List.mem_cons_self) himplied)
  | cons l rest =>
      have hl := (ht.others l List.mem_cons_self).2
      refine hcounted (learned_clause (c := ⟨a, l, rest.toArray⟩) hwf hsettled ?_ hasserting.var_lt
        ht.distinct hasserting.asserting hasserting.others ?_ himplied)
      · rw [hlevel]
        exact hl.1.trans_le hl.2
      · rw [hlevelOf, hlevel]
        exact ht.second rfl

end ModelExpansion.Sat.Solver
