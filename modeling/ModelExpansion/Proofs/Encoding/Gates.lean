import ModelExpansion.Proofs.Encoding.Invariant

/-! # Gates say what they stand for
A gate is a fresh variable whose clauses determine it, so it restricts no world. -/

namespace ModelExpansion

open ModelExpansion.Sat

namespace Encoder

variable {e e' e'' : Encoder}

/-! ## Clauses -/

/-- Clauses that say something have been handed to the solver, and nothing else has changed. -/
structure Adds (e e' : Encoder) (P : (Nat → Bool) → Prop) : Prop where
  same : e' = { e with solver := e'.solver, stats := e'.stats }
  config : e'.solver.config = e.solver.config
  monitor : e.solver.monitor.Follows e'.solver.monitor
  numVars : e'.solver.numVars = e.solver.numVars
  valid : e'.solver.Valid
  admits : ∀ {α}, e'.solver.Admits α ↔ e.solver.Admits α ∧ P α

variable {P Q : (Nat → Bool) → Prop}

theorem Adds.refl (h : e.solver.Valid) : Adds e e fun _ => True :=
  ⟨rfl, rfl, .refl _, rfl, h, fun {α} => by simp⟩

theorem Adds.trans (h : Adds e e' P) (h' : Adds e' e'' Q) : Adds e e'' fun α => P α ∧ Q α where
  same := by rw [h'.same, h.same]
  config := h'.config.trans h.config
  monitor := h.monitor.trans h'.monitor
  numVars := h'.numVars.trans h.numVars
  valid := h'.valid
  admits := by
    intro α
    rw [h'.admits, h.admits, and_assoc]

theorem Adds.congr (h : Adds e e' P) (hPQ : ∀ α, P α ↔ Q α) : Adds e e' Q :=
  ⟨h.same, h.config, h.monitor, h.numVars, h.valid, h.admits.trans (and_congr_right' (hPQ _))⟩

theorem adds_clause (h : e.solver.Valid) {c : List Lit} (hc : ∀ l ∈ c, l.var < e.solver.numVars) :
    Adds e (e.clause c).1 fun α => Satisfies α c where
  same := rfl
  config := h.config_addClause c
  monitor := h.follows_addClause c
  numVars := h.numVars_addClause hc
  valid := h.addClause c
  admits := h.admits_addClause c

theorem adds_clauses (h : e.solver.Valid) {cs : List (List Lit)}
    (hcs : ∀ c ∈ cs, ∀ l ∈ c, l.var < e.solver.numVars) :
    Adds e (e.clauses cs) fun α => ∀ c ∈ cs, Satisfies α c := by
  induction cs generalizing e with
  | nil => exact (Adds.refl h).congr fun _ => by simp
  | cons c cs ih =>
      have hc := adds_clause h (hcs c List.mem_cons_self)
      have hrest : Adds (e.clause c).1 ((e.clause c).1.clauses cs) fun α =>
          ∀ c ∈ cs, Satisfies α c := by
        refine ih hc.valid fun d hd l hl => ?_
        rw [hc.numVars]
        exact hcs d (List.mem_cons_of_mem _ hd) l hl
      exact (hc.trans hrest).congr fun _ => by rw [List.forall_mem_cons]

theorem Adds.sound (h : Sound e) (ha : Adds e e' P) : Sound e' :=
  h.later ha.same ha.valid (Nat.le_of_eq ha.numVars.symm) fun hα => (ha.admits.mp hα).1

theorem Adds.constrained (h : Sound e) {R : World → Prop} (ha : Adds e e' P)
    (hP : ∀ {α}, e.solver.Admits α → (P α ↔ R (e.world α))) : Constrained e e' R where
  same := by rw [ha.same]
  config := ha.config
  monitor := ha.monitor
  numVars := Nat.le_of_eq ha.numVars.symm
  sound := ha.sound h
  restrict hα := by
    obtain ⟨hα, hP'⟩ := ha.admits.mp hα
    exact ⟨hα, (hP hα).mp hP'⟩
  extend := fun {α} hα hR => ⟨α, fun _ _ => rfl, ha.admits.mpr ⟨hα, (hP hα).mpr hR⟩⟩

/-! ## Fresh variables -/

def assignVar (α : Nat → Bool) (v : Nat) (b : Bool) (w : Nat) : Bool := if w = v then b else α w

theorem holds_assignVar_self {α : Nat → Bool} {v : Nat} {b : Bool} :
    (Lit.pos v).Holds (assignVar α v b) ↔ b = true := by
  rw [Lit.Holds, Lit.pos, Lit.var_signed, Lit.positive_signed, assignVar, if_pos rfl]

/-- A fresh variable with clauses that determine it by the others says what they say. -/
theorem grown_of_defined (h : Sound e) {cs : List (List Lit)}
    (hcs : ∀ c ∈ cs, ∀ l ∈ c, l.var < e.solver.numVars + 1)
    (hP : ∀ {α β : Nat → Bool}, (∀ v < e.solver.numVars, α v = β v) → (P α ↔ P β))
    (hdefined : ∀ α, (∀ c ∈ cs, Satisfies α c) ↔ ((Lit.pos e.solver.numVars).Holds α ↔ P α)) :
    Grown e (e.newGate.1.clauses cs) ∧ Says (e.newGate.1.clauses cs) e.newGate.2 P := by
  have hnew : e.newGate.1.solver.numVars = e.solver.numVars + 1 := Solver.numVars_newVar e.solver
  have hadds := adds_clauses (e := e.newGate.1) h.valid.newVar (by rw [hnew]; exact hcs)
  have hadmits : ∀ {α}, (e.newGate.1.clauses cs).solver.Admits α ↔ e.solver.Admits α ∧
      ((Lit.pos e.solver.numVars).Holds α ↔ P α) := fun {α} =>
    hadds.admits.trans (and_congr Solver.admits_newVar (hdefined α))
  have hnumVars : (e.newGate.1.clauses cs).solver.numVars = e.solver.numVars + 1 :=
    hadds.numVars.trans hnew
  have hle : e.solver.numVars ≤ (e.newGate.1.clauses cs).solver.numVars := hnumVars ▸ Nat.le_succ _
  have hsame : e.newGate.1.clauses cs =
      { e with
        solver := (e.newGate.1.clauses cs).solver, stats := (e.newGate.1.clauses cs).stats } := by
    rw [hadds.same]
    rfl
  have hsound := h.later hsame hadds.valid hle fun hα => (hadmits.mp hα).1
  refine ⟨⟨?_, hadds.config, hadds.monitor, hle, hsound, fun hα => ⟨(hadmits.mp hα).1, trivial⟩,
    fun {α} hα _ => ?_⟩, ?_⟩
  · rw [hsame]
  · classical
    have hagree : ∀ v < e.solver.numVars, assignVar α e.solver.numVars (decide (P α)) v = α v :=
      fun v hv => if_neg (Nat.ne_of_lt hv)
    refine ⟨assignVar α e.solver.numVars (decide (P α)), hagree, hadmits.mpr ⟨?_, ?_⟩⟩
    · exact h.valid.admits_congr (fun v hv => (hagree v hv).symm) hα
    · rw [holds_assignVar_self, decide_eq_true_iff, hP hagree]
  · refine ⟨?_, fun hα => (hadmits.mp hα).2⟩
    rw [hnumVars]
    exact (Lit.var_signed e.solver.numVars true).symm ▸ Nat.lt_succ_self _

/-! ## Conjunctions -/

theorem forall_mem_andClauses {g : Lit} {lits : List Lit} {α : Nat → Bool} :
    (∀ c ∈ andClauses g lits, Satisfies α c) ↔ (g.Holds α ↔ ∀ l ∈ lits, l.Holds α) := by
  have hforward : (∀ c ∈ lits.map (fun l => [g.negate, l]), Satisfies α c) ↔
      (g.Holds α → ∀ l ∈ lits, l.Holds α) := by
    simp only [List.forall_mem_map, Satisfies, List.mem_cons, List.not_mem_nil, or_false,
      exists_eq_or_imp, exists_eq_left, Lit.holds_negate, ← imp_iff_not_or]
    exact ⟨fun h hg l hl => h l hl hg, fun h l hl hg => h hg l hl⟩
  have hback : Satisfies α (g :: lits.map Lit.negate) ↔ ((∀ l ∈ lits, l.Holds α) → g.Holds α) := by
    simp only [Satisfies, List.mem_cons, exists_eq_or_imp, List.mem_map, exists_exists_and_eq_and,
      Lit.holds_negate]
    by_cases hg : g.Holds α <;> simp [hg]
  rw [andClauses, List.forall_mem_append, hforward, List.forall_mem_singleton, hback]
  exact iff_iff_implies_and_implies.symm

theorem forall_mem_iffClauses {g a b : Lit} {α : Nat → Bool} :
    (∀ c ∈ iffClauses g a b, Satisfies α c) ↔ (g.Holds α ↔ (a.Holds α ↔ b.Holds α)) := by
  rw [iffClauses, List.forall_mem_cons, List.forall_mem_cons, List.forall_mem_cons,
    List.forall_mem_singleton]
  simp only [Satisfies, List.mem_cons, List.not_mem_nil, or_false, exists_eq_or_imp, exists_eq_left,
    Lit.holds_negate]
  by_cases hg : g.Holds α <;> by_cases ha : a.Holds α <;> by_cases hb : b.Holds α <;>
    simp [hg, ha, hb]

theorem forall_holds_congr {n : Nat} {lits : List Lit} (hlits : ∀ l ∈ lits, l.var < n)
    {α β : Nat → Bool} (h : ∀ v < n, α v = β v) : (∀ l ∈ lits, l.Holds α) ↔ ∀ l ∈ lits, l.Holds β :=
  forall₂_congr fun l hl => Lit.holds_congr (h _ (hlits l hl))

theorem grown_insert {lits : List Lit} {g : Lit} (h : Sound e)
    (hg : Says e g fun α => ∀ l ∈ lits, l.Holds α) :
    Grown e { e with gates := e.gates.insert lits g } := by
  have hget : ∀ {ls : List Lit} {x}, (e.gates.insert lits g)[ls]? = some x →
      (ls = lits ∧ x = g) ∨ e.gates[ls]? = some x := by
    intro ls x hx
    rw [Std.ExtTreeMap.getElem?_insert] at hx
    split at hx
    · rename_i heq
      cases hx
      exact .inl ⟨(Std.LawfulEqOrd.eq_of_compare heq).symm, rfl⟩
    · exact .inr hx
  refine ⟨rfl, rfl, .refl _, Nat.le_refl _,
    ⟨h.valid, h.index_lt, h.truth_lt, h.truth, h.single, fun hx => ?_,
    fun hx => ?_⟩, fun hα => ⟨hα, trivial⟩, fun {α} hα _ => ⟨α, fun _ _ => rfl, hα⟩⟩
  · rcases hget hx with ⟨-, rfl⟩ | hx
    · exact hg.var_lt
    · exact h.gates_lt hx
  · rcases hget hx with ⟨rfl, rfl⟩ | hx
    · exact hg.holds_iff
    · exact h.gates hx

theorem grown_stats (h : Sound e) (stats : EncodingStats) : Grown e { e with stats := stats } :=
  ⟨rfl, rfl, .refl _, Nat.le_refl _,
    ⟨h.valid, h.index_lt, h.truth_lt, h.truth, h.single, h.gates_lt, h.gates⟩,
    fun hα => ⟨hα, trivial⟩, fun {α} hα _ => ⟨α, fun _ _ => rfl, hα⟩⟩

theorem newGate_var (e : Encoder) : e.newGate.2.var = e.solver.numVars := Lit.var_signed _ _

theorem newGate_var_lt (e : Encoder) : e.newGate.2.var < e.solver.numVars + 1 := by
  rw [newGate_var]
  exact Nat.lt_succ_self _

/-- The clauses of a new conjunction are over the variables so far and the gate. -/
theorem var_lt_andClauses {lits : List Lit} (hlits : ∀ l ∈ lits, l.var < e.solver.numVars) :
    ∀ c ∈ andClauses e.newGate.2 lits, ∀ l ∈ c, l.var < e.solver.numVars + 1 := by
  intro c hc l hl
  rcases List.mem_append.mp hc with hc | hc
  · obtain ⟨x, hx, rfl⟩ := List.mem_map.mp hc
    rcases List.mem_cons.mp hl with rfl | hl
    · rw [Lit.var_negate]
      exact newGate_var_lt e
    · rw [List.mem_singleton.mp hl]
      exact Nat.lt_succ_of_lt (hlits x hx)
  · rw [List.mem_singleton.mp hc] at hl
    rcases List.mem_cons.mp hl with rfl | hl
    · exact newGate_var_lt e
    · obtain ⟨x, hx, rfl⟩ := List.mem_map.mp hl
      rw [Lit.var_negate]
      exact Nat.lt_succ_of_lt (hlits x hx)

theorem var_lt_iffClauses {a b : Lit} (ha : a.var < e.solver.numVars)
    (hb : b.var < e.solver.numVars) :
    ∀ c ∈ iffClauses e.newGate.2 a b, ∀ l ∈ c, l.var < e.solver.numVars + 1 := by
  intro c hc l hl
  have hvar : l.var = e.newGate.2.var ∨ l.var = a.var ∨ l.var = b.var := by
    simp only [iffClauses, List.mem_cons, List.not_mem_nil, or_false] at hc
    rcases hc with rfl | rfl | rfl | rfl <;>
      simp only [List.mem_cons, List.not_mem_nil, or_false] at hl <;>
      rcases hl with rfl | rfl | rfl <;> simp
  have hgate := newGate_var e
  omega

theorem andGate_spec (h : Sound e) {lits : List Lit}
    (hlits : ∀ l ∈ lits, l.var < e.solver.numVars) :
    Grown e (e.andGate lits).1 ∧ Says (e.andGate lits).1 (e.andGate lits).2 fun α =>
      ∀ l ∈ lits, l.Holds α := by
  rw [andGate]
  cases hg : e.gates[lits]? with
  | some g => exact ⟨grown_stats h _, h.gates_lt hg, h.gates hg⟩
  | none =>
      obtain ⟨hgrown, hmeaning⟩ :=
        grown_of_defined h (var_lt_andClauses hlits) (forall_holds_congr hlits)
        fun α => forall_mem_andClauses
      have hinsert := grown_insert hgrown.sound hmeaning
      exact ⟨hgrown.trans hinsert h, hmeaning.mono hinsert⟩

theorem says_truth (h : Sound e) (hP : ∀ {α}, e.solver.Admits α → P α) :
    Says e e.truth P := ⟨h.truth_lt, fun hα => iff_of_true (h.truth hα) (hP hα)⟩

theorem says_falsity (h : Sound e) (hP : ∀ {α}, e.solver.Admits α → ¬ P α) :
    Says e e.falsity P := by
  refine ⟨?_, fun hα => iff_of_false ?_ (hP hα)⟩
  · rw [falsity, Lit.var_negate]
    exact h.truth_lt
  · rw [falsity, Lit.holds_negate, not_not]
    exact h.truth hα

theorem not_holds_falsity (h : Sound e) {α : Nat → Bool} (hα : e.solver.Admits α) :
    ¬ e.falsity.Holds α := by
  rw [falsity, Lit.holds_negate, not_not]
  exact h.truth hα

theorem forall_sorted_iff (h : Sound e) {lits : List Lit} {α : Nat → Bool}
    (hα : e.solver.Admits α) :
    (∀ l ∈ ascending (lits.filter (· != e.truth)), l.Holds α) ↔ ∀ l ∈ lits, l.Holds α := by
  simp only [mem_ascending, List.mem_filter, bne_iff_ne, and_imp]
  refine forall₂_congr fun l _ => ⟨fun hl => ?_, fun hl _ => hl⟩
  by_cases htruth : l = e.truth
  · rw [htruth]
    exact h.truth hα
  · exact hl htruth

theorem not_forall_of_hasComplement {lits : List Lit} (hc : hasComplement lits = true)
    (α : Nat → Bool) :
    ¬ ∀ l ∈ lits, l.Holds α := by
  induction lits with
  | nil => cases hc
  | cons a lits ih =>
      cases lits with
      | nil => cases hc
      | cons b rest =>
          rw [hasComplement, Bool.or_eq_true] at hc
          intro hall
          rcases hc with hc | hc
          · have ha := hall a List.mem_cons_self
            rw [eq_of_beq hc, Lit.holds_negate] at ha
            exact ha (hall b (List.mem_cons_of_mem _ List.mem_cons_self))
          · exact ih hc fun l hl => hall l (List.mem_cons_of_mem _ hl)

theorem and_spec (h : Sound e) {lits : List Lit} (hlits : ∀ l ∈ lits, l.var < e.solver.numVars) :
    Grown e (e.and lits).1 ∧ Says (e.and lits).1 (e.and lits).2 fun α => ∀ l ∈ lits, l.Holds α := by
  rw [Encoder.and]
  split
  · rename_i hfalsity
    refine ⟨.refl h, says_falsity h fun hα hall => ?_⟩
    exact not_holds_falsity h hα (hall _ (List.contains_iff_mem.mp hfalsity))
  have hsorted : ∀ {α}, e.solver.Admits α →
      ((∀ l ∈ ascending (lits.filter (· != e.truth)), l.Holds α) ↔
      ∀ l ∈ lits, l.Holds α) := fun hα => forall_sorted_iff h hα
  have hvars : ∀ l ∈ ascending (lits.filter (· != e.truth)), l.var < e.solver.numVars := fun l hl =>
    hlits l (List.mem_filter.mp (mem_ascending.mp hl)).1
  generalize ascending (lits.filter (· != e.truth)) = sorted at hsorted hvars
  split
  · exact ⟨.refl h, says_truth h fun hα => (hsorted hα).mp fun l hl => absurd hl List.not_mem_nil⟩
  · rename_i l
    refine ⟨.refl h, hvars l List.mem_cons_self, fun hα => ?_⟩
    rw [← hsorted hα, List.forall_mem_singleton]
  · split
    · rename_i hc
      exact ⟨.refl h, says_falsity h fun {α} hα hall =>
        not_forall_of_hasComplement hc α ((hsorted hα).mpr hall)⟩
    · obtain ⟨hgrown, hmeaning⟩ := andGate_spec h hvars
      exact ⟨hgrown, hmeaning.congr fun hα => hsorted (hgrown.restrict hα).1⟩

theorem or_spec (h : Sound e) {lits : List Lit} (hlits : ∀ l ∈ lits, l.var < e.solver.numVars) :
    Grown e (e.or lits).1 ∧ Says (e.or lits).1 (e.or lits).2 fun α => ∃ l ∈ lits, l.Holds α := by
  have hnegated : ∀ l ∈ lits.map Lit.negate, l.var < e.solver.numVars := by
    intro l hl
    obtain ⟨x, hx, rfl⟩ := List.mem_map.mp hl
    rw [Lit.var_negate]
    exact hlits x hx
  obtain ⟨hgrown, hmeaning⟩ := and_spec h hnegated
  refine ⟨hgrown, hmeaning.negate.congr fun {α} _ => ?_⟩
  simp only [List.forall_mem_map, Lit.holds_negate]
  rw [not_forall₂]
  simp only [not_not, exists_prop]

theorem iffGate_spec (h : Sound e) {a b : Lit} (ha : a.var < e.solver.numVars)
    (hb : b.var < e.solver.numVars) :
    Grown e (e.newGate.1.clauses (iffClauses e.newGate.2 a b)) ∧
      Says (e.newGate.1.clauses (iffClauses e.newGate.2 a b)) e.newGate.2 fun α =>
        (a.Holds α ↔ b.Holds α) := by
  refine grown_of_defined h (var_lt_iffClauses ha hb) (fun {α β} hαβ => ?_) fun α =>
    forall_mem_iffClauses
  exact iff_congr (Lit.holds_congr (hαβ _ ha)) (Lit.holds_congr (hαβ _ hb))

theorem iff_spec (h : Sound e) {a b : Lit} (ha : a.var < e.solver.numVars)
    (hb : b.var < e.solver.numVars) :
    Grown e (e.iff a b).1 ∧ Says (e.iff a b).1 (e.iff a b).2 fun α => (a.Holds α ↔ b.Holds α) := by
  have htruth := fun {α} (hα : e.solver.Admits α) => h.truth hα
  have hfalsity := fun {α} (hα : e.solver.Admits α) => not_holds_falsity h hα
  rw [Encoder.iff]
  split
  · rename_i hat
    subst hat
    exact ⟨.refl h, hb, fun hα => by simp [htruth hα]⟩
  split
  · rename_i _ haf
    subst haf
    exact ⟨.refl h, by rwa [Lit.var_negate], fun hα => by simp [hfalsity hα]⟩
  split
  · rename_i _ _ hbt
    subst hbt
    exact ⟨.refl h, ha, fun hα => by simp [htruth hα]⟩
  split
  · rename_i _ _ _ hbf
    subst hbf
    exact ⟨.refl h, by rwa [Lit.var_negate], fun hα => by simp [hfalsity hα]⟩
  split
  · rename_i _ _ _ _ hab
    subst hab
    exact ⟨.refl h, says_truth h fun _ => Iff.rfl⟩
  split
  · rename_i _ _ _ _ _ hab
    subst hab
    exact ⟨.refl h, says_falsity h fun {α} _ => by rw [Lit.holds_negate]; exact not_iff_self⟩
  · exact iffGate_spec h ha hb

end Encoder

namespace Encoding

open Encoder

variable {e : Encoder}

theorem gives_and (h : Sound e) {lits : List Lit} (hlits : ∀ l ∈ lits, l.var < e.solver.numVars) :
    Gives (Encoding.and lits) e fun e' l => Says e' l fun α => ∀ x ∈ lits, x.Holds α := by
  obtain ⟨hgrown, hmeaning⟩ := and_spec h hlits
  exact .step hgrown hmeaning

theorem gives_or (h : Sound e) {lits : List Lit} (hlits : ∀ l ∈ lits, l.var < e.solver.numVars) :
    Gives (Encoding.or lits) e fun e' l => Says e' l fun α => ∃ x ∈ lits, x.Holds α := by
  obtain ⟨hgrown, hmeaning⟩ := or_spec h hlits
  exact .step hgrown hmeaning

theorem gives_iff (h : Sound e) {a b : Lit} (ha : a.var < e.solver.numVars)
    (hb : b.var < e.solver.numVars) :
    Gives (Encoding.iff a b) e fun e' l => Says e' l fun α => (a.Holds α ↔ b.Holds α) := by
  obtain ⟨hgrown, hmeaning⟩ := iff_spec h ha hb
  exact .step hgrown hmeaning

end Encoding

end ModelExpansion
