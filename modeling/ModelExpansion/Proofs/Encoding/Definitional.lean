import ModelExpansion.Proofs.Encoding.Agreement
import ModelExpansion.Proofs.Sat.History

/-! # Gates are definitions
Whatever has been asked of an encoder, the clauses that its solver was handed leave no choice but at
the atoms. And asking it for a literal or for cases takes no choice away. -/

namespace ModelExpansion

open ModelExpansion.Sat ModelExpansion.Encoder

namespace Encoder

variable {S : Structure} {config : Config} {monitor : Monitor} {e₀ e e' : Encoder}
  {given gates : List (List Lit)} {α β : Nat → Bool}

/-! ## What the solver was handed -/

/-- The clauses that the solver of an encoder was passed, as many as the encoder has counted. -/
def Handed (e : Encoder) (given : List (List Lit)) : Prop :=
  e.stats.clauses = given.length ∧ e.solver.Passed given

theorem Handed.admits_iff (h : Handed e given) : e.solver.Admits α ↔ ∀ c ∈ given, Satisfies α c :=
  h.2.represents.admits_iff

theorem Handed.clause (h : Handed e given) (c : List Lit) :
    Handed (e.clause c).1 (given ++ [c]) := by
  refine ⟨?_, h.2.perform (.addClause c)⟩
  rw [List.length_append, List.length_singleton, ← h.1]
  rfl

theorem Handed.clauses (h : Handed e given) (cs : List (List Lit)) :
    Handed (e.clauses cs) (given ++ cs) := by
  induction cs generalizing e given with
  | nil =>
      rw [List.append_nil]
      exact h
  | cons c cs ih =>
      rw [List.append_cons]
      exact ih (h.clause c)

theorem Handed.newGate (h : Handed e given) : Handed e.newGate.1 given := ⟨h.1, h.2.newVar⟩

theorem Handed.solve (h : Handed e given) (halt : Stats → Bool) :
    Handed (e.solve halt).1 given := by
  have hsolve := h.2.perform (.solve halt)
  rw [Sat.Call.clauses, List.append_nil] at hsolve
  exact ⟨h.1, hsolve⟩

theorem Handed.constrainFunction (h : Handed e given) (f : SymbolId) (args : List Tuple)
    (values : List Element) :
    ∃ more, Handed (e.constrainFunction f args values) (given ++ more) := by
  induction args generalizing e given with
  | nil => exact ⟨[], by rwa [List.append_nil]⟩
  | cons t args ih =>
      obtain ⟨more, hmore⟩ :=
        ih (h.clauses (exactlyOne (values.filterMap fun v => e.atomLit? f (t ++ [v]))))
      rw [List.append_assoc] at hmore
      exact ⟨_, hmore⟩

theorem Handed.constrainFunctions {fs : List SymbolId} (h : Handed e given)
    (hok : e.constrainFunctions fs = .ok e') : ∃ more, Handed e' (given ++ more) := by
  induction fs generalizing e given with
  | nil =>
      cases hok
      exact ⟨[], by rwa [List.append_nil]⟩
  | cons f fs ih =>
      obtain ⟨s, -, ⟨-, hok⟩ | ⟨result, args, values, -, -, -, hok⟩⟩ :=
        constrainFunctions_cons_eq_ok hok
      · exact ih h hok
      · obtain ⟨more, hmore⟩ := h.constrainFunction f (product args) values
        obtain ⟨rest, hrest⟩ := ih hmore hok
        rw [List.append_assoc] at hrest
        exact ⟨_, hrest⟩

theorem handed_ofAtoms (S : Structure) (config : Config) (monitor : Monitor) (atoms : List Atom) :
    Handed (ofAtoms S (.fresh config monitor) atoms) [[.pos atoms.length]] := by
  have hunasserted : Handed (unasserted S (.fresh config monitor) atoms) [] :=
    ⟨rfl, Solver.repeat_newVar_induction (P := fun s => s.Passed []) (fun _ h => h.newVar)
      ⟨config, monitor, [], rfl, rfl⟩ _⟩
  have hasserted : Handed (ofAtoms S (.fresh config monitor) atoms)
      [[(unasserted S (.fresh config monitor) atoms).truth]] := hunasserted.clause _
  rwa [truth_unasserted] at hasserted

theorem exists_handed_start (h : Encoder.start S (.fresh config monitor) = .ok e) :
    ∃ given, Handed e given := by
  rw [start, Except.bind_eq_ok] at h
  obtain ⟨atoms, -, h⟩ := h
  obtain ⟨more, hmore⟩ := (handed_ofAtoms S config monitor atoms).constrainFunctions h
  exact ⟨_, hmore⟩

theorem Builds.handed (h : Builds e e' gates) (hgiven : Handed e given) :
    ∃ more, Handed e' (given ++ more) := by
  induction h with
  | refl => exact ⟨[], by rwa [List.append_nil]⟩
  | @conjunction e' cs lits h hnew hlits ih =>
      obtain ⟨more, hmore⟩ := ih
      have hgate := hmore.newGate.clauses (andClauses e'.newGate.2 lits)
      rw [List.append_assoc] at hgate
      rw [andGate_of_new hnew]
      exact ⟨_, hgate⟩
  | reuse h hg ih =>
      rw [andGate_of_built hg]
      exact ih
  | @equivalence e' cs a b h ha hb ih =>
      obtain ⟨more, hmore⟩ := ih
      have hgate := hmore.newGate.clauses (iffClauses e'.newGate.2 a b)
      rw [List.append_assoc] at hgate
      exact ⟨_, hgate⟩
  | @assertion e' cs c h hc ih =>
      obtain ⟨more, hmore⟩ := ih
      have hclause := hmore.clause c
      rw [List.append_assoc] at hclause
      exact ⟨_, hclause⟩
  | keep Ds Fs h ih => exact ih
  | search halt h ih =>
      obtain ⟨more, hmore⟩ := ih
      exact ⟨more, hmore.solve halt⟩

theorem exists_handed_of_builds (hstart : Encoder.start S (.fresh config monitor) = .ok e₀)
    (h : Builds e₀ e gates) :
    ∃ given, Handed e given := by
  obtain ⟨given, hgiven⟩ := exists_handed_start hstart
  obtain ⟨more, hmore⟩ := h.handed hgiven
  exact ⟨given ++ more, hmore⟩

/-! ## No choice but at the atoms -/

/-- What an encoder admits satisfies the clauses of the gates built on the way. -/
theorem Builds.admits (h : Builds e e' gates) (he : Sound e) (hα : e'.solver.Admits α) :
    e.solver.Admits α ∧ ∀ c ∈ gates, Satisfies α c := by
  induction h with
  | refl => exact ⟨hα, fun _ hc => absurd hc List.not_mem_nil⟩
  | conjunction h hnew hlits ih =>
      rw [andGate_of_new hnew] at hα
      obtain ⟨hbefore, hgate⟩ := (adds_newGate (h.sound he) (var_lt_andClauses hlits)).admits.mp hα
      obtain ⟨hstart, hgates⟩ := ih (Solver.admits_newVar.mp hbefore)
      exact ⟨hstart, List.forall_mem_append.mpr ⟨hgates, hgate⟩⟩
  | reuse h hg ih =>
      rw [andGate_of_built hg] at hα
      exact ih hα
  | equivalence h ha hb ih =>
      obtain ⟨hbefore, hgate⟩ := (adds_newGate (h.sound he) (var_lt_iffClauses ha hb)).admits.mp hα
      obtain ⟨hstart, hgates⟩ := ih (Solver.admits_newVar.mp hbefore)
      exact ⟨hstart, List.forall_mem_append.mpr ⟨hgates, hgate⟩⟩
  | assertion h hc ih => exact ih ((adds_clause (h.sound he).valid hc).admits.mp hα).1
  | keep Ds Fs h ih => exact ih hα
  | search halt h ih => exact ih (((h.sound he).valid.admits_solve halt).mp hα)

theorem determined_of_builds (hstart : Encoder.start S (.fresh config monitor) = .ok e₀)
    (h : Builds e₀ e gates)
    (hα : e.solver.Admits α) (hβ : e.solver.Admits β) (hαβ : ∀ v < e.atoms.size, α v = β v) :
    ∀ v < e.solver.numVars, α v = β v := by
  have hsound := (starts_of_start hstart).sound
  obtain ⟨hα₀, hgatesα⟩ := h.admits hsound hα
  obtain ⟨hβ₀, hgatesβ⟩ := h.admits hsound hβ
  rw [h.atoms] at hαβ
  exact h.determined hsound (agree_of_start hstart hαβ (hsound.truth hα₀) (hsound.truth hβ₀))
    hgatesα hgatesβ

/-! ## Questions -/

/-- A call that asks for a literal or for the cases of a term, and the encoder that it leads to,
even if it fails. Literals that are handed in have variables of the encoder. -/
inductive Query (e : Encoder) : Encoder → Prop where
  | encode (f : Formula) : Query e (encodeFormula f e).2
  | cases (t : Term) : Query e (encodeTerm t e).2
  | and {lits : List Lit} (hlits : ∀ l ∈ lits, l.var < e.solver.numVars) : Query e (e.and lits).1
  | or {lits : List Lit} (hlits : ∀ l ∈ lits, l.var < e.solver.numVars) : Query e (e.or lits).1
  | iff {a b : Lit} (ha : a.var < e.solver.numVars) (hb : b.var < e.solver.numVars) :
      Query e (e.iff a b).1

theorem Query.replays (h : Sound e) (hquery : Query e e') :
    Grown e e' ∧ ∃ gates, Builds e e' gates := by
  cases hquery with
  | encode f =>
      have hx := replays_encodeFormula f h
      exact ⟨hx.grown h, hx.proceeds⟩
  | cases t =>
      have hx := replays_encodeTerm t h
      exact ⟨hx.grown h, hx.proceeds⟩
  | and hlits => exact ⟨(and_spec h hlits).1, (Encoding.replays_and h hlits).proceeds⟩
  | or hlits => exact ⟨(or_spec h hlits).1, (Encoding.replays_or h hlits).proceeds⟩
  | iff ha hb => exact ⟨(iff_spec h ha hb).1, (Encoding.replays_iff h ha hb).proceeds⟩

/-- The literal that answers a question keeps its meaning, whatever is asked or asserted later. -/
theorem Query.holds_iff {e₁ : Encoder} {l : Lit} {P : (Nat → Bool) → Prop} (h : Sound e)
    (hatoms : e.atoms.size ≤ e.solver.numVars) (hquery : Query e e₁) (hmeaning : Says e₁ l P)
    (hcalls : Relation.ReflTransGen Encoder.Call e₁ e') (hgiven : Handed e' given)
    (hα : ∀ c ∈ given, Satisfies α c) : l.Holds α ↔ P α := by
  obtain ⟨hgrown, gates, hbuilds⟩ := hquery.replays h
  obtain ⟨later, hlater⟩ :=
    builds_of_calls hgrown.sound (hbuilds.atoms ▸ hatoms.trans hgrown.numVars) hcalls
  exact hmeaning.holds_iff (hlater.admits hgrown.sound (hgiven.admits_iff.mpr hα)).1

/-- What the clauses that the solver of an encoder was handed say, and what those say that it is
handed later. -/
structure Definitional (e : Encoder) (given : List (List Lit)) : Prop where
  /-- The atoms determine every variable. -/
  determined : ∀ α β : Nat → Bool, (∀ c ∈ given, Satisfies α c) → (∀ c ∈ given, Satisfies β c) →
    (∀ v < e.atoms.size, α v = β v) → ∀ v < e.solver.numVars, α v = β v
  /-- The new clauses of a question restrict no variable that there was before. -/
  conservative : ∀ e', Query e e' → (∃ more, Handed e' (given ++ more)) ∧
    ∀ given', Handed e' given' → ∀ α : Nat → Bool, (∀ c ∈ given, Satisfies α c) →
      ∃ β : Nat → Bool, (∀ v < e.solver.numVars, β v = α v) ∧ ∀ c ∈ given', Satisfies β c
  and : ∀ lits, (∀ l ∈ lits, l.var < e.solver.numVars) →
    ∀ e' given', Relation.ReflTransGen Encoder.Call (e.and lits).1 e' → Handed e' given' →
      ∀ α : Nat → Bool, (∀ c ∈ given', Satisfies α c) →
      ((e.and lits).2.Holds α ↔ ∀ l ∈ lits, l.Holds α)
  or : ∀ lits, (∀ l ∈ lits, l.var < e.solver.numVars) →
    ∀ e' given', Relation.ReflTransGen Encoder.Call (e.or lits).1 e' → Handed e' given' →
      ∀ α : Nat → Bool, (∀ c ∈ given', Satisfies α c) →
      ((e.or lits).2.Holds α ↔ ∃ l ∈ lits, l.Holds α)
  iff : ∀ a b, a.var < e.solver.numVars → b.var < e.solver.numVars →
    ∀ e' given', Relation.ReflTransGen Encoder.Call (e.iff a b).1 e' → Handed e' given' →
      ∀ α : Nat → Bool, (∀ c ∈ given', Satisfies α c) →
        ((e.iff a b).2.Holds α ↔ (a.Holds α ↔ b.Holds α))

theorem definitional_of_builds (hstart : Encoder.start S (.fresh config monitor) = .ok e₀)
    (h : Builds e₀ e gates) (hgiven : Handed e given) : Definitional e given := by
  have hstarts := starts_of_start hstart
  have hsound := h.sound hstarts.sound
  have hatoms := h.atoms_le hstarts.sound (atoms_le_of_start hstart)
  constructor
  · intro α β hα hβ
    exact determined_of_builds hstart h (hgiven.admits_iff.mpr hα) (hgiven.admits_iff.mpr hβ)
  · intro e' hquery
    obtain ⟨hgrown, gates, hbuilds⟩ := hquery.replays hsound
    refine ⟨hbuilds.handed hgiven, fun given' hgiven' α hα => ?_⟩
    obtain ⟨β, hagree, hβ⟩ := hgrown.extend (hgiven.admits_iff.mpr hα) trivial
    exact ⟨β, hagree, hgiven'.admits_iff.mp hβ⟩
  · intro lits hlits e' given' hcalls hgiven' α hα
    exact (Query.and hlits).holds_iff hsound hatoms (and_spec hsound hlits).2 hcalls hgiven' hα
  · intro lits hlits e' given' hcalls hgiven' α hα
    exact (Query.or hlits).holds_iff hsound hatoms (or_spec hsound hlits).2 hcalls hgiven' hα
  · intro a b ha hb e' given' hcalls hgiven' α hα
    exact (Query.iff ha hb).holds_iff hsound hatoms (iff_spec hsound ha hb).2 hcalls hgiven' hα

end Encoder

/-- After any calls on an encoder the clauses that its solver was handed leave no choice but at the
atoms, asking for a literal or for cases takes no choice away, and the literal of a conjunction, a
disjunction or an equivalence has its value. -/
theorem gates_definitional {S : Structure} {config : Config} {monitor : Monitor} {e₀ e : Encoder}
    (hstart : Encoder.start S (.fresh config monitor) = .ok e₀)
    (hcalls : Relation.ReflTransGen Encoder.Call e₀ e) :
    (∃ given, Handed e given) ∧ ∀ given, Handed e given → Definitional e given := by
  obtain ⟨gates, hbuilds⟩ :=
    builds_of_calls (starts_of_start hstart).sound (atoms_le_of_start hstart) hcalls
  obtain ⟨given, hgiven⟩ := exists_handed_start hstart
  obtain ⟨more, hmore⟩ := hbuilds.handed hgiven
  exact ⟨⟨given ++ more, hmore⟩, fun given' hgiven' =>
    definitional_of_builds hstart hbuilds hgiven'⟩

/-- Two propositions of which nothing is known. -/
def propositions : Structure where
  vocabulary := ⟨[], [⟨"A", [], none⟩, ⟨"B", [], none⟩]⟩
  tables := []
  facts := ∅

theorem start_propositions : Encoder.start propositions (.fresh {} {}) =
    .ok (ofAtoms propositions (.fresh {} {}) [⟨0, []⟩, ⟨1, []⟩]) := rfl

/-- Two propositions determine the literal of their conjunction. -/
theorem gates_definitional_conjunction :
    ∃ e₀ given, Encoder.start propositions (.fresh {} {}) = .ok e₀ ∧
    Handed (e₀.and [.pos 0, .pos 1]).1 given ∧ (e₀.and [.pos 0, .pos 1]).2 = .pos 3 ∧
      ∀ α β : Nat → Bool, (∀ c ∈ given, Satisfies α c) → (∀ c ∈ given, Satisfies β c) →
        α 0 = β 0 → α 1 = β 1 → α 3 = β 3 := by
  have hlits : ∀ l ∈ [Lit.pos 0, .pos 1],
      l.var < (ofAtoms propositions (.fresh {} {}) [⟨0, []⟩, ⟨1, []⟩]).solver.numVars := by
    decide +kernel
  obtain ⟨⟨given, hgiven⟩, hdefinitional⟩ :=
    gates_definitional start_propositions (.single (.and hlits))
  refine ⟨_, given, start_propositions, hgiven, by rfl, fun α β hα hβ hA hB => ?_⟩
  refine (hdefinitional given hgiven).determined α β hα hβ (fun v hv => ?_) 3 (by decide +kernel)
  match v, hv with
  | 0, _ => exact hA
  | 1, _ => exact hB

/-- An equivalence with a variable that does not exist yet is given this variable as its gate, and
then the first proposition can no longer be false. -/
theorem not_conservative_of_unallocated : ∃ e₀ given more, ∃ α : Nat → Bool,
    Encoder.start propositions (.fresh {} {}) = .ok e₀ ∧ Handed e₀ given ∧
      Handed (e₀.iff (.pos 3) (.pos 0)).1 (given ++ more) ∧ (∀ c ∈ given, Satisfies α c) ∧
        ¬ ∃ β : Nat → Bool, (∀ v < e₀.solver.numVars, β v = α v) ∧
        ∀ c ∈ given ++ more, Satisfies β c := by
  have hgiven := handed_ofAtoms propositions {} {} [⟨0, []⟩, ⟨1, []⟩]
  refine ⟨_, [[.pos 2]], iffClauses (.pos 3) (.pos 3) (.pos 0), fun v => v == 2,
    start_propositions, hgiven,
    hgiven.newGate.clauses _, by decide, ?_⟩
  rintro ⟨β, hagree, hβ⟩
  have hgate := forall_mem_iffClauses.mp (List.forall_mem_append.mp hβ).2
  have hA : (Lit.pos 0).Holds β := by
    by_cases hself : (Lit.pos 3).Holds β
    · exact (hgate.mp hself).mp hself
    · by_contra hA
      exact hself (hgate.mpr (iff_of_false hself hA))
  have hfalse : β 0 = false := hagree 0 (by decide +kernel)
  rw [Lit.Holds, Lit.pos, Lit.var_signed, Lit.positive_signed, hfalse] at hA
  cases hA

end ModelExpansion
