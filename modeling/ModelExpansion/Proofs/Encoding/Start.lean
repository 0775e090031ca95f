import ModelExpansion.Proofs.Encoding.Gates

/-! # The encoder of a structure
At the start the worlds that are left are those over the tables in which every function application
has exactly one value. -/

namespace ModelExpansion

open ModelExpansion.Sat

/-! ## Exactly one -/

namespace Encoder

variable {e e' : Encoder} {α : Nat → Bool}

theorem forall_mem_pairs {β : Type} {r : β → β → Prop} {xs : List β} :
    (∀ ab ∈ pairs xs, r ab.1 ab.2) ↔ xs.Pairwise r := by
  induction xs with
  | nil => simp [pairs]
  | cons x xs ih =>
      rw [pairs, List.forall_mem_append, List.forall_mem_map, ih, List.pairwise_cons]

theorem mem_of_mem_pairs {β : Type} {xs : List β} {ab : β × β} (h : ab ∈ pairs xs) :
    ab.1 ∈ xs ∧ ab.2 ∈ xs := by
  induction xs with
  | nil => cases h
  | cons x xs ih =>
      rcases List.mem_append.mp h with h | h
      · obtain ⟨b, hb, rfl⟩ := List.mem_map.mp h
        exact ⟨List.mem_cons_self, List.mem_cons_of_mem _ hb⟩
      · exact ⟨List.mem_cons_of_mem _ (ih h).1, List.mem_cons_of_mem _ (ih h).2⟩

theorem forall_mem_exactlyOne {lits : List Lit} :
    (∀ c ∈ exactlyOne lits, Satisfies α c) ↔
      (∃ l ∈ lits, l.Holds α) ∧ lits.Pairwise fun a b => ¬ (a.Holds α ∧ b.Holds α) := by
  rw [exactlyOne, List.forall_mem_cons, List.forall_mem_map, ← forall_mem_pairs]
  refine and_congr Iff.rfl (forall₂_congr fun ab _ => ?_)
  simp only [Satisfies, List.mem_cons, List.not_mem_nil, or_false, exists_eq_or_imp, exists_eq_left,
    Lit.holds_negate, not_and_or]

theorem existsUnique_iff_pairwise {β : Type} {values : List β} (h : values.Nodup) {p : β → Prop} :
    (∃! v, v ∈ values ∧ p v) ↔
      (∃ v ∈ values, p v) ∧ values.Pairwise fun v v' => ¬ (p v ∧ p v') := by
  constructor
  · rintro ⟨v, ⟨hv, hpv⟩, hunique⟩
    refine ⟨⟨v, hv, hpv⟩, h.imp_of_mem fun ha hb hne hp => hne ?_⟩
    rw [hunique _ ⟨ha, hp.1⟩, hunique _ ⟨hb, hp.2⟩]
  · rintro ⟨⟨v, hv, hpv⟩, hpairwise⟩
    refine ⟨v, ⟨hv, hpv⟩, fun v' hv' => ?_⟩
    by_contra hne
    have hsymm : Std.Symm fun v v' => ¬ (p v ∧ p v') := ⟨fun _ _ hn hp => hn hp.symm⟩
    exact hpairwise.forall hv'.1 hv hne ⟨hv'.2, hpv⟩

/-! ## Functions -/

theorem atom_eq_true_iff {p : SymbolId} {t : Tuple} :
    (e.world α).atom p t = true ↔ ∃ l, e.atomLit? p t = some l ∧ l.Holds α := by
  change e.interpretation α ⟨p, t⟩ = true ↔ _
  rw [interpretation, atomLit?]
  cases e.index[(⟨p, t⟩ : Atom)]? with
  | none => simp
  | some v => simp [Lit.Holds, Lit.pos, Lit.var_signed, Lit.positive_signed]

def Bounded (e : Encoder) : Prop := ∀ {a : Atom} {v}, e.index[a]? = some v → v < e.solver.numVars

theorem Adds.index {P : (Nat → Bool) → Prop} (h : Adds e e' P) :
    e'.index = e.index := by rw [h.same]

theorem Adds.base {P : (Nat → Bool) → Prop} (h : Adds e e' P) : e'.base = e.base := by rw [h.same]

theorem Adds.world {P : (Nat → Bool) → Prop} (h : Adds e e' P) : e'.world = e.world := by
  rw [h.same]
  rfl

theorem Adds.bounded {P : (Nat → Bool) → Prop} (h : Adds e e' P) (hb : e.Bounded) : e'.Bounded := by
  intro a v hv
  rw [h.index] at hv
  rw [h.numVars]
  exact hb hv

theorem forall_mem_application {f : SymbolId} {t : Tuple} {values : List Element}
    (hvalues : values.Nodup) :
    (∀ c ∈ exactlyOne (values.filterMap fun v => e.atomLit? f (t ++ [v])), Satisfies α c) ↔
      ∃! v, v ∈ values ∧ (e.world α).atom f (t ++ [v]) = true := by
  rw [forall_mem_exactlyOne, existsUnique_iff_pairwise hvalues, List.pairwise_filterMap]
  simp only [atom_eq_true_iff, List.mem_filterMap]
  refine and_congr ⟨?_, ?_⟩ (List.Pairwise.iff fun {v v'} => ⟨?_, ?_⟩)
  · rintro ⟨l, ⟨v, hv, hl⟩, hholds⟩
    exact ⟨v, hv, l, hl, hholds⟩
  · rintro ⟨v, hv, l, hl, hholds⟩
    exact ⟨l, ⟨v, hv, hl⟩, hholds⟩
  · rintro hne ⟨⟨l, hl, hholds⟩, l', hl', hholds'⟩
    exact hne l hl l' hl' ⟨hholds, hholds'⟩
  · rintro hne l hl l' hl' ⟨hholds, hholds'⟩
    exact hne ⟨⟨l, hl, hholds⟩, l', hl', hholds'⟩

theorem adds_application (h : e.solver.Valid) (hb : e.Bounded) (f : SymbolId) (t : Tuple)
    {values : List Element} (hvalues : values.Nodup) :
    Adds e (e.clauses (exactlyOne (values.filterMap fun v => e.atomLit? f (t ++ [v])))) fun α =>
      ∃! v, v ∈ values ∧ (e.world α).atom f (t ++ [v]) = true := by
  have hlt : ∀ l ∈ values.filterMap fun v => e.atomLit? f (t ++ [v]), l.var < e.solver.numVars := by
    intro l hl
    obtain ⟨v, -, hl⟩ := List.mem_filterMap.mp hl
    obtain ⟨n, hn, rfl⟩ := Option.map_eq_some_iff.mp hl
    rw [Lit.pos, Lit.var_signed]
    exact hb hn
  have hclauses : ∀ c ∈ exactlyOne (values.filterMap fun v => e.atomLit? f (t ++ [v])),
      ∀ l ∈ c, l.var < e.solver.numVars := by
    rw [exactlyOne, List.forall_mem_cons, List.forall_mem_map]
    refine ⟨hlt, fun ab hab => ?_⟩
    rw [List.forall_mem_cons, List.forall_mem_singleton, Lit.var_negate, Lit.var_negate]
    exact ⟨hlt _ (mem_of_mem_pairs hab).1, hlt _ (mem_of_mem_pairs hab).2⟩
  exact (adds_clauses h hclauses).congr fun α => forall_mem_application hvalues

theorem adds_constrainFunction (h : e.solver.Valid) (hb : e.Bounded) (f : SymbolId)
    (args : List Tuple) {values : List Element} (hvalues : values.Nodup) :
    Adds e (e.constrainFunction f args values) fun α =>
      ∀ t ∈ args, ∃! v, v ∈ values ∧ (e.world α).atom f (t ++ [v]) = true := by
  induction args generalizing e with
  | nil => exact (Adds.refl h).congr fun _ => by simp
  | cons t args ih =>
      have ht := adds_application h hb f t hvalues
      refine (ht.trans (ih ht.valid (ht.bounded hb))).congr fun α => ?_
      rw [List.forall_mem_cons, ht.world]

/-- A predicate is passed over; a function is constrained over its tables. -/
theorem constrainFunctions_cons_eq_ok {f : SymbolId} {fs : List SymbolId}
    (h : e.constrainFunctions (f :: fs) = .ok e') : ∃ s, e.base.vocabulary.symbol f = .ok s ∧
      ((s.result = none ∧ e.constrainFunctions fs = .ok e') ∨
        ∃ result args values, s.result = some result ∧
        e.base.domains s.args = .ok args ∧ e.base.domain result = .ok values ∧
          (e.constrainFunction f (product args) values).constrainFunctions fs = .ok e') := by
  rw [constrainFunctions, Except.bind_eq_ok] at h
  obtain ⟨s, hs, h⟩ := h
  refine ⟨s, hs, ?_⟩
  cases hresult : s.result with
  | none =>
      rw [hresult] at h
      exact .inl ⟨rfl, h⟩
  | some result =>
      rw [hresult] at h
      dsimp only at h
      rw [Except.bind_eq_ok] at h
      obtain ⟨args, hargs, h⟩ := h
      rw [Except.bind_eq_ok] at h
      obtain ⟨values, hvalues, h⟩ := h
      exact .inr ⟨result, args, values, rfl, hargs, hvalues, h⟩

theorem adds_constrainFunctions {fs : List SymbolId} (h : e.solver.Valid) (hb : e.Bounded)
    (hok : e.constrainFunctions fs = .ok e') : Adds e e' fun α => ∀ f ∈ fs, ∀ s result,
      e.base.vocabulary.symbols[f]? = some s → s.result = some result →
        ∀ t ∈ product (s.args.map e.base.elements), ∃! v, v ∈ e.base.elements result ∧
          (e.world α).atom f (t ++ [v]) = true := by
  induction fs generalizing e with
  | nil =>
      cases hok
      exact (Adds.refl h).congr fun _ => by simp
  | cons f fs ih =>
      obtain ⟨s, hs, ⟨hresult, hok⟩ | ⟨result, args, values, hresult, hargs, hvalues, hok⟩⟩ :=
        constrainFunctions_cons_eq_ok hok
      · have hsymbol := Vocabulary.symbol_eq_ok_iff.mp hs
        refine (ih h hb hok).congr fun α => ?_
        rw [List.forall_mem_cons]
        refine (and_iff_right fun s' result hs' hresult' => ?_).symm
        rw [hsymbol] at hs'
        cases hs'
        rw [hresult] at hresult'
        cases hresult'
      · have hsymbol := Vocabulary.symbol_eq_ok_iff.mp hs
        have hvalues := Structure.elements_of_domain hvalues
        have hf :=
          adds_constrainFunction h hb f (product args) (hvalues ▸ e.base.nodup_elements result)
        refine (hf.trans (ih hf.valid (hf.bounded hb) hok)).congr fun α => ?_
        rw [List.forall_mem_cons, hf.world, hf.base]
        refine and_congr_left fun _ => ⟨fun happ s' result' hs' hresult' => ?_, fun happ => ?_⟩
        · rw [hsymbol] at hs'
          cases hs'
          rw [hresult] at hresult'
          cases hresult'
          rwa [hvalues, ← Structure.domains_eq_map hargs]
        · have := happ s result hsymbol hresult
          rwa [hvalues, ← Structure.domains_eq_map hargs] at this

/-! ## The first encoder -/

/-- Every atom over the tables has a variable, and only those atoms have. -/
structure Numbers (e : Encoder) : Prop where
  mem_iff : ∀ {a}, a ∈ e.atoms.toList ↔ e.base.InTables a
  index_iff : ∀ {a : Atom} {v}, e.index[a]? = some v ↔ e.atoms[v]? = some a
  inputs : e.inputs = e.atoms.map fun a => (e.base.value a.symbol a.tuple).isKnown

theorem Numbers.lt_size (h : Numbers e) {a : Atom} {v : Nat}
    (hv : e.index[a]? = some v) : v < e.atoms.size :=
  (Array.getElem?_eq_some_iff.mp (h.index_iff.mp hv)).1

theorem Numbers.inTables (h : Numbers e) {a : Atom} (ha : e.interpretation α a = true) :
    e.base.InTables a := by
  rw [interpretation] at ha
  cases hv : e.index[a]? with
  | none =>
      rw [hv] at ha
      cases ha
  | some v =>
    exact h.mem_iff.mp (Array.mem_toList_iff.mpr (Array.mem_of_getElem? (h.index_iff.mp hv)))

def assigned (atoms : Array Atom) (I : Atom → Bool) (v : Nat) : Bool := (atoms[v]?.map I).getD true

theorem Numbers.interpretation_assigned (h : Numbers e) {I : Atom → Bool}
    (hI : ∀ {a}, I a = true → e.base.InTables a) : e.interpretation (assigned e.atoms I) = I := by
  funext a
  rw [interpretation]
  cases hv : e.index[a]? with
  | some v => simp only [assigned, h.index_iff.mp hv, Option.map_some, Option.getD_some]
  | none =>
      dsimp only
      cases ha : I a with
      | false => rfl
      | true =>
          obtain ⟨v, hv'⟩ := Array.getElem?_of_mem (Array.mem_toList_iff.mp (h.mem_iff.mpr (hI ha)))
          rw [← h.index_iff, hv] at hv'
          cases hv'

/-- What the worlds of an encoder are before a theory is added. -/
structure Starts (S : Structure) (e : Encoder) : Prop where
  base : e.base = S
  listed : ∃ atoms, atomsOf S = .ok atoms
  sound : Sound e
  numbers : Numbers e
  definitions : e.definitions = []
  fixpoints : e.fixpoints = []
  functional : ∀ {α}, e.solver.Admits α → S.Functional (e.world α)
  reaches : ∀ {I : Atom → Bool}, (∀ {a}, I a = true → S.InTables a) → S.Functional (S.worldOf I) →
    ∃ α, e.solver.Admits α ∧ e.world α = S.worldOf I

/-- The encoder before the constant is asserted. -/
def unasserted (S : Structure) (s : Solver) (atoms : List Atom) : Encoder :=
  let first := s.numVars
  let inputs := atoms.map fun a => (S.value a.symbol a.tuple).isKnown
  let count := atoms.length
  { base := S
    solver := Nat.repeat Solver.newVar (count + 1) s
    atoms := atoms.toArray
    index := .ofList (atoms.zipIdx first)
    inputs := inputs.toArray
    truth := .pos (first + count)
    gates := ∅
    definitions := []
    fixpoints := []
    stats := { atoms := count, inputs := inputs.count true } }

theorem singleValued_of_functional {S : Structure} {atoms : List Atom} (h : atomsOf S = .ok atoms)
    {I : Atom → Bool} (hI : ∀ {a}, I a = true → S.InTables a) (hf : S.Functional (S.worldOf I)) :
    (S.worldOf I).SingleValued := by
  intro f t v v' hv hv' hatom hatom'
  change v ∈ (S.resultDomain f).toOption.getD [] at hv
  cases hdomain : S.resultDomain f with
  | error failure =>
      rw [hdomain] at hv
      cases hv
  | ok values =>
      obtain ⟨s, result, hs, hresult, -⟩ := Structure.exists_result_of_resultDomain hdomain
      obtain ⟨ht, hmem⟩ := (inTables_append_iff h hs hresult).mp (hI hatom)
      obtain ⟨-, hmem'⟩ := (inTables_append_iff h hs hresult).mp (hI hatom')
      exact (hf f s result hs hresult t ht).unique ⟨hmem, hatom⟩ ⟨hmem', hatom'⟩

section Unasserted

variable {S : Structure} {config : Config} {monitor : Monitor} {atoms : List Atom}

theorem valid_unasserted : (unasserted S (.fresh config monitor) atoms).solver.Valid :=
  Solver.repeat_newVar_induction (P := Solver.Valid) (fun _ h => h.newVar)
    (Solver.valid_fresh config monitor) _

theorem admits_unasserted (α : Nat → Bool) :
    (unasserted S (.fresh config monitor) atoms).solver.Admits α :=
  Solver.repeat_newVar_induction (P := fun s => s.Admits α) (fun _ => Solver.admits_newVar.mpr)
    (Solver.admits_fresh config monitor α) _

theorem numVars_unasserted :
    (unasserted S (.fresh config monitor) atoms).solver.numVars = atoms.length + 1 := by
  have hrepeat := Solver.numVars_repeat_newVar (.fresh config monitor) (atoms.length + 1)
  rwa [show (Solver.fresh config monitor).numVars = 0 from rfl, Nat.zero_add] at hrepeat

theorem numbers_unasserted (config : Config) (monitor : Monitor) (h : atomsOf S = .ok atoms) :
    Numbers (unasserted S (.fresh config monitor) atoms) where
  mem_iff := mem_atomsOf h
  index_iff := by
    intro a v
    have hnodup : ((atoms.zipIdx 0).map Prod.fst).Nodup := by
      rw [List.zipIdx_map_fst]
      exact nodup_atomsOf h
    refine (getElem?_ofList_eq_some_iff hnodup).trans ?_
    change _ ↔ atoms.toArray[v]? = some a
    rw [List.mk_mem_zipIdx_iff_getElem?, List.getElem?_toArray]
  inputs := by
    change (atoms.map _).toArray = atoms.toArray.map _
    rw [List.map_toArray]
    rfl

theorem truth_unasserted :
    (unasserted S (.fresh config monitor) atoms).truth = .pos atoms.length :=
  congrArg Lit.pos (Nat.zero_add _)

theorem truth_lt_unasserted : (unasserted S (.fresh config monitor) atoms).truth.var <
    (unasserted S (.fresh config monitor) atoms).solver.numVars := by
  rw [truth_unasserted, numVars_unasserted, Lit.pos, Lit.var_signed]
  exact Nat.lt_succ_self _

theorem bounded_unasserted (h : atomsOf S = .ok atoms) :
    (unasserted S (.fresh config monitor) atoms).Bounded := by
  intro a v hv
  have hlt := (numbers_unasserted config monitor h).lt_size hv
  change v < atoms.toArray.size at hlt
  rw [List.size_toArray] at hlt
  rw [numVars_unasserted]
  exact Nat.lt_succ_of_lt hlt

end Unasserted

theorem Numbers.later (h : Numbers e)
    (hsame : e' = { e with solver := e'.solver, gates := e'.gates, stats := e'.stats }) :
    Numbers e' := by
  rw [hsame]
  exact ⟨h.mem_iff, h.index_iff, h.inputs⟩

section Start

variable {S : Structure} {config : Config} {monitor : Monitor} {atoms : List Atom}

/-- The first encoder asserts the constant and that every application has exactly one value. -/
theorem adds_start (hatoms : atomsOf S = .ok atoms) (h : start S (.fresh config monitor) = .ok e) :
    Adds (unasserted S (.fresh config monitor) atoms) e fun α =>
      (unasserted S (.fresh config monitor) atoms).truth.Holds α ∧ S.Functional (e.world α) := by
  rw [start, hatoms] at h
  have hassert : Adds (unasserted S (.fresh config monitor) atoms)
      (ofAtoms S (.fresh config monitor) atoms)
      fun α => Satisfies α [(unasserted S (.fresh config monitor) atoms).truth] :=
    adds_clause valid_unasserted (List.forall_mem_singleton.mpr truth_lt_unasserted)
  have hfunctions :=
    adds_constrainFunctions hassert.valid (hassert.bounded (bounded_unasserted hatoms)) h
  refine (hassert.trans hfunctions).congr fun α => and_congr ?_ ?_
  · simp [Satisfies]
  · rw [hfunctions.world, hassert.base]
    exact ⟨fun hf f s result hs => hf f (Vocabulary.mem_symbolIds hs) s result hs,
      fun hf f _ => hf f⟩

section Adds

variable (hatoms : atomsOf S = .ok atoms)
  (hadds : Adds (unasserted S (.fresh config monitor) atoms) e fun α =>
    (unasserted S (.fresh config monitor) atoms).truth.Holds α ∧ S.Functional (e.world α))
include hatoms hadds

theorem numbers_of_adds : Numbers e :=
  (numbers_unasserted config monitor hatoms).later (by rw [hadds.same])

theorem sound_of_adds : Sound e where
  valid := hadds.valid
  index_lt := hadds.bounded (bounded_unasserted hatoms)
  truth_lt := by
    rw [hadds.same, hadds.numVars]
    exact truth_lt_unasserted
  truth hα := by
    rw [hadds.same]
    exact (hadds.admits.mp hα).2.1
  single {α} hα := by
    have hbase : e.base = S := hadds.base
    have hfunctional := (hadds.admits.mp hα).2.2
    rw [world, hbase] at hfunctional ⊢
    exact singleValued_of_functional hatoms
      (fun ha => hbase ▸ (numbers_of_adds hatoms hadds).inTables ha)
      hfunctional
  gates_lt hg := by
    rw [hadds.same, show (unasserted S (.fresh config monitor) atoms).gates = ∅ from rfl,
      Std.ExtTreeMap.getElem?_empty] at hg
    cases hg
  gates hg := by
    rw [hadds.same, show (unasserted S (.fresh config monitor) atoms).gates = ∅ from rfl,
      Std.ExtTreeMap.getElem?_empty] at hg
    cases hg

/-- The atoms and the constant may have any values that make the functions total. -/
theorem reaches_of_adds {I : Atom → Bool} (hI : ∀ {a}, I a = true → S.InTables a)
    (hf : S.Functional (S.worldOf I)) : ∃ α, e.solver.Admits α ∧ e.world α = S.worldOf I := by
  have hbase : e.base = S := hadds.base
  have hatomsOf : e.atoms = atoms.toArray := by rw [hadds.same]; rfl
  have hassigned : e.interpretation (assigned e.atoms I) = I :=
    (numbers_of_adds hatoms hadds).interpretation_assigned fun ha => hbase ▸ hI ha
  have hreached : e.world (assigned e.atoms I) = S.worldOf I := by rw [world, hassigned, hbase]
  refine ⟨assigned e.atoms I, hadds.admits.mpr ⟨admits_unasserted _, ?_, hreached ▸ hf⟩, hreached⟩
  rw [truth_unasserted, Lit.Holds, Lit.pos, Lit.var_signed, Lit.positive_signed, assigned, hatomsOf,
    List.getElem?_toArray, List.getElem?_eq_none (Nat.le_refl _)]
  rfl

end Adds

theorem exists_atoms_of_start (h : start S (.fresh config monitor) = .ok e) :
    ∃ atoms, atomsOf S = .ok atoms := by
  rw [start, Except.bind_eq_ok] at h
  obtain ⟨atoms, hatoms, -⟩ := h
  exact ⟨atoms, hatoms⟩

theorem starts_of_start (h : start S (.fresh config monitor) = .ok e) : Starts S e := by
  obtain ⟨atoms, hatoms⟩ := exists_atoms_of_start h
  have hadds := adds_start hatoms h
  constructor
  · exact hadds.base
  · exact ⟨atoms, hatoms⟩
  · exact sound_of_adds hatoms hadds
  · exact numbers_of_adds hatoms hadds
  · rw [hadds.same]
    rfl
  · rw [hadds.same]
    rfl
  · exact fun hα => (hadds.admits.mp hα).2.2
  · exact reaches_of_adds hatoms hadds

theorem config_of_start (h : start S (.fresh config monitor) = .ok e) :
    e.solver.config = config := by
  obtain ⟨atoms, hatoms⟩ := exists_atoms_of_start h
  exact (adds_start hatoms h).config.trans
    (Solver.repeat_newVar_induction (P := fun s => s.config = config) (fun _ h => h) rfl _)

theorem follows_of_start (h : start S (.fresh config monitor) = .ok e) :
    monitor.Follows e.solver.monitor := by
  obtain ⟨atoms, hatoms⟩ := exists_atoms_of_start h
  exact Monitor.Follows.trans
    (Solver.repeat_newVar_induction (P := fun s => monitor.Follows s.monitor)
      (fun _ h => h) (.refl _) _)
    (adds_start hatoms h).monitor

end Start

end Encoder

end ModelExpansion
