import ModelExpansion.Encoding.Decoding
import ModelExpansion.Proofs.Encoding.Facts
import ModelExpansion.Proofs.Structures

/-! # Decoded structures
A decoded model of the clauses is the total structure that describes its world, and excluding it
leaves all other worlds. -/

namespace ModelExpansion

open ModelExpansion.Sat

/-! ## Decoding -/

section Decode

variable {S S' : Structure} {m : Model}

theorem refines_decodePredicates {numbered : List (Atom × Nat)} {functions : List Atom}
    (h : decodePredicates m S numbered = .ok (S', functions)) : S.Refines S' ∧
      ∀ av ∈ numbered, ∃ s, S.vocabulary.symbol av.1.symbol = .ok s ∧
        (s.isFunction = false → S'.facts[av.1]? = some (m.value av.2)) ∧
        (s.isFunction = true → m.value av.2 = true → av.1 ∈ functions) := by
  induction numbered generalizing S functions with
  | nil =>
      cases h
      exact ⟨.refl _, fun av hav => absurd hav List.not_mem_nil⟩
  | cons av numbered ih =>
      obtain ⟨a, v⟩ := av
      rw [decodePredicates, Except.bind_eq_ok] at h
      obtain ⟨s, hs, h⟩ := h
      cases hfunction : s.isFunction with
      | true =>
          rw [hfunction, if_pos rfl, Except.bind_eq_ok] at h
          obtain ⟨⟨S₁, rest⟩, hrest, h⟩ := h
          cases h
          obtain ⟨hrefines, hall⟩ := ih hrest
          refine ⟨hrefines, List.forall_mem_cons.mpr ⟨⟨s, hs, ?_, ?_⟩, fun av hav => ?_⟩⟩
          · intro hpredicate
            rw [hfunction] at hpredicate
            cases hpredicate
          · intro _ hv
            rw [if_pos hv]
            exact List.mem_cons_self
          · obtain ⟨s', hs', hpredicate, hmem⟩ := hall av hav
            refine ⟨s', hs', hpredicate, fun hfunction hv => ?_⟩
            split
            · exact List.mem_cons_of_mem _ (hmem hfunction hv)
            · exact hmem hfunction hv
      | false =>
          rw [hfunction, if_neg Bool.false_ne_true, Except.bind_eq_ok] at h
          obtain ⟨⟨S₁, b⟩, hset, h⟩ := h
          obtain ⟨hset, ha⟩ := Structure.refines_setValue hset
          obtain ⟨hrefines, hall⟩ := ih h
          refine ⟨hset.trans hrefines, List.forall_mem_cons.mpr
            ⟨⟨s, hs, fun _ => hrefines.keeps ha, ?_⟩, ?_⟩⟩
          · intro hf
            rw [hfunction] at hf
            cases hf
          · rw [← hset.vocabulary]
            exact hall

theorem refines_decodeFunctions {functions : List Atom} (h : decodeFunctions S functions = .ok S') :
    S.Refines S' ∧ ∀ a ∈ functions, ∀ value, a.tuple.getLast? = some value →
    ∀ c ∈ S.results a.symbol,
      S'.facts[(⟨a.symbol, a.tuple.dropLast ++ [c]⟩ : Atom)]? = some (c == value) := by
  induction functions generalizing S with
  | nil =>
      cases h
      exact ⟨.refl _, fun a ha => absurd ha List.not_mem_nil⟩
  | cons a functions ih =>
      rw [decodeFunctions] at h
      split at h
      · rename_i hlast
        obtain ⟨hrefines, hall⟩ := ih h
        refine ⟨hrefines, List.forall_mem_cons.mpr ⟨fun value hvalue => ?_, hall⟩⟩
        rw [hlast] at hvalue
        cases hvalue
      · rename_i value hlast
        split at h
        · rename_i S₁ hset
          obtain ⟨hset, hgraph⟩ := Structure.refines_setFunction hset
          obtain ⟨hrefines, hall⟩ := ih h
          refine ⟨hset.trans hrefines, List.forall_mem_cons.mpr ⟨fun value' hvalue' c hc => ?_, ?_⟩⟩
          · rw [hlast] at hvalue'
            cases hvalue'
            exact hrefines.keeps (hgraph c hc)
          · intro a' ha'
            rw [← Structure.results_congr hset.vocabulary hset.tables]
            exact hall a' ha'
        · cases h

/-- Predicates can be recorded as a world has them that the structure agrees with. -/
theorem exists_decodePredicates {W : World} {numbered : List (Atom × Nat)} (hS : S.Keeps W)
    (hnumbered : ∀ av ∈ numbered, S.InTables av.1 ∧ W.atom av.1.symbol av.1.tuple = m.value av.2) :
    ∃ S' functions, decodePredicates m S numbered = .ok (S', functions) ∧ S'.Keeps W ∧
      ∀ a ∈ functions, S.InTables a ∧ S.isFunction a.symbol = true ∧
      W.atom a.symbol a.tuple = true := by
  induction numbered generalizing S with
  | nil => exact ⟨S, [], rfl, hS, fun a ha => absurd ha List.not_mem_nil⟩
  | cons av numbered ih =>
      obtain ⟨a, v⟩ := av
      obtain ⟨⟨ha, hatom⟩, hnumbered⟩ := List.forall_mem_cons.mp hnumbered
      obtain ⟨s, hs, -⟩ := Structure.inTables_iff.mp ha
      have hsymbol := Structure.isFunction_of_symbol (Vocabulary.symbol_eq_ok_iff.mp hs)
      cases hfunction : s.isFunction with
      | true =>
          obtain ⟨S', functions, hrest, hS', hfunctions⟩ := ih hS hnumbered
          refine ⟨S', if m.value v then a :: functions else functions, ?_, hS', ?_⟩
          · rw [decodePredicates, hs, Except.ok_bind, hfunction, if_pos rfl, hrest]
            rfl
          · split
            · rename_i hv
              exact List.forall_mem_cons.mpr
                ⟨⟨ha, hsymbol.trans hfunction, hatom.trans hv⟩, hfunctions⟩
            · exact hfunctions
      | false =>
          obtain ⟨S₁, b, hset⟩ := Structure.exists_setValue ha fun w hw => (hS hw).symm.trans hatom
          have hS₁ := (Structure.refines_setValue hset).1
          have htables : ∀ {a}, S₁.InTables a ↔ S.InTables a :=
            Structure.inTables_congr hS₁.vocabulary hS₁.tables
          obtain ⟨S', functions, hrest, hS', hfunctions⟩ :=
            ih (hS.setValue hset hatom) fun av hav =>
            ⟨htables.mpr (hnumbered av hav).1, (hnumbered av hav).2⟩
          refine ⟨S', functions, ?_, hS', fun a ha => ?_⟩
          · rw [decodePredicates, hs, Except.ok_bind, hfunction, if_neg Bool.false_ne_true, hset]
            exact hrest
          · rw [← htables, ← Structure.isFunction_congr hS₁.vocabulary]
            exact hfunctions a ha

/-- Functions can be fixed as a world has them that the structure agrees with. -/
theorem exists_decodeFunctions {W : World} {functions : List Atom} (hS : S.Keeps W)
    (hfunctions :
      ∀ a ∈ functions, ∃ values t c, S.resultDomain a.symbol = .ok values ∧ a.tuple = t ++ [c] ∧
      ∀ d ∈ values, S.InTables ⟨a.symbol, t ++ [d]⟩ ∧ W.atom a.symbol (t ++ [d]) = (d == c)) :
    ∃ S', decodeFunctions S functions = .ok S' := by
  induction functions generalizing S with
  | nil => exact ⟨S, rfl⟩
  | cons a functions ih =>
      obtain ⟨⟨values, t, c, hdomain, htuple, hvalues⟩, hfunctions⟩ :=
        List.forall_mem_cons.mp hfunctions
      obtain ⟨S₁, hset, hS₁⟩ := Structure.exists_setFunction hS hdomain hvalues
      have hrefines := (Structure.refines_setFunction hset).1
      have hresult : S₁.resultDomain = S.resultDomain := by
        funext f
        rw [Structure.resultDomain, Structure.resultDomain, hrefines.vocabulary,
          Structure.domain_congr hrefines.vocabulary hrefines.tables]
      obtain ⟨S', hrest⟩ := ih hS₁ (by
        simpa only [hresult, Structure.inTables_congr hrefines.vocabulary hrefines.tables] using
          hfunctions)
      refine ⟨S', ?_⟩
      rw [decodeFunctions, htuple, List.getLast?_concat, List.dropLast_concat]
      simp only [hset, hrest]

end Decode

/-! ## Worlds and models -/

theorem exists_ofBool_of_isKnown {t : Truth} (h : t.isKnown = true) : ∃ b, t = .ofBool b := by
  cases t with
  | yes => exact ⟨true, rfl⟩
  | no => exact ⟨false, rfl⟩
  | unknown => cases h

namespace Encoder

variable {e e' : Encoder} {α : Nat → Bool} {M : Structure}

/-- An encoder whose models can be decoded: its variables number the atoms of the tables, and its
worlds give every function application one value. -/
structure Decodable (e : Encoder) : Prop where
  sound : Sound e
  numbers : Numbers e
  listed : ∃ atoms, atomsOf e.base = .ok atoms
  facts : ∀ a v, e.base.facts[a]? = some v → e.base.InTables a
  functional : ∀ {α}, e.solver.Admits α → e.base.Functional (e.world α)

/-- An encoder that models can be enumerated with: its worlds keep the structure, and no definition
has to be checked. -/
structure Ready (e : Encoder) : Prop extends Decodable e where
  keeps : ∀ {α}, e.solver.Admits α → e.base.Keeps (e.world α)
  maxConflicts : e.solver.config.maxConflicts = 0
  definitions : e.definitions = []
  fixpoints : e.fixpoints = []

theorem Decodable.later (h : Decodable e) (hsound : Sound e')
    (hsame : e' = { e with solver := e'.solver, gates := e'.gates, stats := e'.stats })
    (hadmits : ∀ {α}, e'.solver.Admits α → e.solver.Admits α) : Decodable e' := by
  have hbase : e'.base = e.base := by rw [hsame]
  have hworld : e'.world = e.world := by
    rw [hsame]
    rfl
  refine ⟨hsound, h.numbers.later hsame, hbase ▸ h.listed, hbase ▸ h.facts, fun hα => ?_⟩
  rw [hbase, hworld]
  exact h.functional (hadmits hα)

theorem Decodable.constrained {P : World → Prop} (h : Decodable e)
    (hc : Constrained e e' P) : Decodable e' :=
  h.later hc.sound hc.same fun hα => (hc.restrict hα).1

/-- The first encoder of a structure whose facts are in the tables. -/
theorem Starts.decodable {S : Structure} (h : Starts S e)
    (htables : ∀ a v, S.facts[a]? = some v → S.InTables a) :
    Decodable e :=
  ⟨h.sound, h.numbers, h.base ▸ h.listed, h.base ▸ htables, fun hα => h.base ▸ h.functional hα⟩

theorem Ready.later (h : Ready e) (hsound : Sound e')
    (hsame : e' = { e with solver := e'.solver, gates := e'.gates, stats := e'.stats })
    (hconfig : e'.solver.config = e.solver.config)
    (hadmits : ∀ {α}, e'.solver.Admits α → e.solver.Admits α) : Ready e' := by
  have hbase : e'.base = e.base := by rw [hsame]
  have hworld : e'.world = e.world := by
    rw [hsame]
    rfl
  refine ⟨h.toDecodable.later hsound hsame hadmits, fun hα => ?_, ?_, ?_, ?_⟩
  · rw [hbase, hworld]
    exact h.keeps (hadmits hα)
  · rw [hconfig]
    exact h.maxConflicts
  · rw [hsame]
    exact h.definitions
  · rw [hsame]
    exact h.fixpoints

theorem Numbers.interpretation_eq (h : Numbers e) {v : Nat} {a : Atom} (ha : e.atoms[v]? = some a) :
    e.interpretation α a = α v := by
  rw [interpretation, h.index_iff.mpr ha]

/-- An atom is certain if the structure decides it. -/
theorem Numbers.exists_value (h : Numbers e) {v : Nat} (hv : e.isInput v = true) :
    ∃ a b, e.atoms[v]? = some a ∧ e.base.value a.symbol a.tuple = .ofBool b := by
  rw [isInput, h.inputs, Array.getD_eq_getD_getElem?, Array.getElem?_map] at hv
  cases ha : e.atoms[v]? with
  | none =>
      rw [ha] at hv
      cases hv
  | some a =>
      rw [ha] at hv
      obtain ⟨b, hb⟩ := exists_ofBool_of_isKnown hv
      exact ⟨a, b, rfl, hb⟩

theorem Numbers.exists_var (h : Numbers e) {a : Atom} (ha : e.base.InTables a) :
    ∃ v : Nat, e.atoms[v]? = some a :=
  Array.getElem?_of_mem (Array.mem_toList_iff.mp (h.mem_iff.mpr ha))

theorem mem_zipIdx_atoms {v : Nat} {a : Atom} (hv : e.atoms[v]? = some a) :
    (a, v) ∈ e.atoms.toList.zipIdx := by
  rw [List.mk_mem_zipIdx_iff_getElem?, Array.getElem?_toList]
  exact hv

section Describes

variable {m : Model} {S : Structure} {functions : List Atom}

theorem Decodable.facts_function (h : Decodable e) (hf : e.base.Functional (e.world m.value))
    (hpredicates : decodePredicates m e.base e.atoms.toList.zipIdx = .ok (S, functions))
    (hM : decodeFunctions S functions = .ok M) {a : Atom} (ha : e.base.InTables a) {s : Symbol}
    (hs : e.base.vocabulary.symbol a.symbol = .ok s) (hfunction : s.isFunction = true) :
    M.facts[a]? = some (e.interpretation m.value a) := by
  obtain ⟨hS, hall⟩ := refines_decodePredicates hpredicates
  obtain ⟨-, hfunctions⟩ := refines_decodeFunctions hM
  obtain ⟨atoms, hatoms⟩ := h.listed
  obtain ⟨result, hresult⟩ := Option.isSome_iff_exists.mp hfunction
  have hsymbol := Vocabulary.symbol_eq_ok_iff.mp hs
  obtain ⟨t, c, htuple⟩ := ha.exists_eq_append hs hfunction
  obtain ⟨f, tuple⟩ := a
  dsimp only at htuple hs hsymbol
  subst htuple
  have hgraph := fun {v} => inTables_append_iff hatoms hsymbol hresult (t := t) (v := v)
  obtain ⟨ht, hc⟩ := hgraph.mp ha
  have hunique := hf f s result hsymbol hresult t ht
  obtain ⟨value, hvalue, htrue⟩ := hunique.exists
  obtain ⟨w, hw⟩ := h.numbers.exists_var (hgraph.mpr ⟨ht, hvalue⟩)
  obtain ⟨s', hs', -, hmem⟩ := hall _ (mem_zipIdx_atoms hw)
  rw [hs] at hs'
  cases hs'
  have hw' : m.value w = true := (h.numbers.interpretation_eq hw).symm.trans htrue
  have hfixed := hfunctions _ (hmem hfunction hw') value List.getLast?_concat c
  rw [Structure.results_congr hS.vocabulary hS.tables,
    Structure.results_eq_elements hsymbol hresult, List.dropLast_concat] at hfixed
  rw [hfixed hc]
  refine congrArg some (Bool.eq_iff_iff.mpr (beq_iff_eq.trans ⟨?_, fun hatom => ?_⟩))
  · rintro rfl
    exact htrue
  · exact hunique.unique ⟨hc, hatom⟩ ⟨hvalue, htrue⟩

/-- What is decoded describes a world in which every function application has one value. -/
theorem Decodable.describes_of_functional (h : Decodable e)
    (hf : e.base.Functional (e.world m.value)) (hM : e.decode m = .ok M) :
    e.base.Describes (e.interpretation m.value) M := by
  rw [decode, Except.bind_eq_ok] at hM
  obtain ⟨⟨S, functions⟩, hpredicates, hM⟩ := hM
  obtain ⟨hS, hall⟩ := refines_decodePredicates hpredicates
  obtain ⟨hMS, -⟩ := refines_decodeFunctions hM
  have hrefines := hS.trans hMS
  refine ⟨hrefines.vocabulary, hrefines.tables, fun {a} ha => ?_, fun {a v} hv => ?_⟩
  · obtain ⟨v, hv⟩ := h.numbers.exists_var ha
    obtain ⟨s, hs, hpredicate, -⟩ := hall _ (mem_zipIdx_atoms hv)
    cases hfunction : s.isFunction with
    | false =>
        rw [h.numbers.interpretation_eq hv]
        exact hMS.keeps (hpredicate hfunction)
    | true => exact h.facts_function hf hpredicates hM ha hs hfunction
  · rcases hrefines.inTables hv with hv | ha
    · exact h.facts a v hv
    · exact ha

theorem Decodable.describes (h : Decodable e) (hm : e.solver.Admits m.value)
    (hM : e.decode m = .ok M) :
    e.base.Describes (e.interpretation m.value) M :=
  h.describes_of_functional (h.functional hm) hM

/-- A world that keeps the structure and gives every function application one value can be
decoded. -/
theorem Decodable.exists_decode (h : Decodable e) (hf : e.base.Functional (e.world m.value))
    (hkeeps : e.base.Keeps (e.world m.value)) :
    ∃ M, e.decode m = .ok M ∧ e.base.Describes (e.interpretation m.value) M := by
  obtain ⟨atoms, hatoms⟩ := h.listed
  have hnumbered : ∀ av ∈ e.atoms.toList.zipIdx,
      e.base.InTables av.1 ∧ (e.world m.value).atom av.1.symbol av.1.tuple = m.value av.2 := by
    rintro ⟨a, v⟩ hav
    rw [List.mk_mem_zipIdx_iff_getElem?, Array.getElem?_toList] at hav
    exact ⟨h.numbers.mem_iff.mp (Array.mem_toList_iff.mpr (Array.mem_of_getElem? hav)),
      h.numbers.interpretation_eq hav⟩
  obtain ⟨S, functions, hpredicates, hS, hfunctions⟩ := exists_decodePredicates hkeeps hnumbered
  have hrefines := (refines_decodePredicates hpredicates).1
  obtain ⟨M, hM⟩ := exists_decodeFunctions hS fun a ha => by
    obtain ⟨htables, hfunction, htrue⟩ := hfunctions a ha
    obtain ⟨s, result, hs, hresult⟩ := Structure.exists_symbol_of_isFunction hfunction
    obtain ⟨f, tuple⟩ := a
    obtain ⟨t, c, rfl⟩ := htables.exists_eq_append (Vocabulary.symbol_eq_ok_iff.mpr hs)
      (by rw [Symbol.isFunction, hresult, Option.isSome_some])
    have hgraph := fun {v} => inTables_append_iff hatoms hs hresult (t := t) (v := v)
    obtain ⟨ht, hc⟩ := hgraph.mp htables
    refine ⟨e.base.elements result, t, c, ?_, rfl, fun d hd => ?_⟩
    · rw [Structure.resultDomain, hrefines.vocabulary,
        Structure.domain_congr hrefines.vocabulary hrefines.tables]
      exact resultDomain_of_atomsOf hatoms hs hresult
    · refine ⟨(Structure.inTables_congr hrefines.vocabulary hrefines.tables).mpr
        (hgraph.mpr ⟨ht, hd⟩), ?_⟩
      refine Bool.eq_iff_iff.mpr (Iff.trans ⟨fun hatom => ?_, ?_⟩ beq_iff_eq.symm)
      · exact (hf f s result hs hresult t ht).unique ⟨hd, hatom⟩ ⟨hc, htrue⟩
      · rintro rfl
        exact htrue
  have hdecode : e.decode m = .ok M := by
    rw [decode, hpredicates]
    exact hM
  exact ⟨M, hdecode, h.describes_of_functional hf hdecode⟩

end Describes

/-! ## Blocking -/

theorem satisfies_blockingClause {m : Model} : Satisfies α (e.blockingClause m) ↔
    ∃ v < e.atoms.size, e.isInput v = false ∧ α v ≠ m.value v := by
  have hholds : ∀ v, (Lit.signed v !m.value v).Holds α ↔ α v ≠ m.value v := fun v => by
    rw [Lit.Holds, Lit.var_signed, Lit.positive_signed]
    exact Bool.eq_not
  simp only [Satisfies, blockingClause, List.mem_map, List.mem_filter, List.mem_range,
    Bool.not_eq_true']
  constructor
  · rintro ⟨_, ⟨v, ⟨hlt, hinput⟩, rfl⟩, hv⟩
    exact ⟨v, hlt, hinput, (hholds v).mp hv⟩
  · rintro ⟨v, hlt, hinput, hv⟩
    exact ⟨_, ⟨v, ⟨hlt, hinput⟩, rfl⟩, (hholds v).mpr hv⟩

/-- Worlds that agree on the atoms that are not certain are equal. -/
theorem Ready.world_eq (h : Ready e) {β : Nat → Bool} (hα : e.solver.Admits α)
    (hβ : e.solver.Admits β)
    (hagree : ∀ v < e.atoms.size, e.isInput v = false → α v = β v) : e.world α = e.world β := by
  obtain ⟨atoms, hatoms⟩ := h.listed
  have hinterpretation : e.interpretation α = e.interpretation β := by
    funext a
    by_cases ha : e.base.InTables a
    · obtain ⟨v, hv⟩ := h.numbers.exists_var ha
      cases hinput : e.isInput v with
      | false =>
          rw [h.numbers.interpretation_eq hv, h.numbers.interpretation_eq hv]
          exact hagree v (Array.getElem?_eq_some_iff.mp hv).1 hinput
      | true =>
          obtain ⟨a', b, ha', hb⟩ := h.numbers.exists_value hinput
          cases hv.symm.trans ha'
          rw [atom_eq_of_value hatoms (h.keeps hα) (h.functional hα) ha hb,
            atom_eq_of_value hatoms (h.keeps hβ) (h.functional hβ) ha hb]
    · rw [Bool.eq_false_of_not_eq_true fun htrue => ha (h.numbers.inTables htrue),
        Bool.eq_false_of_not_eq_true fun htrue => ha (h.numbers.inTables htrue)]
  rw [world, hinterpretation, world]

theorem Decodable.var_lt_of_mem_blockingClause (h : Decodable e) (m : Model) :
    ∀ l ∈ e.blockingClause m, l.var < e.solver.numVars := by
  intro l hl
  obtain ⟨v, hv, rfl⟩ := List.mem_map.mp hl
  have hsize := List.mem_range.mp (List.mem_filter.mp hv).1
  rw [Lit.var_signed]
  exact h.sound.index_lt (h.numbers.index_iff.mpr (Array.getElem?_eq_getElem hsize))

theorem Ready.block (h : Ready e) {m : Model} (hm : e.solver.Admits m.value) :
    Constrained e (e.block m).1 fun W => W ≠ e.world m.value := by
  have hlt := h.var_lt_of_mem_blockingClause m
  refine (adds_clause h.sound.valid hlt).constrained h.sound fun {α} hα => ?_
  rw [satisfies_blockingClause]
  constructor
  · rintro ⟨v, hv, -, hne⟩ heq
    have hatom := congrArg (fun W => W.atom e.atoms[v].symbol e.atoms[v].tuple) heq
    have hv' := Array.getElem?_eq_getElem hv
    change e.interpretation α e.atoms[v] = e.interpretation m.value e.atoms[v] at hatom
    rw [h.numbers.interpretation_eq hv', h.numbers.interpretation_eq hv'] at hatom
    exact hne hatom
  · intro hne
    by_contra hnone
    push Not at hnone
    exact hne (h.world_eq hα hm hnone)

end Encoder

end ModelExpansion
