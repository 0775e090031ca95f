import ModelExpansion.Proofs.Encoding.Agreement

/-! # The atom table
The first encoder of a structure numbers the atoms of its tables. Total structures that keep the
facts and models that satisfy the first clauses correspond to each other by that numbering. -/

namespace ModelExpansion

open ModelExpansion.Sat

/-! ## Finite tables -/

/-- Whether the tables of all symbols can be enumerated. -/
def Structure.FiniteTables (S : Structure) : Prop :=
  ∀ (p : SymbolId) s, S.vocabulary.symbols[p]? = some s →
    ∀ sort ∈ s.graphSorts, ∃ es, S.domain sort = .ok es

theorem Vocabulary.exists_symbol {V : Vocabulary} {p : SymbolId} (h : p ∈ V.symbolIds) :
    ∃ s, V.symbols[p]? = some s :=
  ⟨_, List.getElem?_eq_getElem (List.mem_range.mp h)⟩

namespace Encoder

variable {S M : Structure} {e : Encoder}

theorem exists_atomsOf (h : S.FiniteTables) : ∃ atoms, atomsOf S = .ok atoms := by
  obtain ⟨domains, hdomains⟩ : ∃ domains, S.vocabulary.symbolIds.mapM
      (fun p => return (p, ← S.graphDomains p) : SymbolId → Except Failure _) = .ok domains := by
    refine exists_mapM_eq_ok fun p hp => ?_
    obtain ⟨s, hs⟩ := Vocabulary.exists_symbol hp
    obtain ⟨ds, hds⟩ := exists_mapM_eq_ok (h p s hs)
    exact ⟨(p, ds), Except.bind_eq_ok.mpr
      ⟨ds, Except.bind_eq_ok.mpr ⟨s, Vocabulary.symbol_eq_ok_iff.mpr hs, hds⟩, rfl⟩⟩
  exact ⟨_, Except.bind_eq_ok.mpr ⟨domains, hdomains, rfl⟩⟩

theorem base_constrainFunction (e : Encoder) (f : SymbolId) (args : List Tuple)
    (values : List Element) :
    (e.constrainFunction f args values).base = e.base := by
  induction args generalizing e with
  | nil => rfl
  | cons t args ih =>
      rw [constrainFunction, List.foldl_cons, ← constrainFunction, ih, clauses_eq]

theorem exists_constrainFunctions {fs : List SymbolId} (h : e.base.FiniteTables)
    (hfs : ∀ f ∈ fs, f ∈ e.base.vocabulary.symbolIds) : ∃ e', e.constrainFunctions fs = .ok e' := by
  induction fs generalizing e with
  | nil => exact ⟨e, rfl⟩
  | cons f fs ih =>
      obtain ⟨hf, hfs⟩ := List.forall_mem_cons.mp hfs
      obtain ⟨s, hs⟩ := Vocabulary.exists_symbol hf
      rw [constrainFunctions, Vocabulary.symbol_eq_ok_iff.mpr hs, Except.ok_bind]
      cases hresult : s.result with
      | none => exact ih h hfs
      | some result =>
          have hsorts := h f s hs
          rw [Symbol.graphSorts, hresult, List.forall_mem_append] at hsorts
          obtain ⟨args, hargs⟩ := exists_mapM_eq_ok hsorts.1
          obtain ⟨values, hvalues⟩ := hsorts.2 result (List.mem_singleton_self result)
          have hbase := e.base_constrainFunction f (product args) values
          obtain ⟨e', he'⟩ :=
            ih (e := e.constrainFunction f (product args) values) (by rwa [hbase]) (by rwa [hbase])
          exact ⟨e', Except.bind_eq_ok.mpr
            ⟨args, hargs, Except.bind_eq_ok.mpr ⟨values, hvalues, he'⟩⟩⟩

theorem exists_start (h : S.FiniteTables) (config : Config) (monitor : Monitor) :
    ∃ e, start S (.fresh config monitor) = .ok e := by
  obtain ⟨atoms, hatoms⟩ := exists_atomsOf h
  have hfinite : (ofAtoms S (.fresh config monitor) atoms).base.FiniteTables := h
  have hids : ∀ f ∈ S.vocabulary.symbolIds,
      f ∈ (ofAtoms S (.fresh config monitor) atoms).base.vocabulary.symbolIds := fun _ hf => hf
  obtain ⟨e, he⟩ := exists_constrainFunctions hfinite hids
  exact ⟨e, Except.bind_eq_ok.mpr ⟨atoms, hatoms, he⟩⟩

/-! ## The numbering -/

theorem atomLit?_eq_some_iff {p : SymbolId} {t : Tuple} {v : Nat} :
    e.atomLit? p t = some (.pos v) ↔ e.index[(⟨p, t⟩ : Atom)]? = some v := by
  have hpos : Function.Injective Lit.pos := fun v w h => by
    rw [← Lit.var_signed v true, ← Lit.var_signed w true]
    exact congrArg Lit.var h
  rw [atomLit?, ← Option.map_some, (Option.map_injective hpos).eq_iff]

theorem atoms_of_start {config : Config} {monitor : Monitor}
    (h : start S (.fresh config monitor) = .ok e) :
    atomsOf S = .ok e.atoms.toList := by
  obtain ⟨atoms, hatoms⟩ := exists_atoms_of_start h
  rw [hatoms, (adds_start hatoms h).same]
  rfl

theorem Numbers.existsUnique_var (h : Numbers e) {a : Atom} :
    e.base.InTables a ↔ ∃! v : Nat, e.atoms[v]? = some a := by
  constructor
  · intro ha
    obtain ⟨v, hv⟩ := h.exists_var ha
    refine ⟨v, hv, fun w hw => ?_⟩
    exact Option.some.inj ((h.index_iff.mpr hw).symm.trans (h.index_iff.mpr hv))
  · rintro ⟨v, hv, -⟩
    exact h.mem_iff.mp (Array.mem_toList_iff.mpr (Array.mem_of_getElem? hv))

/-! ## Models and total structures -/

variable {m : Model}

/-- Where the atom variables have the truth of the atoms in a total structure, the world is that
structure. -/
theorem Decodable.interpretation_eq_isTrue (h : Decodable e) (hM : e.base.TotalOver M)
    (hvalues : ∀ (v : Nat) a, e.atoms[v]? = some a → M.facts[a]? = some (m.value v)) :
    e.interpretation m.value = M.isTrue := by
  funext a
  by_cases ha : e.base.InTables a
  · obtain ⟨v, hv⟩ := h.numbers.exists_var ha
    rw [h.numbers.interpretation_eq hv, Structure.isTrue, hvalues v a hv]
    cases m.value v <;> rfl
  · rw [Bool.eq_false_of_not_eq_true fun htrue => ha (h.numbers.inTables htrue),
      Bool.eq_false_of_not_eq_true fun htrue => ha (hM.inTables_of_isTrue htrue)]

/-- Decoding gives a total structure back. -/
theorem Decodable.decode_of_totalOver (h : Decodable e) (hM : e.base.TotalOver M)
    (hkeeps : ∀ (a : Atom) v, e.base.facts[a]? = some v → M.facts[a]? = some v)
    (hvalues : ∀ (v : Nat) a, e.atoms[v]? = some a → M.facts[a]? = some (m.value v)) :
    e.decode m = .ok M := by
  have hinterpretation := h.interpretation_eq_isTrue hM hvalues
  have hfunctional : e.base.Functional (e.world m.value) := by
    rw [world, hinterpretation]
    exact hM.functional_worldOf
  obtain ⟨M', hdecode, hM'⟩ := h.exists_decode hfunctional fun {a v} hv => by
    change e.interpretation m.value a = v
    rw [hinterpretation, Structure.isTrue, hkeeps a v hv]
    cases v <;> rfl
  rw [hinterpretation] at hM'
  rw [hdecode, hM'.unique hM.describes]

/-- What satisfies the clauses for functions and agrees with the facts is decoded to a total
structure that has the truth of all atoms from it. -/
theorem Decodable.decode_of_satisfies (h : Decodable e)
    (hclauses : ∀ f s result, e.base.vocabulary.symbols[f]? = some s → s.result = some result →
      ∀ t ∈ product (s.args.map e.base.elements),
        ∀ c ∈ exactlyOne ((e.base.elements result).filterMap fun v => e.atomLit? f (t ++ [v])),
          Satisfies m.value c)
    (hfacts : ∀ (a : Atom) b (v : Nat), e.base.facts[a]? = some b → e.atoms[v]? = some a →
      m.value v = b) :
    ∃ M, e.decode m = .ok M ∧ e.base.TotalOver M ∧
      (∀ (a : Atom) v, e.base.facts[a]? = some v → M.facts[a]? = some v) ∧
      ∀ (v : Nat) a, e.atoms[v]? = some a → M.facts[a]? = some (m.value v) := by
  have hfunctional : e.base.Functional (e.world m.value) := fun f s result hs hresult t ht =>
    (forall_mem_application (e.base.nodup_elements result)).mp (hclauses f s result hs hresult t ht)
  have hkeeps : ∀ {a : Atom} {b}, e.base.facts[a]? = some b → e.interpretation m.value a = b := by
    intro a b hb
    obtain ⟨v, hv⟩ := h.numbers.exists_var (h.facts a b hb)
    rw [h.numbers.interpretation_eq hv, hfacts a b v hb hv]
  obtain ⟨M, hdecode, hM⟩ := h.exists_decode hfunctional hkeeps
  refine ⟨M, hdecode, hM.totalOver (fun ha => h.numbers.inTables ha) hfunctional, fun a v hv => ?_,
    fun v a hv => ?_⟩
  · rw [hM.total (h.facts a v hv), hkeeps hv]
  · rw [hM.total (h.numbers.existsUnique_var.mpr ⟨v, hv, fun w hw => ?_⟩),
      h.numbers.interpretation_eq hv]
    exact Option.some.inj ((h.numbers.index_iff.mpr hw).symm.trans (h.numbers.index_iff.mpr hv))

/-- What the clauses of the first encoder admit satisfies the clauses for functions. -/
theorem Starts.satisfies_exactlyOne (h : Starts S e) {α : Nat → Bool} (hα : e.solver.Admits α) :
    ∀ f s result, S.vocabulary.symbols[f]? = some s → s.result = some result →
      ∀ t ∈ product (s.args.map S.elements),
        ∀ c ∈ exactlyOne ((S.elements result).filterMap fun v => e.atomLit? f (t ++ [v])),
          Satisfies α c :=
  fun f s result hs hresult t ht =>
    (forall_mem_application (S.nodup_elements result)).mpr
      (h.functional hα f s result hs hresult t ht)

theorem Starts.decode_of_admits (h : Starts S e)
    (hfacts : ∀ (a : Atom) v, S.facts[a]? = some v → S.InTables a)
    (hm : e.solver.Admits m.value)
    (hagree : ∀ (a : Atom) b (v : Nat), S.facts[a]? = some b → e.atoms[v]? = some a →
      m.value v = b) :
    ∃ M, e.decode m = .ok M ∧ S.TotalOver M ∧
      (∀ (a : Atom) v, S.facts[a]? = some v → M.facts[a]? = some v) ∧
      ∀ (v : Nat) a, e.atoms[v]? = some a → M.facts[a]? = some (m.value v) := by
  have hclauses := h.satisfies_exactlyOne hm
  rw [← h.base] at hclauses hagree ⊢
  exact (h.decodable hfacts).decode_of_satisfies hclauses hagree

end Encoder

open Encoder

/-- A structure with finite tables that hold its facts has an encoder. Its variables number the
atoms of the tables one to one, by symbol and then by tuple. Decoding gives every total structure
back that keeps the facts and gives every function application one value; and it succeeds on every
assignment that satisfies the clauses for functions and the facts, with a total structure in which
every atom has its assigned value. -/
theorem atomTable_correct {S : Structure} (hfinite : S.FiniteTables)
    (hfacts : ∀ (a : Atom) v, S.facts[a]? = some v → S.InTables a) (config : Config)
    (monitor : Monitor) :
    ∃ e, Encoder.start S (.fresh config monitor) = .ok e ∧
      ((∀ p t v, e.atomLit? p t = some (.pos v) ↔ e.atoms[v]? = some ⟨p, t⟩) ∧
        (∀ a, S.InTables a ↔ ∃! v : Nat, e.atoms[v]? = some a) ∧
        e.atoms.toList.Pairwise fun a b => compare a b = .lt) ∧
      (∀ M, S.TotalOver M → (∀ (a : Atom) v, S.facts[a]? = some v → M.facts[a]? = some v) →
        ∀ m : Model, (∀ (v : Nat) a, e.atoms[v]? = some a → M.facts[a]? = some (m.value v)) →
          e.decode m = .ok M) ∧
      ∀ m : Model,
        (∀ f s result, S.vocabulary.symbols[f]? = some s → s.result = some result →
          ∀ t ∈ product (s.args.map S.elements),
            ∀ c ∈ exactlyOne ((S.elements result).filterMap fun v => e.atomLit? f (t ++ [v])),
              Satisfies m.value c) →
        (∀ (a : Atom) b (v : Nat), S.facts[a]? = some b → e.atoms[v]? = some a → m.value v = b) →
        ∃ M, e.decode m = .ok M ∧ S.TotalOver M ∧
          (∀ (a : Atom) v, S.facts[a]? = some v → M.facts[a]? = some v) ∧
          ∀ (v : Nat) a, e.atoms[v]? = some a → M.facts[a]? = some (m.value v) := by
  obtain ⟨e, he⟩ := exists_start hfinite config monitor
  have hstarts := starts_of_start he
  have hdecodable := hstarts.decodable hfacts
  refine ⟨e, he, ⟨fun p t v => ?_, fun a => ?_, pairwise_atomsOf (atoms_of_start he)⟩,
    fun M hM hkeeps m hvalues => ?_, fun m hclauses hagree => ?_⟩
  · rw [atomLit?_eq_some_iff, hstarts.numbers.index_iff]
  · rw [← hstarts.base]
    exact hstarts.numbers.existsUnique_var
  · rw [← hstarts.base] at hM hkeeps
    exact hdecodable.decode_of_totalOver hM hkeeps hvalues
  · rw [← hstarts.base] at hclauses hagree ⊢
    exact hdecodable.decode_of_satisfies hclauses hagree

/-- All that is known of the exchange is that the first element does not stay as it is. -/
def exchanging : Structure :=
  { exchange with facts := .ofList ([(⟨1, [.int 1, .int 1]⟩, false)] : List (Atom × Bool)) }

theorem finiteTables_exchanging : exchanging.FiniteTables := by
  intro p s hs sort hsort
  have hdomain : exchanging.domain 0 = .ok [.int 1, .int 2] := by decide +kernel
  have hsorts : ∀ s ∈ exchanging.vocabulary.symbols, ∀ sort ∈ s.graphSorts, sort = 0 := by decide
  exact ⟨_, by rw [hsorts s (List.mem_of_getElem? hs) sort hsort, hdomain]⟩

theorem facts_exchanging {a : Atom} {v : Bool} (h : exchanging.facts[a]? = some v) :
    a = ⟨1, [.int 1, .int 1]⟩ ∧ v = false := by
  simpa using (getElem?_ofList_eq_some_iff (by decide)).mp h

/-- The atoms of the exchange in the order of their variables. -/
def exchangeAtoms : List Atom :=
  [⟨0, [.int 1]⟩, ⟨0, [.int 2]⟩, ⟨1, [.int 1, .int 1]⟩, ⟨1, [.int 1, .int 2]⟩,
    ⟨1, [.int 2, .int 1]⟩, ⟨1, [.int 2, .int 2]⟩]

/-- The exchange is decoded from its own atoms, and another structure from an assignment that the
clauses for the function allow. -/
theorem atomTable_correct_exchanging :
    ∃ e, Encoder.start exchanging (.fresh {} {}) = .ok e ∧
      e.atomLit? 1 [.int 2, .int 1] = some (.pos 4) ∧
      e.decode ⟨#[false, true, false, true, true, false]⟩ = .ok exchange ∧
      ∃ M, e.decode ⟨#[true, true, false, true, false, true]⟩ = .ok M ∧ exchanging.TotalOver M ∧
        M.facts[(⟨1, [.int 2, .int 2]⟩ : Atom)]? = some true := by
  have hruns : (Encoder.start exchanging (.fresh {} {})).toOption.any
      (fun e => e.atoms.toList == exchangeAtoms &&
      (product [[.int 1, .int 2]]).all fun t =>
        (exactlyOne ((exchanging.elements 0).filterMap fun v => e.atomLit? 1 (t ++ [v]))).all
          fun c => Satisfies (Model.value ⟨#[true, true, false, true, false, true]⟩) c) = true := by
    decide +kernel
  obtain ⟨e, hstart, ⟨hlit, -, -⟩, hdecode, hsatisfies⟩ := atomTable_correct finiteTables_exchanging
    (fun a v hv => by
      obtain ⟨rfl, -⟩ := facts_exchanging hv
      decide +kernel) {} {}
  rw [hstart] at hruns
  simp only [Except.toOption, Option.any_some, Bool.and_eq_true, beq_iff_eq, List.all_eq_true,
    decide_eq_true_eq] at hruns
  obtain ⟨hatoms, hclauses⟩ := hruns
  have hnumbered : ∀ {v : Nat} {a : Atom}, e.atoms[v]? = some a → (a, v) ∈ exchangeAtoms.zipIdx :=
    fun hv => hatoms ▸ mem_zipIdx_atoms hv
  have hgiven : ∀ {v : Nat} {a : Atom}, exchangeAtoms[v]? = some a → e.atoms[v]? = some a :=
    fun hv => by
    rwa [← Array.getElem?_toList, hatoms]
  refine ⟨e, hstart, (hlit _ _ _).mpr (hgiven rfl), ?_, ?_⟩
  · refine hdecode exchange ⟨rfl, rfl, totalOver_exchange.total, functional_exchange⟩
      (fun a v hv => ?_) _
      fun v a ha => ?_
    · obtain ⟨rfl, rfl⟩ := facts_exchanging hv
      decide +kernel
    · have hvalues : ∀ av ∈ exchangeAtoms.zipIdx, exchange.facts[av.1]? =
          some (Model.value ⟨#[false, true, false, true, true, false]⟩ av.2) := by decide +kernel
      exact hvalues _ (hnumbered ha)
  · have helements : exchanging.elements 0 = [.int 1, .int 2] := by decide +kernel
    have hvalue : ∀ av ∈ exchangeAtoms.zipIdx, av.1 = ⟨1, [.int 1, .int 1]⟩ →
        Model.value ⟨#[true, true, false, true, false, true]⟩ av.2 = false := by decide +kernel
    obtain ⟨M, hM, htotal, -, hfacts⟩ := hsatisfies ⟨#[true, true, false, true, false, true]⟩
      (fun f s result hs hresult t ht => by
        rcases f with _ | _ | f
        · cases hs
          cases hresult
        · cases hs
          cases hresult
          exact hclauses t (helements ▸ ht)
        · cases hs)
      (fun a b v hb hv => by
        obtain ⟨rfl, rfl⟩ := facts_exchanging hb
        exact hvalue _ (hnumbered hv) rfl)
    exact ⟨M, hM, htotal, hfacts 5 _ (hgiven rfl)⟩

end ModelExpansion
