import Mathlib.Data.List.Nodup
import ModelExpansion.Encoding.Encoder
import ModelExpansion.Proofs.Grounding

/-! # Atoms in the tables
Every atom whose elements are in the tables is listed exactly once. -/

namespace ModelExpansion

/-! ## Products -/

theorem mem_product_cons {α : Type} {d : List α} {ds : List (List α)} {t : List α} :
    t ∈ product (d :: ds) ↔ ∃ a ∈ d, ∃ t' ∈ product ds, t = a :: t' := by
  simp only [product_cons, List.mem_flatMap, List.mem_map, eq_comm]

theorem mem_product {α : Type} {ds : List (List α)} {t : List α} :
    t ∈ product ds ↔ List.Forall₂ (fun d a => a ∈ d) ds t := by
  induction ds generalizing t with
  | nil => rw [product, List.mem_singleton, List.forall₂_nil_left_iff]
  | cons d ds ih =>
      rw [mem_product_cons, List.forall₂_cons_left_iff]
      simp only [ih, exists_and_left]

theorem nodup_of_ascending {α : Type} [Ord α] [Std.ReflOrd α] {xs : List α}
    (h : xs.Pairwise fun a b => compare a b = .lt) : xs.Nodup := by
  refine h.imp fun hlt heq => ?_
  rw [heq] at hlt
  cases hlt.symm.trans Std.ReflOrd.compare_self

/-- Products of ascending domains are in lexicographic order. -/
theorem pairwise_product {α : Type} [Ord α] [Std.ReflOrd α] {ds : List (List α)}
    (h : ∀ d ∈ ds, d.Pairwise fun a b => compare a b = .lt) :
    (product ds).Pairwise fun s t => compare s t = .lt := by
  induction ds with
  | nil => exact List.pairwise_singleton _ _
  | cons d ds ih =>
      obtain ⟨hd, hds⟩ := List.forall_mem_cons.mp h
      rw [product_cons, List.pairwise_flatMap]
      constructor
      · intro a _
        refine List.pairwise_map.mpr ((ih hds).imp fun hlt => ?_)
        rw [List.compare_cons_cons, Std.ReflOrd.compare_self, Ordering.eq_then, hlt]
      · refine hd.imp fun hlt s hs t ht => ?_
        obtain ⟨r, -, rfl⟩ := List.mem_map.mp hs
        obtain ⟨r', -, rfl⟩ := List.mem_map.mp ht
        rw [List.compare_cons_cons, hlt, Ordering.lt_then]

theorem mem_product_append_singleton {α : Type} {ds : List (List α)} {d : List α}
    {t : List α} {a : α} :
    t ++ [a] ∈ product (ds ++ [d]) ↔ t ∈ product ds ∧ a ∈ d := by
  rw [mem_product, mem_product, ← List.forall₂_reverse_iff, List.reverse_append,
    List.reverse_append]
  exact List.forall₂_cons.trans (and_comm.trans (and_congr_left' List.forall₂_reverse_iff))

theorem Vocabulary.symbol_eq_ok_iff {V : Vocabulary} {p : SymbolId} {s : Symbol} :
    V.symbol p = .ok s ↔ V.symbols[p]? = some s := by
  rw [Vocabulary.symbol]
  cases V.symbols[p]? with
  | none => simp
  | some _ => simp

theorem Vocabulary.mem_symbolIds {V : Vocabulary} {p : SymbolId} {s : Symbol}
    (h : V.symbols[p]? = some s) :
    p ∈ V.symbolIds :=
  List.mem_range.mpr (List.getElem?_eq_some_iff.mp h).1

namespace Structure

variable {S M : Structure}

/-! ## Tables -/

theorem resultSort_eq_ok_iff {V : Vocabulary} {f : SymbolId} {result : SortId} :
    V.resultSort f = .ok result ↔ ∃ s, V.symbols[f]? = some s ∧ s.result = some result := by
  rw [Vocabulary.resultSort, Except.bind_eq_ok]
  refine exists_congr fun s => and_congr Vocabulary.symbol_eq_ok_iff ?_
  cases s.result with
  | none => exact iff_of_false (fun h => by cases h) fun h => by cases h
  | some sort => simp [pure, Except.pure]

theorem isFunction_of_symbol {f : SymbolId} {s : Symbol} (hs : S.vocabulary.symbols[f]? = some s) :
    S.isFunction f = s.isFunction := by
  rw [isFunction, Vocabulary.symbol_eq_ok_iff.mpr hs]

theorem exists_symbol_of_isFunction {f : SymbolId} (h : S.isFunction f = true) :
    ∃ s result, S.vocabulary.symbols[f]? = some s ∧ s.result = some result := by
  rw [isFunction] at h
  cases hs : S.vocabulary.symbol f with
  | error failure =>
      rw [hs] at h
      cases h
  | ok s =>
      rw [hs] at h
      obtain ⟨result, hresult⟩ := Option.isSome_iff_exists.mp h
      exact ⟨s, result, Vocabulary.symbol_eq_ok_iff.mp hs, hresult⟩

theorem isFunction_of_resultSort {f : SymbolId} {result : SortId}
    (h : S.vocabulary.resultSort f = .ok result) : S.isFunction f = true := by
  obtain ⟨s, hs, hresult⟩ := resultSort_eq_ok_iff.mp h
  rw [isFunction_of_symbol hs, Symbol.isFunction, hresult, Option.isSome_some]

theorem results_eq_elements {f : SymbolId} {s : Symbol} {result : SortId}
    (hs : S.vocabulary.symbols[f]? = some s) (hresult : s.result = some result) :
    S.results f = S.elements result := by
  rw [results, resultDomain, resultSort_eq_ok_iff.mpr ⟨s, hs, hresult⟩]
  rfl

/-- Only a function has possible values, those of its result sort. -/
theorem exists_result_of_resultDomain {f : SymbolId} {values : List Element}
    (h : S.resultDomain f = .ok values) : ∃ s result, S.vocabulary.symbols[f]? = some s ∧
      s.result = some result ∧ values = S.elements result := by
  rw [resultDomain, Except.bind_eq_ok] at h
  obtain ⟨result, hresult, h⟩ := h
  obtain ⟨s, hs, hsort⟩ := resultSort_eq_ok_iff.mp hresult
  exact ⟨s, result, hs, hsort, (elements_of_domain h).symm⟩

theorem ascending_elements (S : Structure) (sort : SortId) :
    (S.elements sort).Pairwise fun a b => compare a b = .lt := by
  rw [elements, domain]
  cases S.table sort with
  | error failure => exact .nil
  | ok t =>
      cases helements : t.elements? with
      | none =>
          simp only [bind, Except.bind, helements]
          exact .nil
      | some es =>
          simp only [bind, Except.bind, helements]
          exact Table.sorted_elements helements

theorem nodup_elements (S : Structure) (sort : SortId) : (S.elements sort).Nodup :=
  nodup_of_ascending (S.ascending_elements sort)

/-- The domains of a symbol are in ascending order. -/
theorem ascending_graphDomains {p : SymbolId} {ds : List (List Element)}
    (h : S.graphDomains p = .ok ds) :
    ∀ d ∈ ds, d.Pairwise fun a b => compare a b = .lt := by
  rw [graphDomains, Except.bind_eq_ok] at h
  obtain ⟨s, -, hds⟩ := h
  rw [domains_eq_map hds, List.forall_mem_map]
  exact fun sort _ => S.ascending_elements sort

/-- Whether an element is in the table of a sort. -/
def Has (S : Structure) (sort : SortId) (v : Element) : Prop :=
  ∃ t, S.table sort = .ok t ∧ t.contains v = true

theorem has_iff_mem {sort : SortId} {es : List Element} (h : S.domain sort = .ok es) {v : Element} :
    S.Has sort v ↔ v ∈ es := by
  rw [domain, Except.bind_eq_ok] at h
  obtain ⟨t, ht, h⟩ := h
  cases helements : t.elements? with
  | none =>
      rw [helements] at h
      cases h
  | some es' =>
      rw [helements] at h
      cases h
      rw [Has, ht, Table.mem_elements helements]
      simp

theorem checkPositions_eq_ok_iff {p : SymbolId} {n : Nat} {sorts : List SortId} {t : Tuple}
    (h : sorts.length = t.length) :
    S.checkPositions p n sorts t = .ok () ↔ List.Forall₂ S.Has sorts t := by
  induction sorts generalizing n t with
  | nil =>
      obtain rfl := List.length_eq_zero_iff.mp h.symm
      simp [checkPositions, pure, Except.pure]
  | cons sort sorts ih =>
      cases t with
      | nil => cases h
      | cons v t =>
          rw [checkPositions, Except.bind_eq_ok, List.forall₂_cons]
          constructor
          · rintro ⟨table, htable, hrest⟩
            split at hrest
            · rename_i hcontains
              exact ⟨⟨table, htable, hcontains⟩, (ih (Nat.succ.inj h)).mp hrest⟩
            · cases hrest
          · rintro ⟨⟨table, htable, hcontains⟩, hrest⟩
            exact ⟨table, htable, by rw [if_pos hcontains]; exact (ih (Nat.succ.inj h)).mpr hrest⟩

theorem inTables_iff {a : Atom} :
    S.InTables a ↔ ∃ s, S.vocabulary.symbol a.symbol = .ok s ∧
    List.Forall₂ S.Has s.graphSorts a.tuple := by
  rw [InTables, checkTuple, Except.bind_eq_ok]
  refine exists_congr fun s => and_congr_right fun _ => ?_
  dsimp only
  split
  · rename_i hlength
    exact checkPositions_eq_ok_iff hlength
  · rename_i hlength
    exact iff_of_false (fun h => by cases h) fun h => hlength h.length_eq

theorem InTables.exists_eq_append {a : Atom} (h : S.InTables a) {s : Symbol}
    (hs : S.vocabulary.symbol a.symbol = .ok s) (hfunction : s.isFunction = true) :
    ∃ t v, a.tuple = t ++ [v] := by
  obtain ⟨s', hs', hhas⟩ := inTables_iff.mp h
  rw [hs] at hs'
  cases hs'
  obtain ⟨result, hresult⟩ := Option.isSome_iff_exists.mp hfunction
  have hlength := hhas.length_eq
  rw [Symbol.graphSorts, hresult, List.length_append] at hlength
  rcases List.eq_nil_or_concat a.tuple with hnil | ⟨t, v, htuple⟩
  · rw [hnil] at hlength
    simp at hlength
  · exact ⟨t, v, htuple.trans List.concat_eq_append⟩

theorem inTables_congr (hvocabulary : M.vocabulary = S.vocabulary) (htables : M.tables = S.tables)
    {a : Atom} : M.InTables a ↔ S.InTables a := by
  have hhas : M.Has = S.Has := by
    funext sort v
    rw [Has, Has, table, table, htables]
  rw [inTables_iff, inTables_iff, hvocabulary, hhas]

theorem forall₂_has_iff {sorts : List SortId} {ds : List (List Element)}
    (h : List.Forall₂ (fun sort d => S.domain sort = .ok d) sorts ds) {t : Tuple} :
    List.Forall₂ S.Has sorts t ↔ List.Forall₂ (fun d v => v ∈ d) ds t := by
  induction h generalizing t with
  | nil => simp
  | cons hd _ ih =>
      rw [List.forall₂_cons_left_iff, List.forall₂_cons_left_iff]
      simp only [has_iff_mem hd, ih]

/-- Where the tables of a symbol can be enumerated, its tuples are. -/
theorem inTables_iff_mem_product {p : SymbolId} {ds : List (List Element)}
    (h : S.graphDomains p = .ok ds) {t : Tuple} : S.InTables ⟨p, t⟩ ↔ t ∈ product ds := by
  rw [graphDomains, Except.bind_eq_ok] at h
  obtain ⟨s, hs, h⟩ := h
  rw [inTables_iff, mem_product, ← forall₂_has_iff (forall₂_of_mapM_eq_ok h)]
  simp only [hs, Except.ok.injEq, exists_eq_left']

/-- A predicate is two-valued where its tables can be enumerated and each of its atoms is
recorded. -/
theorem isTwoValued_eq_ok_true_iff {p : SymbolId} (hpredicate : S.isFunction p = false) :
    S.isTwoValued p = .ok true ↔ (∃ domains, S.graphDomains p = .ok domains) ∧
      ∀ t, S.InTables ⟨p, t⟩ → ∃ b, S.facts[(⟨p, t⟩ : Atom)]? = some b := by
  have hknown : ∀ t, (S.stored p t).isKnown = true ↔ ∃ b, S.facts[(⟨p, t⟩ : Atom)]? = some b := by
    intro t
    rw [stored]
    rcases S.facts[(⟨p, t⟩ : Atom)]? with _ | _ | _ <;>
      simp [Truth.ofOption, Truth.ofBool, Truth.isKnown]
  rw [isTwoValued, Except.bind_eq_ok]
  constructor
  · rintro ⟨s, hs, h⟩
    rw [isFunction_of_symbol (Vocabulary.symbol_eq_ok_iff.mp hs)] at hpredicate
    rw [hpredicate, if_neg Bool.false_ne_true, Except.bind_eq_ok] at h
    obtain ⟨domains, hdomains, h⟩ := h
    rw [allTuplesM_eq, allM_eq_ok_true_iff] at h
    refine ⟨⟨domains, hdomains⟩, fun t ht => (hknown t).mp ?_⟩
    exact Except.pure_eq_ok.mp (h t ((inTables_iff_mem_product hdomains).mp ht))
  · rintro ⟨⟨domains, hdomains⟩, h⟩
    have hsymbol := hdomains
    rw [graphDomains, Except.bind_eq_ok] at hsymbol
    obtain ⟨s, hs, -⟩ := hsymbol
    refine ⟨s, hs, ?_⟩
    rw [isFunction_of_symbol (Vocabulary.symbol_eq_ok_iff.mp hs)] at hpredicate
    rw [hpredicate, if_neg Bool.false_ne_true, hdomains, Except.ok_bind, allTuplesM_eq,
      allM_eq_ok_true_iff]
    intro t ht
    exact Except.pure_eq_ok.mpr ((hknown t).mpr (h t ((inTables_iff_mem_product hdomains).mpr ht)))

end Structure

/-! ## Atoms -/

namespace Encoder

variable {S : Structure} {atoms : List Atom}

theorem forall₂_of_atomsOf_eq_ok (h : atomsOf S = .ok atoms) :
    ∃ domains : List (SymbolId × List (List Element)),
      List.Forall₂ (fun p pd => pd.1 = p ∧ S.graphDomains p = .ok pd.2)
        S.vocabulary.symbolIds domains ∧
      atoms = domains.flatMap fun pd => (product pd.2).map (Atom.mk pd.1) := by
  rw [atomsOf, Except.bind_eq_ok] at h
  obtain ⟨domains, hdomains, h⟩ := h
  cases h
  refine ⟨domains, (forall₂_of_mapM_eq_ok hdomains).imp fun p pd hpd => ?_, rfl⟩
  rw [Except.bind_eq_ok] at hpd
  obtain ⟨ds, hds, hpd⟩ := hpd
  cases hpd
  exact ⟨rfl, hds⟩

theorem mem_atomsOf (h : atomsOf S = .ok atoms) {a : Atom} : a ∈ atoms ↔ S.InTables a := by
  obtain ⟨domains, hdomains, rfl⟩ := forall₂_of_atomsOf_eq_ok h
  simp only [List.mem_flatMap, List.mem_map]
  constructor
  · rintro ⟨pd, hpd, t, ht, rfl⟩
    obtain ⟨p, -, rfl, hds⟩ := exists_left_of_forall₂ hdomains hpd
    exact (Structure.inTables_iff_mem_product hds).mpr ht
  · intro ha
    obtain ⟨s, hs, -⟩ := Structure.inTables_iff.mp ha
    have hmem := Vocabulary.mem_symbolIds (Vocabulary.symbol_eq_ok_iff.mp hs)
    obtain ⟨pd, hpd, hp, hds⟩ := exists_right_of_forall₂ hdomains hmem
    exact ⟨pd, hpd, a.tuple, (Structure.inTables_iff_mem_product hds).mp ha, by rw [hp]⟩

theorem pairwise_atomsOf (h : atomsOf S = .ok atoms) :
    atoms.Pairwise fun a b => compare a b = .lt := by
  obtain ⟨domains, hdomains, rfl⟩ := forall₂_of_atomsOf_eq_ok h
  have hsymbols : domains.map Prod.fst = S.vocabulary.symbolIds := by
    have hmap := map_eq_map_of_forall₂ (f := id) hdomains fun _ _ hpd => hpd.1
    rwa [List.map_id] at hmap
  have hascending : (domains.map Prod.fst).Pairwise (· < ·) := hsymbols ▸ List.pairwise_lt_range
  rw [List.pairwise_flatMap]
  constructor
  · intro pd hpd
    obtain ⟨p, -, -, hds⟩ := exists_left_of_forall₂ hdomains hpd
    refine List.pairwise_map.mpr
      ((pairwise_product (Structure.ascending_graphDomains hds)).imp fun hlt => ?_)
    exact Ordering.then_eq_lt.mpr (.inr ⟨Std.ReflOrd.compare_self, hlt⟩)
  · refine (List.pairwise_map.mp hascending).imp fun hlt a ha b hb => ?_
    obtain ⟨t, -, rfl⟩ := List.mem_map.mp ha
    obtain ⟨t', -, rfl⟩ := List.mem_map.mp hb
    exact Ordering.then_eq_lt.mpr (.inl (Nat.compare_eq_lt.mpr hlt))

theorem nodup_atomsOf (h : atomsOf S = .ok atoms) : atoms.Nodup :=
  nodup_of_ascending (pairwise_atomsOf h)

/-- Where all atoms are listed, the graph of a function is made of its arguments and its values. -/
theorem inTables_append_iff (h : atomsOf S = .ok atoms) {f : SymbolId} {s : Symbol}
    {result : SortId}
    (hs : S.vocabulary.symbols[f]? = some s) (hresult : s.result = some result) {t : Tuple}
    {v : Element} :
    S.InTables ⟨f, t ++ [v]⟩ ↔ t ∈ product (s.args.map S.elements) ∧ v ∈ S.elements result := by
  obtain ⟨domains, hdomains, -⟩ := forall₂_of_atomsOf_eq_ok h
  obtain ⟨pd, -, -, hds⟩ := exists_right_of_forall₂ hdomains (Vocabulary.mem_symbolIds hs)
  have hgraph := hds
  rw [Structure.graphDomains, Except.bind_eq_ok] at hds
  obtain ⟨s', hs', hds⟩ := hds
  rw [Vocabulary.symbol_eq_ok_iff, hs] at hs'
  cases hs'
  rw [Structure.inTables_iff_mem_product hgraph, Structure.domains_eq_map hds,
    Symbol.graphSorts, hresult, List.map_append]
  exact mem_product_append_singleton

/-- Where all atoms are listed, the values of a function can be enumerated. -/
theorem resultDomain_of_atomsOf (h : atomsOf S = .ok atoms) {f : SymbolId} {s : Symbol}
    {result : SortId} (hs : S.vocabulary.symbols[f]? = some s) (hresult : s.result = some result) :
    S.resultDomain f = .ok (S.elements result) := by
  obtain ⟨domains, hdomains, -⟩ := forall₂_of_atomsOf_eq_ok h
  obtain ⟨pd, -, -, hds⟩ := exists_right_of_forall₂ hdomains (Vocabulary.mem_symbolIds hs)
  obtain ⟨s', hs', hds⟩ := Except.bind_eq_ok.mp hds
  rw [Vocabulary.symbol_eq_ok_iff, hs] at hs'
  cases hs'
  have hmem : result ∈ s.graphSorts := by simp [Symbol.graphSorts, hresult]
  obtain ⟨values, -, hvalues⟩ := exists_right_of_forall₂ (forall₂_of_mapM_eq_ok hds) hmem
  rw [Structure.resultDomain, Structure.resultSort_eq_ok_iff.mpr ⟨s, hs, hresult⟩,
    Except.ok_bind, hvalues, Structure.elements_of_domain hvalues]

end Encoder

end ModelExpansion
