import ModelExpansion.Interchange
import ModelExpansion.Proofs.Tables

/-! # Interchangeable elements share their tables
Grouping keeps together what is related to the first item of a group. The elements of an
interchangeable set are therefore in the same tables, and exchanging two of them leaves no table. -/

namespace ModelExpansion

/-! ## Swaps -/

section Swaps

variable {a b : Element}

@[simp] theorem swapElement_swapElement (e : Element) :
    swapElement a b (swapElement a b e) = e := by
  unfold swapElement
  split <;> split <;> simp_all

@[simp] theorem swapAtom_swapAtom (x : Atom) : swapAtom a b (swapAtom a b x) = x := by
  have hcomp : swapElement a b ∘ swapElement a b = id := funext swapElement_swapElement
  rw [swapAtom, swapAtom, swapTuple, swapTuple, List.map_map, hcomp, List.map_id]

theorem swapAtom_injective : Function.Injective (swapAtom a b) :=
  Function.LeftInverse.injective swapAtom_swapAtom

end Swaps

/-! ## Groups -/

section Groups

variable {α : Type} {related : α → α → Bool} {items xs : List α} {groups : List (List α)} {x : α}

/-- Groups of some items, whose members are related to the first one of their group. -/
def Grouped (related : α → α → Bool) (items : List α) (groups : List (List α)) : Prop :=
  ∀ g ∈ groups, (∀ x ∈ g, x ∈ items) ∧ ∃ y rest, g = y :: rest ∧ ∀ x ∈ rest, related y x = true

theorem Grouped.insert (h : Grouped related items groups) (hx : x ∈ items) :
    Grouped related items (insertIntoGroup related x groups) := by
  induction groups with
  | nil =>
      intro g hg
      obtain rfl := List.mem_singleton.mp hg
      exact ⟨List.forall_mem_singleton.mpr hx, x, [], rfl, fun _ hz => absurd hz List.not_mem_nil⟩
  | cons g groups ih =>
      obtain ⟨⟨hmem, y, rest, rfl, hrelated⟩, hgroups⟩ := List.forall_mem_cons.mp h
      rw [insertIntoGroup]
      split
      · rename_i hhead
        refine List.forall_mem_cons.mpr ⟨⟨?_, y, rest ++ [x], rfl, ?_⟩, hgroups⟩
        · exact List.forall_mem_append.mpr ⟨hmem, List.forall_mem_singleton.mpr hx⟩
        · exact List.forall_mem_append.mpr ⟨hrelated, List.forall_mem_singleton.mpr hhead⟩
      · exact List.forall_mem_cons.mpr ⟨⟨hmem, y, rest, rfl, hrelated⟩, ih hgroups⟩

theorem Grouped.foldl (h : Grouped related items groups) (hxs : ∀ x ∈ xs, x ∈ items) :
    Grouped related items (xs.foldl (fun groups x => insertIntoGroup related x groups) groups) := by
  induction xs generalizing groups with
  | nil => exact h
  | cons x xs ih =>
      obtain ⟨hx, hxs⟩ := List.forall_mem_cons.mp hxs
      exact ih (h.insert hx) hxs

theorem grouped_groupBy (related : α → α → Bool) (items : List α) :
    Grouped related items (groupBy related items) :=
  Grouped.foldl (fun _ hg => absurd hg List.not_mem_nil) fun _ hx => hx

/-- Where being related means sharing a value, all members of a group do. -/
theorem Grouped.eq_of_mem {β : Type} {f : α → β} (h : Grouped related items groups)
    (hf : ∀ x y, related x y = true → f x = f y) {g : List α} (hg : g ∈ groups)
    {x y : α} (hx : x ∈ g) (hy : y ∈ g) : f x = f y := by
  obtain ⟨-, z, rest, rfl, hrelated⟩ := h g hg
  have hfirst : ∀ x ∈ z :: rest, f z = f x :=
    List.forall_mem_cons.mpr ⟨rfl, fun x hx => hf z x (hrelated x hx)⟩
  exact (hfirst x hx).symm.trans (hfirst y hy)

end Groups

/-! ## Interchangeable sets -/

variable {S : Structure}

theorem signature_eq_of_mem_class {named elements c : List Element}
    (hc : c ∈ signatureClasses S named elements) {a b : Element} (ha : a ∈ c) (hb : b ∈ c) :
    signature S S.certainFacts named a = signature S S.certainFacts named b := by
  rw [signatureClasses, List.mem_filter, List.mem_map] at hc
  obtain ⟨⟨g, hg, rfl⟩, -⟩ := hc
  have hgrouped := grouped_groupBy (fun a b : Element × Signature => a.2 == b.2)
    (elements.map fun e => (e, signature S S.certainFacts named e))
  have hsigned : ∀ x ∈ g, x.2 = signature S S.certainFacts named x.1 := by
    intro x hx
    obtain ⟨e, -, rfl⟩ := List.mem_map.mp ((hgrouped g hg).1 x hx)
    rfl
  obtain ⟨x, hx, rfl⟩ := List.mem_map.mp ha
  obtain ⟨y, hy, rfl⟩ := List.mem_map.mp hb
  rw [← hsigned x hx, ← hsigned y hy]
  exact hgrouped.eq_of_mem (fun _ _ heq => beq_iff_eq.mp heq) hg hx hy

theorem candidates_cases (S : Structure) (arithmetic : SortSet) (sort : SortId) :
    candidates S arithmetic sort = [] ∨ S.domain sort = .ok (candidates S arithmetic sort) := by
  rw [candidates, Structure.domain, Structure.table, List.getD_eq_getElem?_getD]
  cases htable : S.tables[sort]? with
  | none =>
      have hempty : Table.empty.elements? = some [] := rfl
      rw [Option.getD_none, hempty]
      exact .inl (by simp)
  | some t =>
      rw [Option.getD_some, Except.ok_bind]
      cases t.elements? with
      | none => exact .inl rfl
      | some es =>
          dsimp only
          split
          · exact .inl rfl
          · split
            · split
              · exact .inr rfl
              · exact .inl rfl
            · exact .inl rfl

def Structure.SameTables (S : Structure) (a b : Element) : Prop :=
  ∀ t ∈ S.tables, t.contains a = t.contains b

theorem sameTables_of_mem_group {named elements g : List Element}
    (hg : g ∈ interchangeGroups S named elements)
    {a b : Element} (ha : a ∈ g) (hb : b ∈ g) : S.SameTables a b := by
  rw [interchangeGroups, List.mem_filter, List.mem_flatMap] at hg
  obtain ⟨⟨c, hc, hg⟩, -⟩ := hg
  have hmem := (grouped_groupBy (swapInvariant S) c g hg).1
  have hsignature := signature_eq_of_mem_class hc (hmem a ha) (hmem b hb)
  exact List.map_inj_left.mp (congrArg Signature.sorts hsignature)

theorem sameTables_of_mem_interchanges {T : Theory} {I : Interchange} (hI : I ∈ interchanges S T)
    {a b : Element} (ha : a ∈ I.elements) (hb : b ∈ I.elements) : S.SameTables a b := by
  rw [interchanges, List.mem_map] at hI
  obtain ⟨g, hg, rfl⟩ := hI
  rw [List.mem_eraseDups, List.mem_flatMap] at hg
  obtain ⟨sort, -, hg⟩ := hg
  exact sameTables_of_mem_group hg ha hb

/-- The symbols of an interchangeable set are declared ones in their order. -/
theorem exists_symbols_eq_filter {T : Theory} {I : Interchange} (hI : I ∈ interchanges S T) :
    ∃ keep, I.symbols = S.vocabulary.symbolIds.filter keep := by
  rw [interchanges, List.mem_map] at hI
  obtain ⟨g, -, rfl⟩ := hI
  exact ⟨_, rfl⟩

/-- Every symbol that ranges over a table with the elements of an interchangeable set is one of its
symbols. -/
theorem mem_symbols_of_has (hlength : S.tables.length = S.vocabulary.sorts.length) {T : Theory}
    {I : Interchange} (hI : I ∈ interchanges S T) {e : Element} (he : e ∈ I.elements)
    {p : SymbolId} {s : Symbol}
    (hs : S.vocabulary.symbols[p]? = some s) {sort : SortId} (hsort : sort ∈ s.graphSorts)
    (hhas : S.Has sort e) :
    p ∈ I.symbols := by
  have hshared := fun {a} => sameTables_of_mem_interchanges hI (a := a) (b := e)
  rw [interchanges, List.mem_map] at hI
  obtain ⟨g, -, rfl⟩ := hI
  obtain ⟨t, ht, hcontains⟩ := hhas
  rw [Structure.table] at ht
  cases htable : S.tables[sort]? with
  | none =>
      rw [htable] at ht
      cases ht
  | some t' =>
      rw [htable] at ht
      cases ht
      have hhead : g.headD default ∈ g := by
        cases g with
        | nil => cases he
        | cons a g => exact List.mem_cons_self
      have hfirst : t.contains (g.headD default) = true :=
        (hshared hhead he t (List.mem_of_getElem? htable)).trans hcontains
      have hdeclared : sort ∈ S.vocabulary.sortIds := by
        rw [Vocabulary.sortIds, List.mem_range, Vocabulary.numSorts, ← hlength]
        exact (List.getElem?_eq_some_iff.mp htable).1
      refine List.mem_filter.mpr ⟨Vocabulary.mem_symbolIds hs, ?_⟩
      rw [hs, Option.map_some, Option.getD_some, Symbol.touches, List.any_eq_true]
      refine ⟨sort, hsort, ?_⟩
      rw [Std.ExtTreeSet.contains_ofList, List.contains_iff_mem, List.mem_filter]
      refine ⟨hdeclared, ?_⟩
      rw [List.getD_eq_getElem?_getD, htable]
      exact hfirst

theorem mem_of_mem_swaps {I : Interchange} {ab : Element × Element} (h : ab ∈ I.swaps) :
    ab.1 ∈ I.elements ∧ ab.2 ∈ I.elements := by
  obtain ⟨ha, hb⟩ := List.of_mem_zip h
  exact ⟨ha, List.mem_of_mem_tail hb⟩

/-- Swaps of an interchangeable set exchange elements of the same tables. -/
theorem sameTables_of_mem_swaps {T : Theory} {I : Interchange} (hI : I ∈ interchanges S T)
    {ab : Element × Element} (h : ab ∈ I.swaps) : S.SameTables ab.1 ab.2 :=
  sameTables_of_mem_interchanges hI (mem_of_mem_swaps h).1 (mem_of_mem_swaps h).2

namespace Structure

variable {a b : Element}

theorem SameTables.has_swapElement (h : S.SameTables a b) {sort : SortId} {e : Element}
    (he : S.Has sort e) :
    S.Has sort (swapElement a b e) := by
  obtain ⟨t, ht, hcontains⟩ := he
  refine ⟨t, ht, ?_⟩
  have hab : t.contains a = t.contains b := by
    rw [table] at ht
    cases hsort : S.tables[sort]? with
    | none =>
        rw [hsort] at ht
        cases ht
    | some t' =>
        rw [hsort] at ht
        cases ht
        exact h t (List.mem_of_getElem? hsort)
  rw [swapElement]
  split
  · rename_i heq
    rw [← hab, ← heq]
    exact hcontains
  · split
    · rename_i heq
      rw [hab, ← heq]
      exact hcontains
    · exact hcontains

/-- Exchanging elements of the same tables leads from atoms of the tables to atoms of the tables. -/
theorem SameTables.inTables_swapAtom (h : S.SameTables a b) {x : Atom} (hx : S.InTables x) :
    S.InTables (swapAtom a b x) := by
  obtain ⟨s, hs, hhas⟩ := inTables_iff.mp hx
  refine inTables_iff.mpr ⟨s, hs, ?_⟩
  exact List.forall₂_map_right_iff.mpr (hhas.imp fun _ _ he => h.has_swapElement he)

end Structure

end ModelExpansion
