import ModelExpansion.Proofs.Tables

/-! # Structures that record more
Recording keeps what was recorded. A structure that records every atom of the tables is determined
by the truth of the atoms, and whether it is an expansion depends on its world only. -/

namespace ModelExpansion

/-! ## Recording -/

/-- More atoms of the tables are recorded, and nothing is lost. -/
structure Structure.Refines (S S' : Structure) : Prop where
  vocabulary : S'.vocabulary = S.vocabulary
  tables : S'.tables = S.tables
  keeps : ∀ {a : Atom} {v}, S.facts[a]? = some v → S'.facts[a]? = some v
  inTables : ∀ {a : Atom} {v}, S'.facts[a]? = some v → S.facts[a]? = some v ∨ S.InTables a

namespace Structure

variable {S S' S'' : Structure}

theorem Refines.refl (S : Structure) : Refines S S := ⟨rfl, rfl, id, .inl⟩

theorem Refines.trans (h : Refines S S') (h' : Refines S' S'') : Refines S S'' where
  vocabulary := h'.vocabulary.trans h.vocabulary
  tables := h'.tables.trans h.tables
  keeps hv := h'.keeps (h.keeps hv)
  inTables hv := by
    rcases h'.inTables hv with hv | ha
    · exact h.inTables hv
    · exact .inr ((inTables_congr h.vocabulary h.tables).mp ha)

theorem domain_congr (hvocabulary : S'.vocabulary = S.vocabulary) (htables : S'.tables = S.tables) :
    S'.domain = S.domain := by
  funext sort
  rw [domain, domain, table, table, htables, hvocabulary]

theorem isFunction_congr (h : S'.vocabulary = S.vocabulary) : S'.isFunction = S.isFunction := by
  funext p
  rw [isFunction, isFunction, h]

theorem results_congr (hvocabulary : S'.vocabulary = S.vocabulary)
    (htables : S'.tables = S.tables) :
    S'.results = S.results := by
  funext f
  simp only [results, resultDomain, hvocabulary, domain_congr hvocabulary htables]

theorem elements_congr (hvocabulary : S'.vocabulary = S.vocabulary)
    (htables : S'.tables = S.tables) :
    S'.elements = S.elements := by
  funext sort
  rw [elements, elements, domain_congr hvocabulary htables]

theorem refines_setValue {p : SymbolId} {t : Tuple} {v b : Bool}
    (h : S.setValue p t v = .ok (S', b)) :
    Refines S S' ∧ S'.facts[(⟨p, t⟩ : Atom)]? = some v := by
  rw [setValue, Except.bind_eq_ok] at h
  obtain ⟨_, htables, h⟩ := h
  split at h
  · rename_i hnone
    cases h
    refine ⟨⟨rfl, rfl, fun {a w} hw => ?_, fun {a w} hw => ?_⟩, Std.ExtTreeMap.getElem?_insert_self⟩
    · rw [Std.ExtTreeMap.getElem?_insert]
      split
      · rename_i heq
        rw [← Std.LawfulEqCmp.eq_of_compare heq, hnone] at hw
        cases hw
      · exact hw
    · rw [Std.ExtTreeMap.getElem?_insert] at hw
      split at hw
      · rename_i heq
        rw [← Std.LawfulEqCmp.eq_of_compare heq]
        exact .inr htables
      · exact .inl hw
  · rename_i known hknown
    split at h
    · rename_i heq
      cases h
      exact ⟨.refl S, heq ▸ hknown⟩
    · cases h

theorem facts_setValue {p : SymbolId} {t : Tuple} {v b : Bool}
    (h : S.setValue p t v = .ok (S', b)) (a : Atom) :
    S'.facts[a]? = if a = ⟨p, t⟩ then some v else S.facts[a]? := by
  by_cases ha : a = ⟨p, t⟩
  · rw [if_pos ha, ha]
    exact (refines_setValue h).2
  · rw [if_neg ha]
    rw [setValue, Except.bind_eq_ok] at h
    obtain ⟨_, -, h⟩ := h
    split at h
    · cases h
      rw [Std.ExtTreeMap.getElem?_insert, if_neg fun heq =>
        ha (Std.LawfulEqCmp.eq_of_compare heq).symm]
    · split at h <;> cases h
      rfl

/-- What is not recorded otherwise already can be recorded. -/
theorem exists_setValue {p : SymbolId} {t : Tuple} {v : Bool} (ht : S.InTables ⟨p, t⟩)
    (h : ∀ w, S.facts[(⟨p, t⟩ : Atom)]? = some w → w = v) :
    ∃ S' b, S.setValue p t v = .ok (S', b) := by
  rw [setValue, show S.checkTuple p t = .ok () from ht, Except.ok_bind]
  cases hknown : S.facts[(⟨p, t⟩ : Atom)]? with
  | none => exact ⟨_, _, rfl⟩
  | some w => exact ⟨_, _, if_pos (h w hknown)⟩

theorem refines_setGraph {f : SymbolId} {args : Tuple} {value : Element} {values : List Element}
    (h : S.setGraph f args value values = (S', .ok ())) :
    Refines S S' ∧ ∀ c ∈ values, S'.facts[(⟨f, args ++ [c]⟩ : Atom)]? = some (c == value) := by
  induction values generalizing S with
  | nil =>
      cases h
      exact ⟨.refl _, fun c hc => absurd hc List.not_mem_nil⟩
  | cons c values ih =>
      rw [setGraph] at h
      split at h
      · rename_i S₁ _ hset
        obtain ⟨hrefines, hc⟩ := refines_setValue hset
        obtain ⟨hrest, hvalues⟩ := ih h
        exact ⟨hrefines.trans hrest, List.forall_mem_cons.mpr ⟨hrest.keeps hc, hvalues⟩⟩
      · cases h

theorem refines_setFunction {f : SymbolId} {args : Tuple} {value : Element}
    (h : S.setFunction f args value = (S', .ok ())) :
    Refines S S' ∧ ∀ c ∈ S.results f, S'.facts[(⟨f, args ++ [c]⟩ : Atom)]? = some (c == value) := by
  rw [setFunction] at h
  split at h
  · rename_i values hvalues
    have hresults : S.results f = values := by
      rw [results, hvalues]
      rfl
    rw [hresults]
    exact refines_setGraph h
  · cases h

/-! ## Recording what holds in a world -/

section Recorded

variable {W : World} {f : SymbolId} {args : Tuple} {value : Element}

theorem Keeps.setValue {p : SymbolId} {t : Tuple} {v b : Bool} (h : S.Keeps W)
    (hset : S.setValue p t v = .ok (S', b)) (hv : W.atom p t = v) : S'.Keeps W := by
  intro a w hw
  rw [facts_setValue hset] at hw
  split at hw
  · rename_i ha
    cases hw
    rwa [ha]
  · exact h hw

theorem exists_setGraph {values : List Element} (h : S.Keeps W)
    (hvalues : ∀ c ∈ values, S.InTables ⟨f, args ++ [c]⟩ ∧ W.atom f (args ++ [c]) = (c == value)) :
    ∃ S', S.setGraph f args value values = (S', .ok ()) ∧ S'.Keeps W := by
  induction values generalizing S with
  | nil => exact ⟨S, rfl, h⟩
  | cons c values ih =>
      obtain ⟨⟨hc, hatom⟩, hvalues⟩ := List.forall_mem_cons.mp hvalues
      obtain ⟨S₁, b, hset⟩ := exists_setValue hc fun w hw => (h hw).symm.trans hatom
      have hrefines := (refines_setValue hset).1
      obtain ⟨S', hgraph, hS'⟩ := ih (h.setValue hset hatom) fun c hc =>
        ⟨(inTables_congr hrefines.vocabulary hrefines.tables).mpr (hvalues c hc).1,
          (hvalues c hc).2⟩
      exact ⟨S', by rw [setGraph, hset]; exact hgraph, hS'⟩

theorem exists_setFunction {values : List Element} (h : S.Keeps W)
    (hdomain : S.resultDomain f = .ok values)
    (hvalues : ∀ c ∈ values, S.InTables ⟨f, args ++ [c]⟩ ∧ W.atom f (args ++ [c]) = (c == value)) :
    ∃ S', S.setFunction f args value = (S', .ok ()) ∧ S'.Keeps W := by
  rw [setFunction, hdomain]
  exact exists_setGraph h hvalues

end Recorded

end Structure

/-! ## Total structures -/

namespace Structure

/-- A total structure over the tables of another one in which some of the atoms are true. -/
structure Describes (S : Structure) (I : Atom → Bool) (M : Structure) : Prop where
  vocabulary : M.vocabulary = S.vocabulary
  tables : M.tables = S.tables
  total : ∀ {a}, S.InTables a → M.facts[a]? = some (I a)
  inTables : ∀ {a v}, M.facts[a]? = some v → S.InTables a

variable {S M M' : Structure} {I : Atom → Bool}

theorem Describes.unique (h : S.Describes I M) (h' : S.Describes I M') : M = M' := by
  have hfacts : M.facts = M'.facts := by
    refine Std.ExtTreeMap.ext_getElem? fun a => ?_
    by_cases ha : S.InTables a
    · rw [h.total ha, h'.total ha]
    · have hnone : ∀ {N : Structure}, S.Describes I N → N.facts[a]? = none := by
        intro N hN
        cases hv : N.facts[a]? with
        | none => rfl
        | some v => exact absurd (hN.inTables hv) ha
      rw [hnone h, hnone h']
  cases M
  cases M'
  cases h.vocabulary.trans h'.vocabulary.symm
  cases h.tables.trans h'.tables.symm
  cases hfacts
  rfl

theorem Describes.isTrue (h : S.Describes I M) (hI : ∀ {a}, I a = true → S.InTables a) :
    M.isTrue = I := by
  funext a
  rw [Structure.isTrue]
  by_cases ha : S.InTables a
  · rw [h.total ha]
    cases I a <;> rfl
  · cases hv : M.facts[a]? with
    | some v => exact absurd (h.inTables hv) ha
    | none =>
        cases hIa : I a with
        | false => rfl
        | true => exact absurd (hI hIa) ha

theorem Describes.world (h : S.Describes I M) (hI : ∀ {a}, I a = true → S.InTables a) :
    M.world = S.worldOf I := by
  rw [Structure.world, h.isTrue hI, worldOf, worldOf, elements_congr h.vocabulary h.tables,
    results_congr h.vocabulary h.tables]

/-- A total structure over the same vocabulary and tables that gives every function application one
value. -/
structure TotalOver (S M : Structure) : Prop where
  vocabulary : M.vocabulary = S.vocabulary
  tables : M.tables = S.tables
  total : ∀ a, a ∈ M.facts ↔ M.InTables a
  functional : M.Functional M.world

theorem TotalOver.describes (h : S.TotalOver M) : S.Describes M.isTrue M where
  vocabulary := h.vocabulary
  tables := h.tables
  total := by
    intro a ha
    have hmem := (h.total a).mpr ((inTables_congr h.vocabulary h.tables).mpr ha)
    rw [Std.ExtTreeMap.mem_iff_isSome_getElem?, Option.isSome_iff_exists] at hmem
    obtain ⟨v, hv⟩ := hmem
    rw [Structure.isTrue, hv]
    cases v <;> rfl
  inTables := by
    intro a v hv
    refine (inTables_congr h.vocabulary h.tables).mp ((h.total a).mp ?_)
    rw [Std.ExtTreeMap.mem_iff_isSome_getElem?, hv]
    rfl

/-- A structure that describes a world in which every function application has one value. -/
theorem Describes.totalOver (h : S.Describes I M) (hI : ∀ {a}, I a = true → S.InTables a)
    (hfunctional : S.Functional (S.worldOf I)) : S.TotalOver M where
  vocabulary := h.vocabulary
  tables := h.tables
  total a := by
    rw [Std.ExtTreeMap.mem_iff_isSome_getElem?, Option.isSome_iff_exists,
      inTables_congr h.vocabulary h.tables]
    exact ⟨fun hv => h.inTables hv.choose_spec, fun ha => ⟨_, h.total ha⟩⟩
  functional := by
    rwa [h.world hI, Functional, h.vocabulary, elements_congr h.vocabulary h.tables]

theorem TotalOver.inTables_of_isTrue (h : S.TotalOver M) {a : Atom}
    (ha : M.isTrue a = true) : S.InTables a :=
  h.describes.inTables (beq_iff_eq.mp ha)

theorem TotalOver.world (h : S.TotalOver M) : M.world = S.worldOf M.isTrue :=
  h.describes.world h.inTables_of_isTrue

theorem TotalOver.functional_worldOf (h : S.TotalOver M) : S.Functional (S.worldOf M.isTrue) := by
  have hfunctional := h.functional
  rwa [h.world, Functional, h.vocabulary, elements_congr h.vocabulary h.tables] at hfunctional

theorem IsExpansion.totalOver {sentences : List Formula}
    (h : S.IsExpansion sentences M) : S.TotalOver M :=
  ⟨h.vocabulary, h.tables, h.total, h.functional⟩

theorem IsExpansion.describes {sentences : List Formula} (h : S.IsExpansion sentences M) :
    S.Describes M.isTrue M := h.totalOver.describes

theorem IsExpansion.inTables_of_isTrue {sentences : List Formula}
    (h : S.IsExpansion sentences M) {a : Atom}
    (ha : M.isTrue a = true) : S.InTables a := h.totalOver.inTables_of_isTrue ha

/-- A total structure is an expansion exactly if its world is right. -/
theorem Describes.isExpansion_iff (h : S.Describes I M) (hI : ∀ {a}, I a = true → S.InTables a)
    (htables : ∀ a v, S.facts[a]? = some v → S.InTables a) {sentences : List Formula} :
    S.IsExpansion sentences M ↔ S.Functional (S.worldOf I) ∧ S.Keeps (S.worldOf I) ∧
      ∀ f ∈ sentences, (S.worldOf I).truth [] f = true := by
  have hworld := h.world hI
  have hfunctional : M.Functional M.world ↔ S.Functional (S.worldOf I) := by
    rw [hworld, Functional, Functional, h.vocabulary, elements_congr h.vocabulary h.tables]
  constructor
  · intro hM
    refine ⟨hfunctional.mp hM.functional, fun {a v} hv => ?_, hworld ▸ hM.holds⟩
    have hkept := hM.keeps hv
    rw [h.total (htables a v hv)] at hkept
    exact Option.some.inj hkept
  · rintro ⟨hf, hkeeps, hholds⟩
    have htotal := h.totalOver hI hf
    refine ⟨htotal.vocabulary, htotal.tables, htotal.total, fun {a v} hv => ?_, htotal.functional,
      hworld ▸ hholds⟩
    rw [h.total (htables a v hv)]
    exact congrArg some (hkeeps hv)

end Structure

end ModelExpansion
