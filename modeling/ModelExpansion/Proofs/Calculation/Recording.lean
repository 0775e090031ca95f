import ModelExpansion.Proofs.Calculation.Reading
import ModelExpansion.Proofs.Structures

/-! # Recording solutions
The solution of a definition whose heads are predicates is recorded in predicates only. What was
two-valued before reads the same afterwards, and the result stays below every structure that records
the solution already. -/

namespace ModelExpansion

namespace Structure

variable {S S' S'' : Structure} {p : SymbolId} {t : Tuple}

/-! ## Structures that record more of the predicates -/

theorem graphDomains_congr (hvocabulary : S'.vocabulary = S.vocabulary)
    (hdomain : S'.domain = S.domain) :
    S'.graphDomains = S.graphDomains := by
  funext p
  simp only [graphDomains, domains, hvocabulary, hdomain]

theorem Refines.antisymm (h : S.Refines S') (h' : S'.Refines S) : S = S' := by
  have hfacts : S.facts = S'.facts :=
    Std.ExtTreeMap.ext_getElem? fun a => Option.ext fun v => ⟨h.keeps, h'.keeps⟩
  cases S
  cases S'
  cases h.vocabulary
  cases h.tables
  cases hfacts
  rfl

/-- More atoms of predicates are recorded, and functions are left alone. -/
structure Extends (S S' : Structure) : Prop extends S.Refines S' where
  functions : ∀ a : Atom, S.isFunction a.symbol = true → S'.facts[a]? = S.facts[a]?

namespace Extends

theorem refl (S : Structure) : S.Extends S := ⟨.refl S, fun _ _ => rfl⟩

theorem domain (h : S.Extends S') : S'.domain = S.domain := domain_congr h.vocabulary h.tables

theorem isFunction (h : S.Extends S') : S'.isFunction = S.isFunction :=
  isFunction_congr h.vocabulary

theorem graphDomains (h : S.Extends S') : S'.graphDomains = S.graphDomains :=
  graphDomains_congr h.vocabulary h.domain

theorem trans (h : S.Extends S') (h' : S'.Extends S'') : S.Extends S'' where
  toRefines := h.toRefines.trans h'.toRefines
  functions a ha := (h'.functions a (by rwa [h.isFunction])).trans (h.functions a ha)

/-- Of two structures that extend a third, one extends the other if that records what it does. -/
theorem of_keeps (h : S.Extends S') (h' : S.Extends S'')
    (hkeeps : ∀ (a : Atom) v, S'.facts[a]? = some v → S''.facts[a]? = some v) : S'.Extends S'' where
  vocabulary := h'.vocabulary.trans h.vocabulary.symm
  tables := h'.tables.trans h.tables.symm
  keeps hv := hkeeps _ _ hv
  inTables hv := by
    rcases h'.inTables hv with hv | ha
    · exact .inl (h.keeps hv)
    · exact .inr ((inTables_congr h.vocabulary h.tables).mpr ha)
  functions a ha := by
    rw [h.isFunction] at ha
    rw [h'.functions a ha, h.functions a ha]

/-- Function values stay. -/
theorem functionValue (h : S.Extends S') : S'.functionValue = S.functionValue := by
  funext f args
  rw [Structure.functionValue, Structure.functionValue, resultDomain, resultDomain,
    h.vocabulary, h.domain]
  refine Except.bind_congr_ok fun values hvalues => ?_
  rw [Except.bind_eq_ok] at hvalues
  obtain ⟨result, hresult, -⟩ := hvalues
  have hfunction := isFunction_of_resultSort hresult
  have hstored : ∀ v, S'.stored f (args ++ [v]) = S.stored f (args ++ [v]) := by
    intro v
    rw [stored, stored, h.functions _ hfunction]
  simp only [hstored]

theorem facts_of_isTwoValued (h : S.Extends S') (hp : S.isTwoValued p = .ok true) (t : Tuple) :
    S'.facts[(⟨p, t⟩ : Atom)]? = S.facts[(⟨p, t⟩ : Atom)]? := by
  cases hfunction : S.isFunction p with
  | true => exact h.functions ⟨p, t⟩ hfunction
  | false =>
      obtain ⟨-, hknown⟩ := (isTwoValued_eq_ok_true_iff hfunction).mp hp
      refine Option.ext fun v => ⟨fun hv => ?_, h.keeps⟩
      rcases h.inTables hv with hv | ht
      · exact hv
      · obtain ⟨b, hb⟩ := hknown t ht
        cases (h.keeps hb).symm.trans hv
        exact hb

theorem isTwoValued (h : S.Extends S') (hp : S.isTwoValued p = .ok true) :
    S'.isTwoValued p = .ok true := by
  cases hfunction : S.isFunction p with
  | true =>
      rw [Structure.isTwoValued, Except.bind_eq_ok] at hp ⊢
      obtain ⟨s, hs, hp⟩ := hp
      rw [isFunction_of_symbol (Vocabulary.symbol_eq_ok_iff.mp hs)] at hfunction
      refine ⟨s, by rwa [h.vocabulary], ?_⟩
      rw [if_pos hfunction] at hp ⊢
      rwa [h.functionValue, domains, h.domain]
  | false =>
      obtain ⟨hdomains, hknown⟩ := (isTwoValued_eq_ok_true_iff hfunction).mp hp
      refine (isTwoValued_eq_ok_true_iff (by rwa [h.isFunction])).mpr
        ⟨by rwa [h.graphDomains], fun t ht => ?_⟩
      obtain ⟨b, hb⟩ := hknown t ((inTables_congr h.vocabulary h.tables).mp ht)
      exact ⟨b, h.keeps hb⟩

theorem sameAt (h : S.Extends S') (hp : S.isTwoValued p = .ok true) :
    S'.valuation.SameAt S.valuation p where
  atomAt positive t := by
    change S'.value p t = S.value p t
    rw [value, value, stored, stored, h.facts_of_isTwoValued hp, h.isFunction, graphValue.eq_def,
      graphValue.eq_def, h.functionValue]
  function t := congrFun (congrFun h.functionValue p) t

end Extends

/-! ## Recording one atom -/

theorem extends_setValue {v b : Bool} (hp : S.isFunction p = false)
    (h : S.setValue p t v = .ok (S', b)) :
    S.Extends S' where
  toRefines := (refines_setValue h).1
  functions a ha := by
    rw [facts_setValue h, if_neg]
    rintro rfl
    exact Bool.false_ne_true (hp.symm.trans ha)

/-! ## Recording a set of atoms -/

/-- Each atom of the given symbols is recorded as what it is in a set of atoms. -/
def Reflects (S : Structure) (atoms : AtomSet) (symbols : List SymbolId) : Prop :=
  ∀ p ∈ symbols, ∀ t, S.InTables ⟨p, t⟩ → S.facts[(⟨p, t⟩ : Atom)]? = some (atoms.contains ⟨p, t⟩)

theorem Reflects.mono {atoms : AtomSet} {symbols : List SymbolId} (h : S.Reflects atoms symbols)
    (hS : S.Refines S') : S'.Reflects atoms symbols := fun p hp t ht =>
  hS.keeps (h p hp t ((inTables_congr hS.vocabulary hS.tables).mp ht))

theorem mem_tuples_iff {ts : List Tuple} (h : S.tuples p = .ok ts) :
    t ∈ ts ↔ S.InTables ⟨p, t⟩ := by
  rw [tuples, Except.bind_eq_ok] at h
  obtain ⟨domains, hdomains, h⟩ := h
  cases h
  exact (inTables_iff_mem_product hdomains).symm

end Structure

open Structure

variable {S S' S₁ : Structure} {atoms : AtomSet} {p : SymbolId}

/-! Recording only adds to what is recorded, also where it stops. -/

theorem refines_recordTuples {ts : List Tuple} {stopped : Option Atom}
    (h : recordTuples S p atoms ts = (S', .ok stopped)) : S.Refines S' := by
  induction ts generalizing S with
  | nil =>
      cases h
      exact .refl _
  | cons t ts ih =>
      rw [recordTuples] at h
      split at h
      · rename_i S₁ _ hset
        exact (refines_setValue hset).1.trans (ih h)
      · cases h
        exact .refl _
      · cases h

theorem refines_recordAtoms {ps : List SymbolId} {stopped : Option Atom}
    (h : recordAtoms S atoms ps = (S', .ok stopped)) : S.Refines S' := by
  induction ps generalizing S with
  | nil =>
      cases h
      exact .refl _
  | cons p ps ih =>
      rw [recordAtoms] at h
      split at h
      · cases h
      · split at h
        · rename_i S₁ hrecord
          exact (refines_recordTuples hrecord).trans (ih h)
        · exact refines_recordTuples h

/-- Recording that does not stop records each tuple, and nothing of other symbols. -/
theorem recorded_recordTuples {ts : List Tuple} (h : recordTuples S p atoms ts = (S', .ok none)) :
    (∀ t ∈ ts, S'.facts[(⟨p, t⟩ : Atom)]? = some (atoms.contains ⟨p, t⟩)) ∧
      ∀ a : Atom, a.symbol ≠ p → S'.facts[a]? = S.facts[a]? := by
  induction ts generalizing S with
  | nil =>
      cases h
      exact ⟨fun t ht => absurd ht List.not_mem_nil, fun _ _ => rfl⟩
  | cons t ts ih =>
      rw [recordTuples] at h
      split at h
      · rename_i S₂ _ hset
        obtain ⟨hts, hothers⟩ := ih h
        have hrest := refines_recordTuples h
        refine ⟨List.forall_mem_cons.mpr ⟨hrest.keeps (refines_setValue hset).2, hts⟩,
          fun a ha => ?_⟩
        rw [hothers a ha, facts_setValue hset, if_neg (fun heq => ha (by rw [heq]))]
      · cases h
      · cases h

theorem recorded_recordAtoms {ps : List SymbolId} (h : recordAtoms S atoms ps = (S', .ok none)) :
    S'.Reflects atoms ps ∧ ∀ a : Atom, a.symbol ∉ ps → S'.facts[a]? = S.facts[a]? := by
  induction ps generalizing S with
  | nil =>
      cases h
      exact ⟨fun p hp => absurd hp List.not_mem_nil, fun _ _ => rfl⟩
  | cons p ps ih =>
      have hrefines := refines_recordAtoms h
      rw [recordAtoms] at h
      split at h
      · cases h
      · rename_i tuples htuples
        split at h
        · rename_i S₂ hrecord
          obtain ⟨hrecorded, hothers⟩ := recorded_recordTuples hrecord
          obtain ⟨hreflects, hrest⟩ := ih h
          refine ⟨List.forall_mem_cons.mpr
            ⟨fun t ht => (refines_recordAtoms h).keeps (hrecorded t ?_), hreflects⟩,
            fun a ha => ?_⟩
          · exact (mem_tuples_iff htuples).mpr
              ((inTables_congr hrefines.vocabulary hrefines.tables).mp ht)
          · rw [hrest a (List.not_mem_of_not_mem_cons ha), hothers a (List.ne_of_not_mem_cons ha)]
        · rename_i hstopped
          exact absurd h (hstopped S')

/-! Recording predicates leaves functions alone. -/

theorem extends_recordTuples {ts : List Tuple} (hp : S.isFunction p = false)
    (h : recordTuples S p atoms ts = (S', .ok none)) : S.Extends S' where
  toRefines := refines_recordTuples h
  functions a ha := (recorded_recordTuples h).2 a fun heq =>
    Bool.false_ne_true (hp.symm.trans (heq ▸ ha))

theorem extends_recordAtoms {ps : List SymbolId} (hps : ∀ p ∈ ps, S.isFunction p = false)
    (h : recordAtoms S atoms ps = (S', .ok none)) : S.Extends S' where
  toRefines := refines_recordAtoms h
  functions a ha := (recorded_recordAtoms h).2 a fun hmem =>
    Bool.false_ne_true ((hps a.symbol hmem).symm.trans ha)

/-- Recording stays below a structure that records the same already. -/
theorem exists_recordTuples {ts : List Tuple} (hS : S.Extends S₁) (hp : S.isFunction p = false)
    (hts : ∀ t ∈ ts, S.InTables ⟨p, t⟩)
    (hrecorded : ∀ t ∈ ts, S₁.facts[(⟨p, t⟩ : Atom)]? = some (atoms.contains ⟨p, t⟩)) :
    ∃ S', recordTuples S p atoms ts = (S', .ok none) ∧ S'.Extends S₁ := by
  induction ts generalizing S with
  | nil => exact ⟨S, rfl, hS⟩
  | cons t ts ih =>
      obtain ⟨ht, hts⟩ := List.forall_mem_cons.mp hts
      obtain ⟨hrecord, hrecorded⟩ := List.forall_mem_cons.mp hrecorded
      obtain ⟨S₂, b, hset⟩ := exists_setValue ht fun w hw =>
        Option.some.inj ((hS.keeps hw).symm.trans hrecord)
      have hS₂ := extends_setValue hp hset
      have hbelow : S₂.Extends S₁ := by
        refine hS₂.of_keeps hS fun a v hv => ?_
        rw [facts_setValue hset] at hv
        split at hv
        · rename_i ha
          rwa [ha, hrecord]
        · exact hS.keeps hv
      obtain ⟨S', hrest, hS'⟩ := ih hbelow (by rwa [hS₂.isFunction])
        (fun t ht => (inTables_congr hS₂.vocabulary hS₂.tables).mpr (hts t ht)) hrecorded
      exact ⟨S', by rw [recordTuples, hset]; exact hrest, hS'⟩

theorem exists_recordAtoms {ps : List SymbolId} (hS : S.Extends S₁)
    (hps : ∀ p ∈ ps, S.isFunction p = false)
    (hdomains : ∀ p ∈ ps, ∃ domains, S.graphDomains p = .ok domains)
    (hreflects : S₁.Reflects atoms ps) :
    ∃ S', recordAtoms S atoms ps = (S', .ok none) ∧ S'.Extends S₁ := by
  induction ps generalizing S with
  | nil => exact ⟨S, rfl, hS⟩
  | cons p ps ih =>
      obtain ⟨hp, hps⟩ := List.forall_mem_cons.mp hps
      obtain ⟨⟨domains, hp'⟩, hdomains⟩ := List.forall_mem_cons.mp hdomains
      obtain ⟨hrecord, hreflects⟩ := List.forall_mem_cons.mp hreflects
      have htuples : S.tuples p = .ok (product domains) := by
        rw [tuples, hp']
        rfl
      have hin : ∀ t ∈ product domains, S.InTables ⟨p, t⟩ :=
        fun t ht => (mem_tuples_iff htuples).mp ht
      obtain ⟨S₂, hfirst, hS₂⟩ := exists_recordTuples hS hp hin fun t ht =>
        hrecord t ((inTables_congr hS.vocabulary hS.tables).mpr (hin t ht))
      have hextends := extends_recordTuples hp hfirst
      obtain ⟨S', hrest, hS'⟩ :=
        ih hS₂ (by rwa [hextends.isFunction]) (by rwa [hextends.graphDomains]) hreflects
      exact ⟨S', by simp only [recordAtoms, htuples, hfirst, hrest], hS'⟩

/-! ## Definitions that can be calculated -/

theorem isCalculable_eq_ok_true_iff {rules : List Rule} : isCalculable S rules = .ok true ↔
    (∀ p ∈ openSymbols rules, S.isTwoValued p = .ok true) ∧
      ∀ p ∈ headSymbols rules, ∃ domains, S.graphDomains p = .ok domains := by
  have hopen : ∀ p,
      (return (← unlessInfinite (S.isTwoValued p)) == some true : Except Failure Bool) =
        .ok true ↔ S.isTwoValued p = .ok true := by
    intro p
    simp only [Except.bind_eq_ok, Except.pure_eq_ok, beq_iff_eq, exists_eq_right,
      unlessInfinite_eq_some]
  have hhead :
      ∀ p, (return (← unlessInfinite (S.graphDomains p)).isSome : Except Failure Bool) = .ok true ↔
      ∃ domains, S.graphDomains p = .ok domains := by
    intro p
    simp only [Except.bind_eq_ok, Except.pure_eq_ok, Option.isSome_iff_exists]
    constructor
    · rintro ⟨_, h, domains, rfl⟩
      exact ⟨domains, unlessInfinite_eq_some.mp h⟩
    · rintro ⟨domains, h⟩
      exact ⟨_, unlessInfinite_eq_some.mpr h, domains, rfl⟩
  simp only [← hopen, ← hhead, ← Std.ExtTreeSet.mem_toList (t := openSymbols rules),
    ← allM_eq_ok_true_iff]
  rw [isCalculable, Except.bind_eq_ok]
  constructor
  · rintro ⟨isOpenReady, hready, h⟩
    cases isOpenReady with
    | true => exact ⟨hready, h⟩
    | false => cases h
  · rintro ⟨hready, h⟩
    exact ⟨true, hready, h⟩

/-- What can be calculated still can be after more was recorded. -/
theorem isCalculable_mono {rules : List Rule} (hS : S.Extends S')
    (h : isCalculable S rules = .ok true) :
    isCalculable S' rules = .ok true := by
  obtain ⟨hopen, hhead⟩ := isCalculable_eq_ok_true_iff.mp h
  refine isCalculable_eq_ok_true_iff.mpr ⟨fun p hp => hS.isTwoValued (hopen p hp), ?_⟩
  rwa [hS.graphDomains]

end ModelExpansion
