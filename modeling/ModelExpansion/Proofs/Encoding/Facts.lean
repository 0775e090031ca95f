import ModelExpansion.Proofs.Encoding.Start
import ModelExpansion.Proofs.Encoding.Terms

/-! # Facts as sentences
The ground formulas for what a structure records are true in the worlds that keep it, and these
formulas together with the graphs of functions settle every atom that the structure is certain
of. -/

namespace ModelExpansion

open ModelExpansion.Sat

theorem Comparator.holds_eq_iff {x y : Element} : Comparator.eq.holds x y = true ↔ x = y := by
  rw [holds, beq_iff_eq]
  constructor
  · exact Std.LawfulEqCmp.eq_of_compare
  · rintro rfl
    exact Std.ReflCmp.compare_self

namespace World

variable {W : World}

theorem values_elements (b : Binding) (t : Tuple) :
    W.values b (t.map Term.element) = t.map some := by
  rw [values_eq_map, List.map_map]
  exact List.map_congr_left fun _ _ => by rw [Function.comp_apply, value]

theorem mapM_id_map_some (t : Tuple) : (t.map some).mapM id = some t := by
  induction t with
  | nil => rfl
  | cons v t ih => exact mapM_id_cons_eq_some.mpr ⟨v, t, rfl, ih, rfl⟩

theorem truth_atom_elements (b : Binding) (sign : Bool) (p : SymbolId) (t : Tuple) :
    W.truth b (.atom sign p (t.map Term.element)) = (W.atom p t == sign) := by
  rw [truth, values_elements, holdsAt, mapM_id_map_some]

theorem truth_equation (h : W.SingleValued) (b : Binding) (sign : Bool) {f : SymbolId} {t : Tuple}
    {v : Element} (hv : W.atom f (t ++ [v]) = true → v ∈ W.results f) :
    W.truth b (.comparison sign [.apply f (t.map Term.element), .element v] [.eq]) =
      (W.atom f (t ++ [v]) == sign) := by
  have hlink : link .eq (W.image f t) (some v) = W.atom f (t ++ [v]) := by
    rw [Bool.eq_iff_iff, Encoding.link_eq_true_iff]
    constructor
    · rintro ⟨x, y, hx, hy, hxy⟩
      cases hy
      rw [Comparator.holds_eq_iff] at hxy
      subst hxy
      exact ((Encoding.image_eq_some_iff h).mp hx).2
    · intro hatom
      exact ⟨v, v, (Encoding.image_eq_some_iff h).mpr ⟨hv hatom, hatom⟩, rfl,
        Comparator.holds_eq_iff.mpr rfl⟩
  have happ : W.value b (.apply f (t.map Term.element)) = W.image f t := by
    rw [value, values_elements, mapM_id_map_some]
    rfl
  have hvalues : W.values b [.apply f (t.map Term.element), .element v] =
      [W.image f t, some v] := by
    rw [values_eq_map, List.map_cons, List.map_cons, happ, value]
    rfl
  rw [truth, hvalues, links, hlink, links, Bool.and_true]
  simp

end World

section Facts

variable {S : Structure} {atoms : List Atom} {I : Atom → Bool}

theorem truth_atomFormula (h : Encoder.atomsOf S = .ok atoms)
    (hs : (S.worldOf I).SingleValued) {a : Atom}
    (ha : I a = true → S.InTables a) {f : Formula} (hf : atomFormula S.vocabulary a = .ok f)
    (sign : Bool) :
    (S.worldOf I).truth [] (f.withSign sign) = (I a == sign) := by
  rw [atomFormula, Except.bind_eq_ok] at hf
  obtain ⟨s, hsymbol, hf⟩ := hf
  have hpred :
      (S.worldOf I).truth [] ((Formula.pred a.symbol (a.tuple.map .element)).withSign sign) =
      (I a == sign) := World.truth_atom_elements [] sign a.symbol a.tuple
  cases hfunction : s.isFunction with
  | false =>
      rw [hfunction] at hf
      cases hf
      exact hpred
  | true =>
      rw [hfunction] at hf
      cases hlast : a.tuple.getLast? with
      | none =>
          rw [hlast] at hf
          cases hf
          exact hpred
      | some v =>
          rw [hlast] at hf
          cases hf
          obtain ⟨result, hresult⟩ := Option.isSome_iff_exists.mp hfunction
          have hsymbol := Vocabulary.symbol_eq_ok_iff.mp hsymbol
          have htuple := List.dropLast_append_getLast? v hlast
          have hv : I ⟨a.symbol, a.tuple.dropLast ++ [v]⟩ = true → v ∈ S.results a.symbol := by
            intro hatom
            have hgraph : S.InTables ⟨a.symbol, a.tuple.dropLast ++ [v]⟩ := by
              rw [htuple] at hatom ⊢
              exact ha hatom
            rw [Structure.results_eq_elements hsymbol hresult]
            exact ((Encoder.inTables_append_iff h hsymbol hresult).mp hgraph).2
          refine (World.truth_equation hs [] sign (f := a.symbol)
            (t := a.tuple.dropLast) hv).trans ?_
          rw [htuple]
          rfl

/-- The worlds in which the formulas for the facts are true are those that keep the facts, if no
recorded atom is true in them outside the tables. -/
theorem keeps_iff (h : Encoder.atomsOf S = .ok atoms) (hs : (S.worldOf I).SingleValued)
    (htables : ∀ a v, S.facts[a]? = some v → I a = true → S.InTables a) {fs : List Formula}
    (hfs : factFormulas S = .ok fs) :
    (∀ f ∈ fs, (S.worldOf I).truth [] f = true) ↔ S.Keeps (S.worldOf I) := by
  have hforall := forall₂_of_mapM_eq_ok hfs
  have hmem : ∀ {a v}, (a, v) ∈ S.certainFacts ↔ S.facts[a]? = some v := fun {a v} =>
    Std.ExtTreeMap.mem_toList_iff_getElem?_eq_some
  have htruth : ∀ {fact f}, fact ∈ S.certainFacts →
      (do return (← atomFormula S.vocabulary fact.1).withSign fact.2) = Except.ok f →
      ((S.worldOf I).truth [] f = true ↔ I fact.1 = fact.2) := by
    intro fact f hfact hf
    rw [Except.bind_eq_ok] at hf
    obtain ⟨g, hg, hf⟩ := hf
    cases hf
    rw [truth_atomFormula h hs (htables _ _ (hmem.mp hfact)) hg, beq_iff_eq]
  constructor
  · intro hall a v hav
    obtain ⟨f, hf, hok⟩ := exists_right_of_forall₂ hforall (hmem.mpr hav)
    exact (htruth (hmem.mpr hav) hok).mp (hall f hf)
  · intro hkeeps f hf
    obtain ⟨⟨a, v⟩, hfact, hok⟩ := exists_left_of_forall₂ hforall hf
    exact (htruth hfact hok).mpr (hkeeps (hmem.mp hfact))

/-! ## Certain atoms -/

theorem stored_eq_yes {p : SymbolId} {t : Tuple} :
    S.stored p t = .yes ↔ S.facts[(⟨p, t⟩ : Atom)]? = some true := by
  rw [Structure.stored]
  cases S.facts[(⟨p, t⟩ : Atom)]? with
  | none => simp [Truth.ofOption]
  | some v => cases v <;> simp [Truth.ofOption, Truth.ofBool]

theorem stored_eq_no {p : SymbolId} {t : Tuple} :
    S.stored p t = .no ↔ S.facts[(⟨p, t⟩ : Atom)]? = some false := by
  rw [Structure.stored]
  cases S.facts[(⟨p, t⟩ : Atom)]? with
  | none => simp [Truth.ofOption]
  | some v => cases v <;> simp [Truth.ofOption, Truth.ofBool]

/-- The only value that is not excluded is the value, and so is one that is certain. -/
theorem atom_determined {values : List Element} {truth : Element → Truth} (holds : Element → Bool)
    (hyes : ∀ {v}, truth v = .yes → holds v = true) (hno : ∀ {v}, truth v = .no → holds v = false)
    (hex : ∃ v ∈ values, holds v = true) {v : Element} (h : determined? values truth = some v) :
    v ∈ values ∧ holds v = true := by
  rw [determined?] at h
  cases hfind : values.find? fun v => truth v == .yes with
  | some v' =>
      rw [hfind] at h
      cases h
      exact ⟨List.mem_of_find?_eq_some hfind,
        hyes (beq_iff_eq.mp (by simpa using List.find?_some hfind))⟩
  | none =>
      rw [hfind] at h
      dsimp only at h
      obtain ⟨v', hv', hholds⟩ := hex
      have hunknown : v' ∈ values.filter fun v => truth v == .unknown := by
        rw [List.mem_filter, beq_iff_eq]
        refine ⟨hv', ?_⟩
        have hnotYes := List.find?_eq_none.mp hfind v' hv'
        cases htruth : truth v' with
        | yes => simp [htruth] at hnotYes
        | no =>
            rw [hno htruth] at hholds
            cases hholds
        | unknown => rfl
      split at h
      · rename_i _ _ hfilter
        cases h
        rw [hfilter, List.mem_singleton] at hunknown
        subst hunknown
        exact ⟨hv', hholds⟩
      · cases h

theorem yes_of_stored (h : S.Keeps (S.worldOf I)) {p : SymbolId} {t : Tuple}
    (hv : S.stored p t = .yes) :
    I ⟨p, t⟩ = true := h (stored_eq_yes.mp hv)

theorem no_of_stored (h : S.Keeps (S.worldOf I)) {p : SymbolId} {t : Tuple}
    (hv : S.stored p t = .no) :
    I ⟨p, t⟩ = false := h (stored_eq_no.mp hv)

theorem atom_eq_of_graphValue (h : Encoder.atomsOf S = .ok atoms) (hkeeps : S.Keeps (S.worldOf I))
    (hf : S.Functional (S.worldOf I)) {f : SymbolId} {t : Tuple} (ht : S.InTables ⟨f, t⟩) {b : Bool}
    (hb : S.graphValue f t = .ofBool b) : I ⟨f, t⟩ = b := by
  have hunknown : Truth.unknown ≠ .ofBool b := by cases b <;> simp [Truth.ofBool]
  rw [Structure.graphValue] at hb
  split at hb
  · exact absurd hb hunknown
  rename_i value hlast
  split at hb
  · rename_i known hvalue
    rw [Structure.functionValue, Except.bind_eq_ok] at hvalue
    obtain ⟨values, hvalues, hdetermined⟩ := hvalue
    rw [Except.pure_eq_ok] at hdetermined
    obtain ⟨s, result, hs, hresult, hsort⟩ := Structure.exists_result_of_resultDomain hvalues
    have htuple := List.dropLast_append_getLast? value hlast
    rw [← htuple] at ht ⊢
    obtain ⟨hargs, hmem⟩ := (Encoder.inTables_append_iff h hs hresult).mp ht
    have hunique := hf f s result hs hresult t.dropLast hargs
    have hknown := atom_determined (fun v => I ⟨f, t.dropLast ++ [v]⟩)
      (fun hv => yes_of_stored hkeeps hv) (fun hv => no_of_stored hkeeps hv)
      (hsort ▸ hunique.exists) hdetermined
    rw [hsort] at hknown
    cases hatom : I ⟨f, t.dropLast ++ [value]⟩ with
    | true =>
        rw [hunique.unique hknown ⟨hmem, hatom⟩, beq_self_eq_true] at hb
        cases b with
        | false => cases hb
        | true => rfl
    | false =>
        have hne : known ≠ value := by
          rintro rfl
          rw [hknown.2] at hatom
          cases hatom
        rw [beq_false_of_ne hne] at hb
        cases b with
        | false => rfl
        | true => cases hb
  · exact absurd hb hunknown

/-- An atom that the structure is certain of has the same truth in all worlds that keep the
structure. -/
theorem atom_eq_of_value (h : Encoder.atomsOf S = .ok atoms) (hkeeps : S.Keeps (S.worldOf I))
    (hf : S.Functional (S.worldOf I)) {a : Atom} (ha : S.InTables a) {b : Bool}
    (hb : S.value a.symbol a.tuple = .ofBool b) : I a = b := by
  rw [Structure.value] at hb
  cases hstored : S.stored a.symbol a.tuple with
  | yes =>
      rw [hstored] at hb
      cases b with
      | false => cases hb
      | true => exact yes_of_stored hkeeps hstored
  | no =>
      rw [hstored] at hb
      cases b with
      | false => exact no_of_stored hkeeps hstored
      | true => cases hb
  | unknown =>
      rw [hstored] at hb
      dsimp only at hb
      split at hb
      · exact atom_eq_of_graphValue h hkeeps hf ha hb
      · cases b <;> cases hb

end Facts

end ModelExpansion
