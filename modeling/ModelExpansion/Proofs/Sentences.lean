import ModelExpansion.Proofs.Calculation.Runs
import ModelExpansion.Proofs.Completion
import ModelExpansion.Proofs.Encoding.Evaluation

/-! # Sentences in the models
Every sentence of the theory can be grounded in every model that an expansion returns, also in one
of an expansion that is cut short or that calculates definitions first. Where the arguments of its
atoms and applications stay in the tables, evaluation finds it true. Outside the tables the encoder
and evaluation differ: for the encoder a function has no value there, whereas evaluation takes the
only element of a table of results for the value. -/

namespace ModelExpansion

open ModelExpansion.Sat ModelExpansion.Encoder

variable {o : Options} {S S' M : Structure} {T : Theory}

/-! ## Calculation of definitions -/

/-- Definitions that are calculated first leave all that was recorded. -/
theorem refines_of_refine {c : Calculated} (h : refine o T S = .ok (some (S', c))) :
    S.Refines S' := by
  rw [refine] at h
  split at h
  · split at h
    · cases h
    · cases h
    · rename_i S₁ c₁ hcalculate
      cases h
      cases Theory.calculate_ends hcalculate with
      | idle hrun _ =>
          exact hrun.invariant (I := fun S₁ _ => S.Refines S₁) (.refl S) fun hS _ _ hK =>
            hS.trans (Task.refines_calculate hK)
  · cases h
    exact .refl S

/-! ## Grounding -/

theorem exists_mem_groundFormulas {b : Binding} {fs gs : List Formula}
    (h : groundFormulas S b fs = .ok gs)
    {f : Formula} (hf : f ∈ fs) : ∃ g ∈ gs, groundFormula S b f = .ok g := by
  induction fs generalizing gs with
  | nil => cases hf
  | cons f' fs ih =>
      rw [groundFormulas, Except.bind_eq_ok] at h
      obtain ⟨g, hg, h⟩ := h
      rw [Except.bind_eq_ok] at h
      obtain ⟨gs', hgs, h⟩ := h
      cases h
      rcases List.mem_cons.mp hf with rfl | hf
      · exact ⟨g, List.mem_cons_self, hg⟩
      · obtain ⟨g', hg', hground⟩ := ih hgs hf
        exact ⟨g', List.mem_cons_of_mem g hg', hground⟩

/-- What is prepared has a ground version of each sentence, over a structure that has lost
nothing. -/
theorem exists_ground_of_prepare {P : Prepared} (h : prepare o T S = .ok (some P)) :
    S.Refines P.base ∧ ∀ f ∈ T.sentences, ∃ g ∈ P.theory.sentences,
      groundFormula P.base [] f = .ok g := by
  obtain ⟨c, breaking, G, hrefine, hG, htheory⟩ := prepare_eq_some h
  obtain ⟨-, -, ground, facts, hground, -, hsentences⟩ := groundTheory_eq_ok hG
  refine ⟨refines_of_refine hrefine, fun f hf => ?_⟩
  obtain ⟨g, hg, hf⟩ := exists_mem_groundFormulas hground hf
  refine ⟨g, ?_, hf⟩
  rw [htheory]
  exact List.mem_append_left _ (hsentences ▸ List.mem_append_left _ hg)

/-! ## Evaluation -/

/-- In a model that a theory leaves, its well-sorted sentences are found true. -/
theorem evalFormula_of_models {e e' : Encoder} (hstart : Starts S e)
    (htables : ∀ a v, S.facts[a]? = some v → S.InTables a) (hrun : addTheory T e = (.ok (), e'))
    (hM : e'.Models M) {f : Formula} (hf : f ∈ T.sentences) (hsorted : f.wellSorted M = true) :
    evalFormula M.valuation true f = .ok .yes := by
  have hdecodable := hstart.decodable htables
  have hfulfils := fulfils_of_models hstart htables hrun hM
  have hvocabulary : e.base.vocabulary = M.vocabulary := by rw [hstart.base, hfulfils.vocabulary]
  obtain ⟨α, hα, hdescribes⟩ := hM
  have hworld : M.world = e'.world α :=
    hdescribes.world fun ha => (leaves_addTheory hdecodable hrun).decodable.numbers.inTables ha
  have htotal : M.TotalOver M := ⟨rfl, rfl, hfulfils.total, hfulfils.functional⟩
  have hevaluates := ensures_addTheory hdecodable hvocabulary hrun hf hsorted α hα
  rw [← hworld] at hevaluates
  obtain ⟨x, hx⟩ := hevaluates M.valuation htotal.decides true
  rw [hx, evalFormula_decided htotal.decides f hsorted hx, hfulfils.sentences f hf]
  rfl

variable {halt : Stats → Bool} {monitor monitor' : Monitor} {E : Expansion}

/-- In every model that is returned, also by a search that is cut short, every sentence has a ground
version, and if it is well-sorted, evaluation finds it true. -/
theorem evalFormula_of_expand (hrun : expand halt o T S monitor = (monitor', .ok E))
    (htables : ∀ a v, S.facts[a]? = some v → S.InTables a) (hM : M ∈ E.models) {f : Formula}
    (hf : f ∈ T.sentences) :
    ∃ g, groundFormula M [] f = .ok g ∧
      (g.wellSorted M = true → evalFormula M.valuation true g = .ok .yes) := by
  rcases expand_eq_ok hrun with ⟨-, -, rfl⟩ | ⟨P, hprepare, ⟨-, -, rfl⟩ | hsearch⟩
  · exact absurd hM List.not_mem_nil
  · exact absurd hM List.not_mem_nil
  obtain ⟨hrefines, hground⟩ := exists_ground_of_prepare hprepare
  have htables' : ∀ a v, P.base.facts[a]? = some v → P.base.InTables a := fun a v hv =>
    (Structure.inTables_congr hrefines.vocabulary hrefines.tables).mpr
      ((hrefines.inTables hv).elim (htables a v) id)
  obtain ⟨g, hg, hgf⟩ := hground f hf
  obtain ⟨e, e', hstarts, hadd, hmodels⟩ := models_of_search hsearch htables' hM
  have hfulfils := fulfils_of_models hstarts htables' hadd hmodels
  refine ⟨g, ?_, evalFormula_of_models hstarts htables' hadd hmodels hg⟩
  rw [groundFormula_congr (Structure.domain_congr hfulfils.vocabulary hfulfils.tables), hgf]

/-- Of the two places one is a room, and there is one colour to paint rooms in. -/
def gallery : Structure where
  vocabulary :=
    ⟨[⟨"place", []⟩, ⟨"room", [0]⟩, ⟨"colour", []⟩], [⟨"open", [0], none⟩, ⟨"paint", [1], some 2⟩]⟩
  tables := [.ofList [.name "hall", .name "yard"], .ofList [.name "hall"], .ofList [.name "red"]]
  facts := ∅

/-- Every place that is painted red is open. -/
def inviting : Formula :=
  .forAll [⟨0, "x", 0⟩]
    (.implies (.compare (.apply 1 [.var ⟨0, "x", 0⟩]) .eq (.element (.name "red")))
    (.pred 0 [.var ⟨0, "x", 0⟩]))

/-- The yard is no room: no model paints it, and some leave it closed. In these evaluation takes it
to be red, since there is no other colour, and finds the sentence false. -/
theorem evalFormula_outside_tables : ∃ monitor E M g,
    expand (fun _ => false) { models := 0 } ⟨[], [], [inviting]⟩ gallery {} = (monitor, .ok E) ∧
    M ∈ E.models ∧
      groundFormula M [] inviting = .ok g ∧ evalFormula M.valuation true g = .ok .no := by
  have hfound :
      ∃ E,
        (expand (fun _ => false) { models := 0 } ⟨[], [], [inviting]⟩ gallery {}).2.toOption =
          some E ∧
      ∃ M ∈ E.models, (groundFormula M [] inviting >>= evalFormula M.valuation true).toOption =
      some .no := by
    decide +kernel
  obtain ⟨E, hE, M, hM, hno⟩ := hfound
  obtain ⟨g, hg, hno⟩ := Except.bind_eq_ok.mp (Except.toOption_eq_some_iff.mp hno)
  exact ⟨_, E, M, g, Prod.ext rfl (Except.toOption_eq_some_iff.mp hE), hM, hg, hno⟩

end ModelExpansion
