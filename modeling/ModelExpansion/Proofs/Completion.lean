import ModelExpansion.Proofs.Encoding.Completion
import ModelExpansion.Proofs.Expansion

/-! # Models of the completion
Every model that an expansion returns, also one that is cut short, makes the sentences true, and the
atoms of a symbol that heads a ground rule are true in it exactly if some rule derives them. Symbols
whose rules all range over empty tables head no ground rule; their atoms are left open. -/

namespace ModelExpansion

open ModelExpansion.Sat ModelExpansion.Encoder

variable {halt : Stats → Bool} {o : Options} {S M : Structure} {T : Theory}
    {sentences : List Formula}
  {monitor monitor' : Monitor} {E : Expansion}

/-- A total structure in which the sentences of a ground theory are true and its rules completed. -/
structure Structure.Fulfils (S : Structure) (T : Theory) (M : Structure) :
    Prop extends S.TotalOver M where
  sentences : ∀ f ∈ T.sentences, M.world.truth [] f = true
  definitions : ∀ D ∈ T.definitions, M.world.Completes S D.rules
  fixpoints : ∀ F ∈ T.fixpoints, M.world.Completes S F.allRules

/-! ## Encoding and search -/

/-- The models that a theory leaves fulfil it. -/
theorem fulfils_of_models {e e' : Encoder} (hstart : Starts S e)
    (htables : ∀ a v, S.facts[a]? = some v → S.InTables a) (hrun : addTheory T e = (.ok (), e'))
    (hM : e'.Models M) : S.Fulfils T M := by
  have hleaves := leaves_addTheory (hstart.decodable htables) hrun
  have hbase : e'.base = S := hleaves.base.trans hstart.base
  obtain ⟨α, hα, hdescribes⟩ := hM
  rw [hbase] at hdescribes
  have hI : ∀ {a}, e'.interpretation α a = true → S.InTables a := fun ha =>
    hbase ▸ hleaves.decodable.numbers.inTables ha
  have hfunctional := hleaves.decodable.functional hα
  have hworld : M.world = e'.world α := by
    rw [hdescribes.world hI, world, hbase]
  obtain ⟨-, hsentences, hdefinitions, hfixpoints⟩ := hleaves.restrict hα
  rw [← hleaves.world, ← hworld] at hsentences hdefinitions hfixpoints
  rw [hstart.base] at hdefinitions hfixpoints
  rw [hbase, world, hbase] at hfunctional
  exact ⟨hdescribes.totalOver hI hfunctional, hsentences, hdefinitions, hfixpoints⟩

theorem models_of_search {P : Prepared} (hrun : search halt o P monitor = (monitor', .ok E))
    (htables : ∀ a v, P.base.facts[a]? = some v → P.base.InTables a) (hM : M ∈ E.models) :
    ∃ e e', Starts P.base e ∧ addTheory P.theory e = (.ok (), e') ∧ e'.Models M := by
  obtain ⟨e, e₁, e₂, found, hstart, hadd, hfound, rfl, rfl⟩ := search_eq_ok hrun
  have hstarts := starts_of_start hstart
  have hdecodable := (leaves_addTheory (hstarts.decodable htables) hadd).decodable
  exact ⟨e, e₁, hstarts, hadd, (enumerates_of_eq_ok hfound).models hdecodable M hM⟩

/-- Every model that a search finds fulfils the theory that was prepared. -/
theorem fulfils_of_search {P : Prepared} (hrun : search halt o P monitor = (monitor', .ok E))
    (htables : ∀ a v, P.base.facts[a]? = some v → P.base.InTables a) (hM : M ∈ E.models) :
    P.base.Fulfils P.theory M := by
  obtain ⟨e, e', hstarts, hadd, hmodels⟩ := models_of_search hrun htables hM
  exact fulfils_of_models hstarts htables hadd hmodels

/-! ## Grounding -/

/-- A structure in which the atoms of the symbols of which some rule has an instance are true
exactly if a rule derives them. -/
def Structure.CompletesInstances (M : Structure) (rules : List Rule) : Prop :=
  ∀ a, (∃ r ∈ rules, r.head = a.symbol ∧ M.world.tuples r.vars ≠ []) → M.InTables a →
    (M.isTrue a = true ↔ M.world.Derives rules a)

/-- Ground rules are completed exactly if the instances of the rules are. -/
theorem completes_groundRules {rules ground : List Rule}
    (hground : groundRules S rules = .ok ground)
    (htotal : S.TotalOver M) : M.world.Completes S ground ↔ M.CompletesInstances rules := by
  rw [World.Completes, Structure.CompletesInstances, htotal.world]
  refine forall_congr' fun a => ?_
  rw [mem_headSymbols_groundRules hground, derives_groundRules hground,
    Structure.inTables_congr htotal.vocabulary htotal.tables]
  rfl

theorem groundRules_append {rules rules' ground ground' : List Rule}
    (h : groundRules S rules = .ok ground)
    (h' : groundRules S rules' = .ok ground') :
    groundRules S (rules ++ rules') = .ok (ground ++ ground') := by
  obtain ⟨instances, hinstances, h⟩ := Except.bind_eq_ok.mp h
  obtain ⟨instances', hinstances', h'⟩ := Except.bind_eq_ok.mp h'
  cases h
  cases h'
  rw [groundRules, List.mapM_append, hinstances, hinstances', ← List.flatten_append]
  rfl

mutual

theorem groundRules_allRules : ∀ (F : Fixpoint) {G : Fixpoint}, groundFixpoint S F = .ok G →
    groundRules S F.allRules = .ok G.allRules
  | .level least rules nested, G, h => by
      rw [groundFixpoint, Except.bind_eq_ok] at h
      obtain ⟨ground, hground, h⟩ := h
      rw [Except.bind_eq_ok] at h
      obtain ⟨levels, hlevels, h⟩ := h
      cases h
      exact groundRules_append hground (groundRules_allRulesList nested hlevels)

theorem groundRules_allRulesList :
    ∀ (Fs : List Fixpoint) {Gs : List Fixpoint}, groundFixpoints S Fs = .ok Gs →
    groundRules S (Fixpoint.allRulesList Fs) = .ok (Fixpoint.allRulesList Gs)
  | [], Gs, h => by
      cases h
      rfl
  | F :: Fs, Gs, h => by
      rw [groundFixpoints, Except.bind_eq_ok] at h
      obtain ⟨G, hG, h⟩ := h
      rw [Except.bind_eq_ok] at h
      obtain ⟨Gs', hGs, h⟩ := h
      cases h
      exact groundRules_append (groundRules_allRules F hG) (groundRules_allRulesList Fs hGs)

end

theorem forall₂_of_groundFixpoints_eq_ok {Fs Gs : List Fixpoint}
    (h : groundFixpoints S Fs = .ok Gs) :
    List.Forall₂ (fun F G => groundFixpoint S F = .ok G) Fs Gs := by
  induction Fs generalizing Gs with
  | nil =>
      cases h
      exact .nil
  | cons F Fs ih =>
      rw [groundFixpoints, Except.bind_eq_ok] at h
      obtain ⟨G, hG, h⟩ := h
      rw [Except.bind_eq_ok] at h
      obtain ⟨Gs', hGs, h⟩ := h
      cases h
      exact .cons hG (ih hGs)

/-- Where a ground theory is fulfilled, the instances of the rules are completed. -/
theorem Structure.Fulfils.completesInstances {G : Theory} (hG : groundTheory S T = .ok G)
    (hM : S.Fulfils { G with sentences := sentences } M) :
    (∀ D ∈ T.definitions, M.CompletesInstances D.rules) ∧
    ∀ F ∈ T.fixpoints, M.CompletesInstances F.allRules := by
  obtain ⟨hdefinitions, hfixpoints, -⟩ := groundTheory_eq_ok hG
  constructor
  · intro D hD
    obtain ⟨D', hD', hground⟩ := exists_right_of_forall₂ (forall₂_of_mapM_eq_ok hdefinitions) hD
    obtain ⟨ground, hrules, hground⟩ := Except.bind_eq_ok.mp hground
    cases hground
    exact (completes_groundRules hrules hM.toTotalOver).mp (hM.definitions _ hD')
  · intro F hF
    obtain ⟨F', hF', hground⟩ :=
      exists_right_of_forall₂ (forall₂_of_groundFixpoints_eq_ok hfixpoints) hF
    exact (completes_groundRules (groundRules_allRules F hground) hM.toTotalOver).mp
      (hM.fixpoints _ hF')

/-! ## The whole expansion -/

theorem Theory.residual_none (T : Theory) : T.residual .none = T := by
  simp [residual, Calculated.none]

/-- In every model that is returned, also by a search that is cut short, the atoms of a symbol that
heads a rule with an instance are true exactly if a rule derives them. -/
theorem completesInstances_of_expand (hrun : expand halt o T S monitor = (monitor', .ok E))
    (hcalculate : o.calculateDefinitions = false)
    (htables : ∀ a v, S.facts[a]? = some v → S.InTables a) (hM : M ∈ E.models) :
    (∀ D ∈ T.definitions, M.CompletesInstances D.rules) ∧
    ∀ F ∈ T.fixpoints, M.CompletesInstances F.allRules := by
  have hrefine : refine o T S = .ok (some (S, .none)) := by
    rw [refine, hcalculate]
    rfl
  rcases expand_eq_ok hrun with ⟨-, -, rfl⟩ | ⟨P, hprepare, ⟨-, -, rfl⟩ | hsearch⟩
  · exact absurd hM List.not_mem_nil
  · exact absurd hM List.not_mem_nil
  obtain ⟨P', sets, breaking, G, hP, hbase, -, hG, htheory⟩ := prepare_of_refine hrefine hprepare
  cases hP
  rw [Theory.residual_none] at hG
  have hfulfils := fulfils_of_search hsearch (hbase ▸ htables) hM
  rw [hbase, htheory] at hfulfils
  exact hfulfils.completesInstances hG

/-- A predicate over one element, and a sort without elements. -/
def vacuous : Structure where
  vocabulary := ⟨[⟨"s", []⟩, ⟨"t", []⟩], [⟨"p", [0], none⟩]⟩
  tables := [.range 1 1, .ofList []]
  facts := ∅

/-- The predicate holds of the one element if the other sort has any. -/
def inhabitation : Definition := ⟨[⟨[⟨0, "x", 1⟩], 0, [.element (.int 1)], .conj []⟩]⟩

/-- A rule over an empty table has no instance that would complete the symbol it heads. So a model
is returned in which an atom of that symbol is true although no rule derives it. -/
theorem isTrue_without_instance : ∃ monitor E M,
    expand (fun _ => false) { models := 0, calculateDefinitions := false }
    ⟨[inhabitation], [], []⟩ vacuous {} =
      (monitor, .ok E) ∧ M ∈ E.models ∧ M.InTables ⟨0, [.int 1]⟩ ∧ M.isTrue ⟨0, [.int 1]⟩ = true ∧
      ¬ M.world.Derives inhabitation.rules ⟨0, [.int 1]⟩ := by
  have hfound : ∃ E, (expand (fun _ => false) { models := 0, calculateDefinitions := false }
      ⟨[inhabitation], [], []⟩ vacuous {}).2.toOption = some E ∧
      ∃ M ∈ E.models, M.InTables ⟨0, [.int 1]⟩ ∧ M.isTrue ⟨0, [.int 1]⟩ = true ∧
      M.world.tuples [⟨0, "x", 1⟩] = [] := by decide +kernel
  obtain ⟨E, hE, M, hM, hinTables, htrue, htuples⟩ := hfound
  refine ⟨_, E, M, Prod.ext rfl (Except.toOption_eq_some_iff.mp hE), hM, hinTables, htrue, ?_⟩
  rintro ⟨r, hr, u, hu, -⟩
  obtain rfl := List.mem_singleton.mp hr
  rw [htuples] at hu
  cases hu

end ModelExpansion
