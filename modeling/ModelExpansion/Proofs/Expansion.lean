import ModelExpansion.Proofs.Encoding.Assertions
import ModelExpansion.Proofs.Enumeration

/-! # Expansion lists the expansions
From grounding to decoding every step keeps the worlds, so that an expansion that is not cut short
lists every total structure that makes the sentences true. -/

namespace ModelExpansion

open ModelExpansion.Sat ModelExpansion.Encoder

variable {o : Options} {S : Structure} {sentences : List Formula}

/-! ## Preparation -/

theorem groundTheory_eq_ok {T G : Theory} (h : groundTheory S T = .ok G) :
    T.definitions.mapM (groundDefinition S) = .ok G.definitions ∧
      groundFixpoints S T.fixpoints = .ok G.fixpoints ∧
      ∃ ground facts, groundFormulas S [] T.sentences = .ok ground ∧ factFormulas S = .ok facts ∧
        G.sentences = ground ++ facts := by
  rw [groundTheory, Except.bind_eq_ok] at h
  obtain ⟨definitions, hdefinitions, h⟩ := h
  rw [Except.bind_eq_ok] at h
  obtain ⟨fixpoints, hfixpoints, h⟩ := h
  rw [Except.bind_eq_ok] at h
  obtain ⟨ground, hground, h⟩ := h
  rw [Except.bind_eq_ok] at h
  obtain ⟨facts, hfacts, h⟩ := h
  cases h
  exact ⟨hdefinitions, hfixpoints, ground, facts, hground, hfacts, rfl⟩

/-- What is left of a theory is grounded over the structure that the calculation of definitions
leaves. -/
theorem prepare_of_refine {T : Theory} {S' : Structure} {c : Calculated}
    {prepared : Option Prepared}
    (hrefine : refine o T S = .ok (some (S', c))) (h : prepare o T S = .ok prepared) :
    ∃ P sets breaking G, prepared = some P ∧ P.base = S' ∧
      breakSymmetry o S' (T.residual c) = .ok (sets, breaking) ∧
      groundTheory S' (T.residual c) = .ok G ∧
      P.theory = { G with sentences := G.sentences ++ breaking } := by
  rw [prepare, Except.bind_eq_ok] at h
  obtain ⟨_, -, h⟩ := h
  rw [hrefine, Except.bind_eq_ok] at h
  obtain ⟨_, heq, h⟩ := h
  cases heq
  dsimp only at h
  rw [Except.bind_eq_ok] at h
  obtain ⟨⟨sets, breaking⟩, hbreaking, h⟩ := h
  dsimp only at h
  rw [Except.bind_eq_ok] at h
  obtain ⟨G, hG, h⟩ := h
  cases h
  exact ⟨_, sets, breaking, G, rfl, rfl, hbreaking, hG, rfl⟩

/-- What is prepared is grounded over the structure that it is prepared for. -/
theorem prepare_eq_some {T : Theory} {P : Prepared} (h : prepare o T S = .ok (some P)) :
    ∃ c breaking G, refine o T S = .ok (some (P.base, c)) ∧
      groundTheory P.base (T.residual c) = .ok G ∧
      P.theory = { G with sentences := G.sentences ++ breaking } := by
  have hrefine : ∃ S' c, refine o T S = .ok (some (S', c)) := by
    obtain ⟨_, -, h⟩ := Except.bind_eq_ok.mp h
    obtain ⟨refined, hrefine, h⟩ := Except.bind_eq_ok.mp h
    cases refined with
    | none => cases h
    | some refined => exact ⟨refined.1, refined.2, hrefine⟩
  obtain ⟨S', c, hrefine⟩ := hrefine
  obtain ⟨_, sets, breaking, G, hP, rfl, -, hG, htheory⟩ := prepare_of_refine hrefine h
  cases hP
  exact ⟨c, breaking, G, hrefine, hG, htheory⟩

/-- Without definitions only the sentences are grounded. -/
theorem prepare_eq_ok {prepared : Option Prepared}
    (h : prepare o ⟨[], [], sentences⟩ S = .ok prepared) :
    ∃ P sets breaking ground facts, prepared = some P ∧ P.base = S ∧
      breakSymmetry o S ⟨[], [], sentences⟩ = .ok (sets, breaking) ∧
      groundFormulas S [] sentences = .ok ground ∧ factFormulas S = .ok facts ∧
      P.theory = ⟨[], [], ground ++ facts ++ breaking⟩ := by
  have hrefine : ∃ c, refine o ⟨[], [], sentences⟩ S = .ok (some (S, c)) := by
    rw [refine]
    cases o.calculateDefinitions with
    | true => exact ⟨⟨[], []⟩, rfl⟩
    | false => exact ⟨.none, rfl⟩
  obtain ⟨c, hrefine⟩ := hrefine
  obtain ⟨P, sets, breaking, ⟨definitions, fixpoints, formulas⟩, rfl, hbase, hbreaking,
    hG, htheory⟩ :=
    prepare_of_refine hrefine h
  obtain ⟨hdefinitions, hfixpoints, ground, facts, hground, hfacts, hformulas⟩ :=
    groundTheory_eq_ok hG
  cases hdefinitions
  cases hfixpoints
  cases hformulas
  exact ⟨P, sets, breaking, ground, facts, rfl, hbase, hbreaking, hground, hfacts, htheory⟩

/-! ## The encoded problem -/

/-- Formulas that leave the worlds over the tables that keep the facts and make some sentences
true. -/
def Structure.EncodedBy (S : Structure) (sentences fs : List Formula) : Prop :=
  ∀ I : Atom → Bool, (S.worldOf I).SingleValued → ((∀ f ∈ fs, (S.worldOf I).truth [] f = true) ↔
    S.Keeps (S.worldOf I) ∧ ∀ f ∈ sentences, (S.worldOf I).truth [] f = true)

/-- Sentences are encoded by their groundings and the facts, and further formulas by themselves. -/
theorem encodedBy_append {atoms : List Atom} {ground facts : List Formula}
    (hatoms : atomsOf S = .ok atoms) (htables : ∀ a v, S.facts[a]? = some v → S.InTables a)
    (hground : groundFormulas S [] sentences = .ok ground) (hfacts : factFormulas S = .ok facts)
    (further : List Formula) : S.EncodedBy (sentences ++ further) (ground ++ facts ++ further) := by
  intro I hsingle
  have hkeeps := keeps_iff hatoms hsingle (fun a v hv _ => htables a v hv) hfacts
  rw [List.forall_mem_append, List.forall_mem_append, hkeeps, World.forall_truth_iff,
    truths_groundFormulas sentences hground, ← World.forall_truth_iff, List.forall_mem_append,
    and_comm (a := ∀ f ∈ sentences, _), and_assoc]

section Asserted

variable {e e' : Encoder} {fs : List Formula} (hstart : Starts S e) (hfs : S.EncodedBy sentences fs)
  (hc : Constrained e e' fun W => ∀ f ∈ fs, W.truth [] f = true)
include hstart hfs

theorem forall_truth_iff_of_admits {α : Nat → Bool} (hα : e.solver.Admits α) :
    (∀ f ∈ fs, (e.world α).truth [] f = true) ↔
      S.Keeps (e.world α) ∧ ∀ f ∈ sentences, (e.world α).truth [] f = true := by
  have hsingle := hstart.sound.single hα
  rw [world, hstart.base] at hsingle ⊢
  exact hfs _ hsingle

include hc

/-- After the formulas have been asserted, models can be enumerated. -/
theorem ready_of_constrained (hconflicts : e.solver.config.maxConflicts = 0)
    (htables : ∀ a v, S.facts[a]? = some v → S.InTables a) : Ready e' := by
  have hbase : e'.base = S := hc.base.trans hstart.base
  refine ⟨(hstart.decodable htables).constrained hc, fun {α} hα => ?_, ?_, ?_, ?_⟩
  · obtain ⟨hα, hall⟩ := hc.restrict hα
    rw [hbase, hc.world]
    exact ((forall_truth_iff_of_admits hstart hfs hα).mp hall).1
  · rw [hc.config]
    exact hconflicts
  · rw [hc.same]
    exact hstart.definitions
  · rw [hc.same]
    exact hstart.fixpoints

/-- The models that are left are the expansions. -/
theorem models_iff_isExpansion (htables : ∀ a v, S.facts[a]? = some v → S.InTables a)
    (M : Structure) :
    e'.Models M ↔ S.IsExpansion sentences M := by
  have hbase : e'.base = S := hc.base.trans hstart.base
  have hinterpretation : e'.interpretation = e.interpretation := by
    rw [hc.same]
    rfl
  have hworld : ∀ α, e.world α = S.worldOf (e.interpretation α) := fun α => by
    rw [world, hstart.base]
  rw [Models, hbase, hinterpretation]
  constructor
  · rintro ⟨α, hα, hM⟩
    obtain ⟨hα, hall⟩ := hc.restrict hα
    have hall := (forall_truth_iff_of_admits hstart hfs hα).mp hall
    have hfunctional := hstart.functional hα
    rw [hworld] at hall hfunctional
    exact (hM.isExpansion_iff (fun ha => hstart.base ▸ hstart.numbers.inTables ha) htables).mpr
      ⟨hfunctional, hall⟩
  · intro hM
    have hdescribes := hM.describes
    obtain ⟨hfunctional, hall⟩ := (hdescribes.isExpansion_iff hM.inTables_of_isTrue htables).mp hM
    obtain ⟨α, hα, hreached⟩ := hstart.reaches hM.inTables_of_isTrue hfunctional
    rw [← hreached] at hall
    obtain ⟨β, hαβ, hβ⟩ := hc.extend hα ((forall_truth_iff_of_admits hstart hfs hα).mpr hall)
    have hsame : e.interpretation β = M.isTrue := by
      funext a
      have heq := (hstart.sound.world_congr hαβ).trans hreached
      exact congrFun (congrFun (congrArg World.atom heq) a.symbol) a.tuple
    rw [← hsame] at hdescribes
    exact ⟨β, hβ, hdescribes⟩

end Asserted

/-! ## The whole expansion -/

theorem search_eq_ok {halt : Stats → Bool} {P : Prepared} {monitor monitor' : Monitor}
    {E : Expansion} (h : search halt o P monitor = (monitor', .ok E)) :
    ∃ e e₁ e₂ found, Encoder.start P.base { config := o.solverConfig, monitor := monitor } = .ok e ∧
      addTheory P.theory e = (.ok (), e₁) ∧
      e₁.enumerateModels halt o.models e₁.searchBound 0 = (e₂, .ok found) ∧
      monitor' = e₂.solver.monitor ∧ E = found.expansion P.stats e₂ := by
  rw [search] at h
  split at h
  · cases h
  rename_i e hstart
  split at h
  · cases h
  rename_i e₁ hadd
  split at h
  · cases h
  rename_i e₂ found hfound
  cases h
  exact ⟨e, e₁, e₂, found, hstart, hadd, hfound, rfl, rfl⟩

/-- A search fails when its encoder is made, when the theory is added to it, or when models are
enumerated. -/
theorem search_eq_error {halt : Stats → Bool} {P : Prepared} {monitor monitor' : Monitor}
    {failure : Failure} (h : search halt o P monitor = (monitor', .error failure)) :
    (Encoder.start P.base { config := o.solverConfig, monitor := monitor } = .error failure ∧
      monitor' = monitor) ∨
      ∃ e, Encoder.start P.base { config := o.solverConfig, monitor := monitor } = .ok e ∧
        ((addTheory P.theory e).1 = .error failure ∨ ∃ e₁, addTheory P.theory e = (.ok (), e₁) ∧
          (e₁.enumerateModels halt o.models e₁.searchBound 0).2 = .error failure) := by
  rw [search] at h
  split at h
  · rename_i hstart
    cases h
    exact .inl ⟨hstart, rfl⟩
  rename_i e hstart
  refine .inr ⟨e, hstart, ?_⟩
  split at h
  · rename_i hadd
    cases h
    exact .inl (congrArg Prod.fst hadd)
  rename_i e₁ hadd
  refine .inr ⟨e₁, hadd, ?_⟩
  split at h
  · rename_i hfound
    cases h
    exact congrArg Prod.snd hfound
  · cases h

/-- An expansion that succeeds found a definition inconsistent, was stopped before the search, or
searched. -/
theorem expand_eq_ok {halt : Stats → Bool} {T : Theory} {monitor monitor' : Monitor} {E : Expansion}
    (h : expand halt o T S monitor = (monitor', .ok E)) :
    (prepare o T S = .ok none ∧ monitor' = monitor ∧ E = ⟨[], .inconsistentDefinition, {}⟩) ∨
      ∃ P, prepare o T S = .ok (some P) ∧
        (((monitor.raised || halt {}) = true ∧ monitor' = monitor ∧
          E = ⟨[], .interrupted, P.stats⟩) ∨
          search halt o P monitor = (monitor', .ok E)) := by
  rw [expand] at h
  split at h
  · cases h
  · rename_i hprepare
    cases h
    exact .inl ⟨hprepare, rfl, rfl⟩
  rename_i P hprepare
  split at h
  · rename_i hstopped
    cases h
    exact .inr ⟨P, hprepare, .inl ⟨hstopped, rfl, rfl⟩⟩
  · exact .inr ⟨P, hprepare, .inr h⟩

theorem assertFormulas_of_addTheory {e e' : Encoder} {fs : List Formula}
    (h : addTheory ⟨[], [], fs⟩ e = (.ok (), e')) : assertFormulas fs e = (.ok (), e') := by
  obtain ⟨_, e₁, hassert, h⟩ := Encoding.bind_eq_ok h
  obtain ⟨_, e₂, hdefinitions, h⟩ := Encoding.bind_eq_ok h
  cases hdefinitions
  cases h
  exact hassert

/-- A search that succeeds enumerates the models of an encoder that is ready. -/
structure Searches (S : Structure) (sentences : List Formula) (monitor monitor' : Monitor)
    (models : List Structure) (e e' : Encoder) (found : Found) : Prop where
  listed : ∃ atoms, atomsOf S = .ok atoms
  ready : Ready e
  isExpansion : ∀ M, e.Models M ↔ S.IsExpansion sentences M
  before : monitor.Follows e.solver.monitor
  enumerates : Enumerates (fun _ => false) 0 e.searchBound 0 e e' found
  monitor : monitor' = e'.solver.monitor
  models : models = found.models

/-- What is found are the expansions, each of them once. -/
theorem Searches.lists {monitor monitor' : Monitor} {models : List Structure} {e e' : Encoder}
    {found : Found}
    (h : Searches S sentences monitor monitor' models e e' found)
    (hraised : monitor'.raised = false) :
    models.Nodup ∧ ∀ M, M ∈ models ↔ S.IsExpansion sentences M := by
  have hcount : (e.left e.atoms.size).card < e.searchBound := Nat.lt_succ_of_le (card_left_le _ e)
  have hlists := h.enumerates.lists h.ready hcount (h.monitor ▸ hraised)
  rw [h.models]
  exact ⟨hlists.nodup, fun M => (hlists.mem_iff M).trans (h.isExpansion M)⟩

theorem searches_of_expand_breaking {T : Theory} {monitor monitor' : Monitor} {E : Expansion}
    (hrun : expand (fun _ => false) o T S monitor = (monitor', .ok E))
    (hmodels : o.models = 0) (hconflicts : o.maxConflicts = 0) (hdefinitions : T.definitions = [])
    (hfixpoints : T.fixpoints = []) (htables : ∀ a v, S.facts[a]? = some v → S.InTables a) :
    (monitor' = monitor ∧ monitor.raised = true) ∨
      ∃ sets breaking, breakSymmetry o S T = .ok (sets, breaking) ∧
        ∃ e e' found, Searches S (T.sentences ++ breaking) monitor monitor' E.models e
        e' found := by
  obtain ⟨definitions, fixpoints, sentences⟩ := T
  cases hdefinitions
  cases hfixpoints
  rcases expand_eq_ok hrun with ⟨hprepare, -, -⟩ | ⟨P, hprepare, hstopped | hsearch⟩
  · obtain ⟨_, _, _, _, _, hnone, -⟩ := prepare_eq_ok hprepare
    cases hnone
  · obtain ⟨hstopped, rfl, -⟩ := hstopped
    rw [Bool.or_false] at hstopped
    exact .inl ⟨rfl, hstopped⟩
  obtain ⟨P', sets, breaking, ground, facts, hP, hbase, hbreaking, hground, hfacts, htheory⟩ :=
    prepare_eq_ok hprepare
  cases hP
  obtain ⟨e, e₁, e₂, found, hstart, hadd, hfound, rfl, rfl⟩ := search_eq_ok hsearch
  rw [hbase] at hstart
  rw [htheory] at hadd
  rw [hmodels] at hfound
  have hstarts := starts_of_start hstart
  have hc := asserts_assertFormulas (ground ++ facts ++ breaking) hstarts.sound e₁
    (assertFormulas_of_addTheory hadd)
  obtain ⟨atoms, hatoms⟩ := hstarts.listed
  have hfs := encodedBy_append hatoms htables hground hfacts breaking
  refine .inr ⟨sets, breaking, hbreaking, e₁, e₂, found, ?_⟩
  constructor
  · exact hstarts.listed
  · exact ready_of_constrained hstarts hfs hc (config_of_start hstart ▸ hconflicts) htables
  · exact models_iff_isExpansion hstarts hfs hc htables
  · exact (follows_of_start hstart).trans hc.monitor
  · exact enumerates_of_eq_ok hfound
  · rfl
  · rfl

theorem breakSymmetry_of_unwanted {T : Theory} (hsymmetry : o.breakSymmetry = false) :
    breakSymmetry o S T = .ok ([], []) := by
  rw [breakSymmetry, if_neg (by rw [hsymmetry]; exact Bool.false_ne_true)]
  rfl

theorem searches_of_expand {T : Theory} {monitor monitor' : Monitor} {E : Expansion}
    (hrun : expand (fun _ => false) o T S monitor = (monitor', .ok E))
    (hmodels : o.models = 0) (hsymmetry : o.breakSymmetry = false) (hconflicts : o.maxConflicts = 0)
    (hdefinitions : T.definitions = []) (hfixpoints : T.fixpoints = [])
    (htables : ∀ a v, S.facts[a]? = some v → S.InTables a) :
    (monitor' = monitor ∧ monitor.raised = true) ∨
      ∃ e e' found, Searches S T.sentences monitor monitor' E.models e e' found := by
  rcases searches_of_expand_breaking hrun hmodels hconflicts hdefinitions hfixpoints htables with
    hstopped | ⟨sets, breaking, hbreaking, hsearch⟩
  · exact .inl hstopped
  · rw [breakSymmetry_of_unwanted hsymmetry] at hbreaking
    cases hbreaking
    rw [List.append_nil] at hsearch
    exact .inr hsearch

/-- An expansion does not raise the interrupt flag: without an alarm it stays as it is. -/
theorem raised_expand {T : Theory} {monitor monitor' : Monitor} {E : Expansion}
    (hrun : expand (fun _ => false) o T S monitor = (monitor', .ok E))
    (halarm : monitor.alarm = none)
    (hmodels : o.models = 0) (hsymmetry : o.breakSymmetry = false) (hconflicts : o.maxConflicts = 0)
    (hdefinitions : T.definitions = []) (hfixpoints : T.fixpoints = [])
    (htables : ∀ a v, S.facts[a]? = some v → S.InTables a) : monitor'.raised = monitor.raised := by
  rcases searches_of_expand hrun hmodels hsymmetry hconflicts hdefinitions hfixpoints htables with
    ⟨rfl, -⟩ | ⟨e, e', found, hsearch⟩
  · rfl
  · rw [hsearch.monitor]
    exact ((hsearch.before.trans
      (hsearch.enumerates.follows hsearch.ready.toDecodable)).quiet halarm).2

/-- An expansion that is not cut short lists every total structure over the tables that keeps the
facts, gives every function application one value and makes the sentences true, and it lists each of
them once. -/
theorem models_expand {T : Theory} {monitor monitor' : Monitor} {E : Expansion}
    (hrun : expand (fun _ => false) o T S monitor = (monitor', .ok E))
    (hraised : monitor'.raised = false)
    (hmodels : o.models = 0) (hsymmetry : o.breakSymmetry = false) (hconflicts : o.maxConflicts = 0)
    (hdefinitions : T.definitions = []) (hfixpoints : T.fixpoints = [])
    (htables : ∀ a v, S.facts[a]? = some v → S.InTables a) :
    E.models.Nodup ∧ ∀ M, M ∈ E.models ↔ S.IsExpansion T.sentences M := by
  rcases searches_of_expand hrun hmodels hsymmetry hconflicts hdefinitions hfixpoints htables with
    ⟨rfl, hstopped⟩ | ⟨e, e', found, hsearch⟩
  · rw [hraised] at hstopped
    cases hstopped
  · exact hsearch.lists hraised

/-- A predicate of which some element must be true, and a function, over two elements. What is
recorded leaves one choice. -/
def determinate : Structure where
  vocabulary := ⟨[⟨"s", []⟩], [⟨"p", [0], none⟩, ⟨"f", [0], some 0⟩]⟩
  tables := [.range 1 2]
  facts := .ofList ([(⟨0, [.int 1]⟩, false), (⟨1, [.int 1, .int 1]⟩, false),
    (⟨1, [.int 2, .int 2]⟩, false)] : List (Atom × Bool))

def somewhere : Formula := .exist [⟨0, "x", 0⟩] (.pred 0 [.var ⟨0, "x", 0⟩])

/-- The only expansion is the one that is listed. -/
theorem existsUnique_expansion : ∃! M, determinate.IsExpansion [somewhere] M := by
  have htables : ∀ a v, determinate.facts[a]? = some v → determinate.InTables a := by
    intro a v hv
    have hmem := (getElem?_ofList_eq_some_iff (by decide)).mp hv
    simp only [List.mem_cons, List.not_mem_nil, or_false, Prod.mk.injEq] at hmem
    rcases hmem with ⟨rfl, -⟩ | ⟨rfl, -⟩ | ⟨rfl, -⟩ <;> rfl
  have hlength :
      (expand (fun _ => false) { models := 0 } ⟨[], [], [somewhere]⟩ determinate {}).2.toOption.map
      (fun E => E.models.length) = some 1 := by decide +kernel
  cases hrun : expand (fun _ => false) { models := 0 } ⟨[], [], [somewhere]⟩ determinate {} with
  | mk monitor outcome =>
      rw [hrun] at hlength
      cases outcome with
      | error failure => cases hlength
      | ok E =>
          have hraised := raised_expand hrun rfl rfl rfl rfl rfl rfl htables
          obtain ⟨-, hmodels⟩ := models_expand hrun hraised rfl rfl rfl rfl rfl htables
          obtain ⟨M, hM⟩ := List.length_eq_one_iff.mp (Option.some.inj hlength)
          simp only [hM, List.mem_singleton] at hmodels
          exact ⟨M, (hmodels M).mp rfl, fun N hN => (hmodels N).mpr hN⟩

/-- One member that is counted although its weight, a minimum over nothing, has no value. -/
def counted : Formula :=
  .compare (.aggregate .card (.enumerated [(.conj [], .aggregate .min (.enumerated []))])) .eq
    (.element (.int 1))

/-- If counting needed weights, a structure would be listed in which the sentence is false. -/
theorem counts_without_weights : ∃ monitor E M,
    expand (fun _ => false) { models := 0 } ⟨[], [], [counted]⟩ (.empty .empty) {} =
    (monitor, .ok E) ∧
      monitor.raised = false ∧ M ∈ E.models ∧
      { M.world with weighted := fun _ => true }.truth [] counted = false := by
  have hmodels :
      (expand (fun _ => false) { models := 0 } ⟨[], [], [counted]⟩ (.empty .empty)
        {}).2.toOption.map
      Expansion.models = some [.empty .empty] := by rfl
  have hraised :
      (expand (fun _ => false) { models := 0 } ⟨[], [], [counted]⟩ (.empty .empty) {}).1.raised =
      false := by rfl
  cases hrun : expand (fun _ => false) { models := 0 } ⟨[], [], [counted]⟩ (.empty .empty) {} with
  | mk monitor outcome =>
      rw [hrun] at hmodels hraised
      cases outcome with
      | error failure => cases hmodels
      | ok E =>
          refine ⟨monitor, E, .empty .empty, rfl, hraised, ?_, by rfl⟩
          rw [Option.some.inj hmodels]
          exact List.mem_singleton_self _

end ModelExpansion
