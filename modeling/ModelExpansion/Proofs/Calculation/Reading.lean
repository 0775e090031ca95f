import ModelExpansion.Calculation
import ModelExpansion.Proofs.Structures
import ModelExpansion.Proofs.WellFounded.LeastModel

/-! # What the solution of a definition reads
Grounding reads the tables only and makes no new symbols. The models of ground rules read, besides
the sets of atoms for the defined symbols, the values of the others. -/

namespace ModelExpansion

/-! ## Grounding reads the tables -/

section Tables

variable {S S' : Structure}

theorem instances_congr (h : S'.domain = S.domain) {α : Type} (vars : List Var)
    {f f' : Tuple → Except Failure α}
    (hf : ∀ t, f' t = f t) : S'.instances vars f' = S.instances vars f := by
  rw [funext hf, Structure.instances, Structure.instances, Structure.domains, Structure.domains, h]

mutual

theorem groundTerm_congr (h : S'.domain = S.domain) :
    ∀ (t : Term) (b : Binding), groundTerm S' b t = groundTerm S b t
  | .var x, b => by rw [groundTerm, groundTerm]
  | .element e, b => by rw [groundTerm, groundTerm]
  | .apply f args, b => by rw [groundTerm, groundTerm, groundTerms_congr h args]
  | .aggregate kind set, b => by rw [groundTerm, groundTerm, groundSet_congr h set]

theorem groundTerms_congr (h : S'.domain = S.domain) : ∀ (ts : List Term) (b : Binding),
    groundTerms S' b ts = groundTerms S b ts
  | [], b => by rw [groundTerms, groundTerms]
  | t :: ts, b => by rw [groundTerms, groundTerms, groundTerm_congr h t, groundTerms_congr h ts]

theorem groundSet_congr (h : S'.domain = S.domain) : ∀ (set : SetExpr) (b : Binding),
    groundSet S' b set = groundSet S b set
  | .enumerated ms, b => by rw [groundSet, groundSet, groundMembers_congr h ms]
  | .comprehension vars condition weight, b => by
      rw [groundSet, groundSet, instances_congr h vars fun t => ?_]
      simp only [groundFormula_congr h condition, groundTerm_congr h weight]

theorem groundMembers_congr (h : S'.domain = S.domain) : ∀ (ms : List Member) (b : Binding),
    groundMembers S' b ms = groundMembers S b ms
  | [], b => by rw [groundMembers, groundMembers]
  | (condition, weight) :: ms, b => by
      rw [groundMembers, groundMembers, groundFormula_congr h condition, groundTerm_congr h weight,
        groundMembers_congr h ms]

theorem groundFormula_congr (h : S'.domain = S.domain) : ∀ (f : Formula) (b : Binding),
    groundFormula S' b f = groundFormula S b f
  | .atom sign p args, b => by rw [groundFormula, groundFormula, groundTerms_congr h args]
  | .junction sign conjunctive fs, b => by
    rw [groundFormula, groundFormula, groundFormulas_congr h fs]
  | .quantified sign universal vars f, b => by
      rw [groundFormula, groundFormula, instances_congr h vars fun t => groundFormula_congr h f _]
  | .equivalence sign l r, b => by
      rw [groundFormula, groundFormula, groundFormula_congr h l, groundFormula_congr h r]
  | .comparison sign ts cs, b => by rw [groundFormula, groundFormula, groundTerms_congr h ts]

theorem groundFormulas_congr (h : S'.domain = S.domain) : ∀ (fs : List Formula) (b : Binding),
    groundFormulas S' b fs = groundFormulas S b fs
  | [], b => by rw [groundFormulas, groundFormulas]
  | f :: fs, b => by
    rw [groundFormulas, groundFormulas, groundFormula_congr h f, groundFormulas_congr h fs]

end

theorem groundRules_congr (h : S'.domain = S.domain) (rules : List Rule) :
    groundRules S' rules = groundRules S rules := by
  have hrule : groundRule S' = groundRule S := by
    funext r
    rw [groundRule, groundRule, instances_congr h r.vars fun t => ?_]
    simp only [groundTerms_congr h, groundFormula_congr h]
  rw [groundRules, groundRules, hrule]

theorem groundDefinition_congr (h : S'.domain = S.domain) (D : Definition) :
    groundDefinition S' D = groundDefinition S D := by
  rw [groundDefinition, groundDefinition, groundRules_congr h]

mutual

theorem groundFixpoint_congr (h : S'.domain = S.domain) :
    ∀ F : Fixpoint, groundFixpoint S' F = groundFixpoint S F
  | .level least rules nested => by
      rw [groundFixpoint, groundFixpoint, groundRules_congr h, groundFixpoints_congr h nested]

theorem groundFixpoints_congr (h : S'.domain = S.domain) : ∀ Fs : List Fixpoint,
    groundFixpoints S' Fs = groundFixpoints S Fs
  | [] => by rw [groundFixpoints, groundFixpoints]
  | F :: Fs => by
    rw [groundFixpoints, groundFixpoints, groundFixpoint_congr h F, groundFixpoints_congr h Fs]

end

end Tables

/-! ## Grounding makes no new symbols -/

theorem Formula.mem_symbolsList {fs : List Formula} {p : SymbolId} :
    p ∈ Formula.symbolsList fs ↔ ∃ f ∈ fs, p ∈ f.symbols := by
  induction fs with
  | nil => simp [Formula.symbolsList]
  | cons f fs ih => rw [Formula.symbolsList, List.mem_append, ih, List.exists_mem_cons_iff]

theorem SetExpr.mem_symbolsMembers {ms : List Member} {p : SymbolId} :
    p ∈ SetExpr.symbolsMembers ms ↔ ∃ m ∈ ms, p ∈ m.1.symbols ++ m.2.symbols := by
  induction ms with
  | nil => simp [SetExpr.symbolsMembers]
  | cons m ms ih => rw [SetExpr.symbolsMembers, List.mem_append, ih, List.exists_mem_cons_iff]

section Symbols

variable {S : Structure}

mutual

theorem symbols_groundTerm_subset :
    ∀ (t : Term) {b : Binding} {g : Term}, groundTerm S b t = .ok g →
    g.symbols ⊆ t.symbols
  | .var x, b, g, h => by
      rw [groundTerm] at h
      split at h <;> cases h <;> exact List.nil_subset _
  | .element e, b, g, h => by
      rw [groundTerm] at h
      cases h
      exact List.Subset.refl _
  | .apply f args, b, g, h => by
      rw [groundTerm, Except.bind_eq_ok] at h
      obtain ⟨gs, hgs, h⟩ := h
      cases h
      exact List.cons_subset_cons f (symbols_groundTerms_subset args hgs)
  | .aggregate kind set, b, g, h => by
      rw [groundTerm, Except.bind_eq_ok] at h
      obtain ⟨gset, hset, h⟩ := h
      cases h
      exact symbols_groundSet_subset set hset

theorem symbols_groundTerms_subset :
    ∀ (ts : List Term) {b : Binding} {gs : List Term}, groundTerms S b ts = .ok gs →
    Term.symbolsList gs ⊆ Term.symbolsList ts
  | [], b, gs, h => by
      rw [groundTerms] at h
      cases h
      exact List.Subset.refl _
  | t :: ts, b, gs, h => by
      rw [groundTerms, Except.bind_eq_ok] at h
      obtain ⟨g, hg, h⟩ := h
      rw [Except.bind_eq_ok] at h
      obtain ⟨gs', hgs, h⟩ := h
      cases h
      exact append_subset_append (symbols_groundTerm_subset t hg)
        (symbols_groundTerms_subset ts hgs)

theorem symbols_groundSet_subset :
    ∀ (set : SetExpr) {b : Binding} {g : SetExpr}, groundSet S b set = .ok g →
    g.symbols ⊆ set.symbols
  | .enumerated ms, b, g, h => by
      rw [groundSet, Except.bind_eq_ok] at h
      obtain ⟨gs, hgs, h⟩ := h
      cases h
      exact symbols_groundMembers_subset ms hgs
  | .comprehension vars condition weight, b, g, h => by
      rw [groundSet, Except.bind_eq_ok] at h
      obtain ⟨gs, hgs, h⟩ := h
      cases h
      intro p hp
      obtain ⟨m, hm, hp⟩ := SetExpr.mem_symbolsMembers.mp hp
      obtain ⟨t, hground⟩ := Structure.exists_of_mem_instances hgs hm
      rw [Except.bind_eq_ok] at hground
      obtain ⟨c, hc, hground⟩ := hground
      have hcondition := symbols_groundFormula_subset condition hc
      cases t with
      | nil =>
          rw [Except.bind_eq_ok] at hground
          obtain ⟨w, hw, hground⟩ := hground
          cases hground
          exact append_subset_append hcondition (symbols_groundTerm_subset weight hw) hp
      | cons e es =>
          cases hground
          exact append_subset_append hcondition (List.nil_subset _) hp

theorem symbols_groundMembers_subset : ∀ (ms : List Member) {b : Binding} {gs : List Member},
    groundMembers S b ms = .ok gs → SetExpr.symbolsMembers gs ⊆ SetExpr.symbolsMembers ms
  | [], b, gs, h => by
      rw [groundMembers] at h
      cases h
      exact List.Subset.refl _
  | (condition, weight) :: ms, b, gs, h => by
      rw [groundMembers, Except.bind_eq_ok] at h
      obtain ⟨c, hc, h⟩ := h
      rw [Except.bind_eq_ok] at h
      obtain ⟨w, hw, h⟩ := h
      rw [Except.bind_eq_ok] at h
      obtain ⟨gs', hgs, h⟩ := h
      cases h
      exact append_subset_append
        (append_subset_append (symbols_groundFormula_subset condition hc)
          (symbols_groundTerm_subset weight hw))
        (symbols_groundMembers_subset ms hgs)

theorem symbols_groundFormula_subset :
    ∀ (f : Formula) {b : Binding} {g : Formula}, groundFormula S b f = .ok g →
    g.symbols ⊆ f.symbols
  | .atom sign p args, b, g, h => by
      rw [groundFormula, Except.bind_eq_ok] at h
      obtain ⟨gs, hgs, h⟩ := h
      cases h
      exact List.cons_subset_cons p (symbols_groundTerms_subset args hgs)
  | .junction sign conjunctive fs, b, g, h => by
      rw [groundFormula, Except.bind_eq_ok] at h
      obtain ⟨gs, hgs, h⟩ := h
      cases h
      exact symbols_groundFormulas_subset fs hgs
  | .quantified sign universal vars f, b, g, h => by
      rw [groundFormula, Except.bind_eq_ok] at h
      obtain ⟨gs, hgs, h⟩ := h
      cases h
      intro p hp
      obtain ⟨g, hg, hp⟩ := Formula.mem_symbolsList.mp hp
      obtain ⟨t, hground⟩ := Structure.exists_of_mem_instances hgs hg
      exact symbols_groundFormula_subset f hground hp
  | .equivalence sign l r, b, g, h => by
      rw [groundFormula, Except.bind_eq_ok] at h
      obtain ⟨gl, hgl, h⟩ := h
      rw [Except.bind_eq_ok] at h
      obtain ⟨gr, hgr, h⟩ := h
      cases h
      exact append_subset_append (symbols_groundFormula_subset l hgl)
        (symbols_groundFormula_subset r hgr)
  | .comparison sign ts cs, b, g, h => by
      rw [groundFormula, Except.bind_eq_ok] at h
      obtain ⟨gs, hgs, h⟩ := h
      cases h
      exact symbols_groundTerms_subset ts hgs

theorem symbols_groundFormulas_subset : ∀ (fs : List Formula) {b : Binding} {gs : List Formula},
    groundFormulas S b fs = .ok gs → Formula.symbolsList gs ⊆ Formula.symbolsList fs
  | [], b, gs, h => by
      rw [groundFormulas] at h
      cases h
      exact List.Subset.refl _
  | f :: fs, b, gs, h => by
      rw [groundFormulas, Except.bind_eq_ok] at h
      obtain ⟨g, hg, h⟩ := h
      rw [Except.bind_eq_ok] at h
      obtain ⟨gs', hgs, h⟩ := h
      cases h
      exact append_subset_append (symbols_groundFormula_subset f hg)
        (symbols_groundFormulas_subset fs hgs)

end

/-- A ground rule is an instance of some rule: it has the same head and no other symbols. -/
theorem exists_rule_of_mem_groundRules {rules ground : List Rule}
    (h : groundRules S rules = .ok ground) {g : Rule}
    (hg : g ∈ ground) : ∃ r ∈ rules, g.head = r.head ∧ g.body.symbols ⊆ r.symbols := by
  obtain ⟨r, hr, u, -, hinstance⟩ := exists_of_mem_groundRules (I := fun _ => false) h hg
  refine ⟨r, hr, hinstance.head, ?_⟩
  exact List.subset_append_of_subset_left _ (symbols_groundFormula_subset r.body hinstance.body)

mutual

theorem exists_rule_of_mem_groundFixpoint :
    ∀ (F : Fixpoint) {G : Fixpoint}, groundFixpoint S F = .ok G →
    ∀ g ∈ G.allRules, ∃ r ∈ F.allRules, g.head = r.head ∧ g.body.symbols ⊆ r.symbols
  | .level least rules nested, G, h => by
      rw [groundFixpoint, Except.bind_eq_ok] at h
      obtain ⟨ground, hground, h⟩ := h
      rw [Except.bind_eq_ok] at h
      obtain ⟨inner, hinner, h⟩ := h
      cases h
      intro g hg
      rw [Fixpoint.allRules, List.mem_append] at hg
      rcases hg with hg | hg
      · obtain ⟨r, hr, hrule⟩ := exists_rule_of_mem_groundRules hground hg
        exact ⟨r, List.mem_append_left _ hr, hrule⟩
      · obtain ⟨r, hr, hrule⟩ := exists_rule_of_mem_groundFixpoints nested hinner g hg
        exact ⟨r, List.mem_append_right _ hr, hrule⟩

theorem exists_rule_of_mem_groundFixpoints : ∀ (Fs : List Fixpoint) {Gs : List Fixpoint},
    groundFixpoints S Fs = .ok Gs → ∀ g ∈ Fixpoint.allRulesList Gs, ∃ r ∈ Fixpoint.allRulesList Fs,
      g.head = r.head ∧ g.body.symbols ⊆ r.symbols
  | [], Gs, h => by
      rw [groundFixpoints] at h
      cases h
      exact fun g hg => absurd hg List.not_mem_nil
  | F :: Fs, Gs, h => by
      rw [groundFixpoints, Except.bind_eq_ok] at h
      obtain ⟨G, hG, h⟩ := h
      rw [Except.bind_eq_ok] at h
      obtain ⟨Gs', hGs, h⟩ := h
      cases h
      intro g hg
      rw [Fixpoint.allRulesList, List.mem_append] at hg
      rcases hg with hg | hg
      · obtain ⟨r, hr, hrule⟩ := exists_rule_of_mem_groundFixpoint F hG g hg
        exact ⟨r, List.mem_append_left _ hr, hrule⟩
      · obtain ⟨r, hr, hrule⟩ := exists_rule_of_mem_groundFixpoints Fs hGs g hg
        exact ⟨r, List.mem_append_right _ hr, hrule⟩

end

end Symbols

/-! ## Models read the values of the other symbols -/

section Models

variable {S S' : Structure} {defined : List SymbolId} {rules : List Rule}

/-- Two structures give the bodies of rules the same truth, whatever sets the defined atoms are read
from. -/
def SameBodies (S S' : Structure) (defined : List SymbolId) (rules : List Rule) : Prop :=
  ∀ r ∈ rules, ∀ X Y, evalFormula (stage S' defined X Y) true r.body =
    evalFormula (stage S defined X Y) true r.body

theorem sameBodies_of_sameAt (hvocabulary : S'.vocabulary = S.vocabulary)
    (hdomain : S'.domain = S.domain)
    (h : ∀ r ∈ rules, ∀ p ∈ r.body.symbols, p ∉ defined → S'.valuation.SameAt S.valuation p) :
    SameBodies S S' defined rules := by
  intro r hr X Y
  refine evalFormula_congr r.body fun p hp => ?_
  by_cases hdefined : p ∈ defined
  · constructor <;> simp [stage, Valuation.fromGraph, hdefined, hvocabulary, hdomain]
  · have hsame := h r hr p hp hdefined
    have hatom : ∀ t, S'.value p t = S.value p t := hsame.atomAt true
    have hfunction : ∀ t, S'.functionValue p t = S.functionValue p t := hsame.function
    constructor <;> simp [stage, hdefined, hatom, hfunction]

theorem derive_congr {v v' : Valuation}
    (h : ∀ r ∈ rules, evalFormula v' true r.body = evalFormula v true r.body)
    (current : AtomSet) : derive v' current rules = derive v current rules := by
  induction rules with
  | nil => rfl
  | cons r rs ih =>
      obtain ⟨hr, hrs⟩ := List.forall_mem_cons.mp h
      simp only [derive, hr, ih hrs]

theorem trueHeads_congr {v v' : Valuation}
    (h : ∀ r ∈ rules, evalFormula v' true r.body = evalFormula v true r.body) :
    trueHeads v' rules = trueHeads v rules := by
  induction rules with
  | nil => rfl
  | cons r rs ih =>
      obtain ⟨hr, hrs⟩ := List.forall_mem_cons.mp h
      simp only [trueHeads, hr, ih hrs]

section Bodies

variable (h : SameBodies S S' defined rules)
include h

theorem closeUnder_congr (fixed : AtomSet) (n : Nat) (current : AtomSet) :
    closeUnder S' defined fixed rules n current = closeUnder S defined fixed rules n current := by
  induction n generalizing current with
  | zero => rfl
  | succ n ih => simp only [closeUnder, derive_congr (fun r hr => h r hr current fixed), ih]

theorem leastModel_congr (fixed : AtomSet) :
    leastModel S' defined rules fixed = leastModel S defined rules fixed :=
  closeUnder_congr h fixed _ ∅

theorem alternate_congr (n : Nat) (lower : AtomSet) :
    alternate S' defined rules n lower = alternate S defined rules n lower := by
  induction n generalizing lower with
  | zero => rfl
  | succ n ih => simp only [alternate, leastModel_congr h, ih]

theorem wellFoundedModel_congr :
    wellFoundedModel S' defined rules = wellFoundedModel S defined rules :=
  alternate_congr h _ ∅

theorem applyRules_congr : applyRules S' defined rules = applyRules S defined rules := by
  funext context
  rw [applyRules, applyRules, trueHeads_congr fun r hr => h r hr context context]

end Bodies

mutual

theorem solveLevel_congr : ∀ {L : Fixpoint}, SameBodies S S' defined L.allRules →
    solveLevel S' defined L = solveLevel S defined L
  | .level least rules nested, h => by
      rw [Fixpoint.allRules] at h
      obtain ⟨hrules, hnested⟩ := List.forall_mem_append.mp h
      funext outer
      rw [solveLevel, solveLevel, applyRules_congr hrules, solveLevels_congr hnested]

theorem solveLevels_congr :
    ∀ {Ls : List Fixpoint}, SameBodies S S' defined (Fixpoint.allRulesList Ls) →
    solveLevels S' defined Ls = solveLevels S defined Ls
  | [], h => by
      funext context
      rw [solveLevels, solveLevels]
  | L :: Ls, h => by
      rw [Fixpoint.allRulesList] at h
      obtain ⟨hL, hLs⟩ := List.forall_mem_append.mp h
      funext context
      rw [solveLevels, solveLevels, solveLevel_congr hL, solveLevels_congr hLs]

end

end Models

/-! ## Solutions -/

theorem mem_openSymbols {rules : List Rule} {p : SymbolId} :
    p ∈ openSymbols rules ↔ (∃ r ∈ rules, p ∈ r.symbols) ∧ p ∉ headSymbols rules := by
  rw [openSymbols, Std.ExtTreeSet.mem_ofList, List.contains_iff_mem, List.mem_filter,
    List.mem_flatMap]
  simp

theorem unlessInfinite_eq_some {α : Type} {x : Except Failure α} {a : α} :
    unlessInfinite x = .ok (some a) ↔ x = .ok a := by
  constructor
  · intro h
    rw [unlessInfinite.eq_def] at h
    split at h <;> cases h
    rfl
  · rintro rfl
    rfl

section Solutions

variable {S S' : Structure} (hvocabulary : S'.vocabulary = S.vocabulary)
    (hdomain : S'.domain = S.domain)
include hvocabulary hdomain

/-- The solution of a definition depends on the values of its open symbols. -/
theorem solveDefinition_congr {D : Definition}
    (h : ∀ p ∈ openSymbols D.rules, S'.valuation.SameAt S.valuation p) :
    solveDefinition D S' = solveDefinition D S := by
  rw [solveDefinition, solveDefinition, groundDefinition_congr hdomain]
  refine Except.bind_congr_ok fun G hG => ?_
  cases G with
  | none => simp only
  | some G =>
      have hground := unlessInfinite_eq_some.mp hG
      rw [groundDefinition, Except.bind_eq_ok] at hground
      obtain ⟨ground, hground, heq⟩ := hground
      cases heq
      have hbodies : SameBodies S S' D.defined ground := by
        refine sameBodies_of_sameAt hvocabulary hdomain fun g hg p hp hopen => h p ?_
        obtain ⟨r, hr, -, hsymbols⟩ := exists_rule_of_mem_groundRules hground hg
        exact mem_openSymbols.mpr ⟨⟨r, hr, hsymbols hp⟩, hopen⟩
      simp only [wellFoundedModel_congr hbodies]

/-- The solution of a fixpoint definition, too, if each of its symbols heads a ground rule. -/
theorem solveFixpoint_congr {F : Fixpoint}
    (hheads : ∀ G, groundFixpoint S F = .ok G → F.defined ⊆ G.defined)
    (h : ∀ p ∈ openSymbols F.allRules, S'.valuation.SameAt S.valuation p) :
    solveFixpoint F S' = solveFixpoint F S := by
  rw [solveFixpoint, solveFixpoint, groundFixpoint_congr hdomain]
  refine Except.bind_congr_ok fun G hG => ?_
  cases G with
  | none => simp only
  | some G =>
      have hground := unlessInfinite_eq_some.mp hG
      have hbodies : SameBodies S S' G.defined G.allRules := by
        refine sameBodies_of_sameAt hvocabulary hdomain fun g hg p hp hopen => h p ?_
        obtain ⟨r, hr, -, hsymbols⟩ := exists_rule_of_mem_groundFixpoint F hground g hg
        exact mem_openSymbols.mpr
          ⟨⟨r, hr, hsymbols hp⟩, fun hdefined => hopen (hheads G hground hdefined)⟩
      simp only [fixpointModel, solveLevel_congr hbodies]

end Solutions

end ModelExpansion
