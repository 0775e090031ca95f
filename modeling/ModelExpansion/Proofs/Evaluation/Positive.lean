import ModelExpansion.Proofs.Evaluation.Polarity

/-! # Positive occurrences
Where the atoms of some symbols stand below an even number of negative signs, and outside
equivalences and aggregates, nobody asks for their truth at negative occurrences. -/

namespace ModelExpansion

/-! ## Occurrences that are not positive -/

mutual

/-- The symbols of the atoms that a formula, at an occurrence of its own, has at negative ones, and
all symbols inside equivalences and aggregates. -/
def Formula.nonpositive (positive : Bool) : Formula → List SymbolId
  | .atom sign p args => (if positive == sign then [] else [p]) ++ Term.aggregateSymbolsList args
  | .junction sign _ fs => Formula.nonpositiveList (positive == sign) fs
  | .quantified sign _ _ f => f.nonpositive (positive == sign)
  | .equivalence _ l r => l.symbols ++ r.symbols
  | .comparison _ ts _ => Term.aggregateSymbolsList ts

def Formula.nonpositiveList (positive : Bool) : List Formula → List SymbolId
  | [] => []
  | f :: fs => f.nonpositive positive ++ Formula.nonpositiveList positive fs

end

mutual

theorem Formula.aggregateSymbols_subset_nonpositive : ∀ (f : Formula) (positive : Bool),
    f.aggregateSymbols ⊆ f.nonpositive positive
  | .atom _ _ _, _ => List.subset_append_right _ _
  | .junction sign _ fs, positive =>
    Formula.aggregateSymbolsList_subset_nonpositiveList fs (positive == sign)
  | .quantified sign _ _ f, positive =>
    Formula.aggregateSymbols_subset_nonpositive f (positive == sign)
  | .equivalence sign l r, _ => Formula.aggregateSymbols_subset (.equivalence sign l r)
  | .comparison _ _ _, _ => List.Subset.refl _

theorem Formula.aggregateSymbolsList_subset_nonpositiveList :
    ∀ (fs : List Formula) (positive : Bool),
    Formula.aggregateSymbolsList fs ⊆ Formula.nonpositiveList positive fs
  | [], _ => List.Subset.refl _
  | f :: fs, positive =>
      append_subset_append (Formula.aggregateSymbols_subset_nonpositive f positive)
        (Formula.aggregateSymbolsList_subset_nonpositiveList fs positive)

end

/-! ## What is read -/

/-- Two sources that differ at most at the negative occurrences of the atoms of some symbols. -/
structure Valuation.SamePositive (v v' : Valuation) (symbols : List SymbolId) : Prop where
  positive : ∀ p t, v.atomAt true p t = v'.atomAt true p t
  same : ∀ p, p ∉ symbols → v.SameAt v' p
  function : ∀ f t, v.function f t = v'.function f t

section Congruence

variable {v v' : Valuation} {symbols : List SymbolId}

mutual

/-- Without negative occurrences of some symbols, their atoms are read at positive ones only. -/
theorem evalFormula_congr_positive (h : v.SamePositive v' symbols) :
    ∀ (f : Formula) {positive : Bool},
    (∀ p ∈ f.nonpositive positive, p ∉ symbols) →
    evalFormula v positive f = evalFormula v' positive f
  | .atom sign p args, positive, hf => by
      rw [Formula.nonpositive, List.forall_mem_append] at hf
      have hargs : evalArgs v (positive == sign) args = evalArgs v' (positive == sign) args :=
        evalArgs_congr_functions args (fun q hq => h.same q (hf.2 q hq)) fun f _ => h.function f
      have hatom : ∀ t, v.atomAt (positive == sign) p t = v'.atomAt (positive == sign) p t := by
        intro t
        cases hsign : positive == sign with
        | true => exact h.positive p t
        | false =>
            rw [hsign] at hf
            exact (h.same p (hf.1 p List.mem_cons_self)).atomAt false t
      simp only [evalFormula, hargs, hatom]
  | .junction sign conjunctive children, positive, hf => by
      rw [evalFormula, evalFormula, evalChildren_congr_positive h children hf]
  | .quantified _ _ _ _, positive, hf => by rw [evalFormula, evalFormula]
  | .equivalence sign left right, positive, hf =>
      evalFormula_congr (.equivalence sign left right) fun p hp => h.same p (hf p hp)
  | .comparison sign terms comparators, positive, hf => by
      rw [evalFormula, evalFormula,
        evalTerms_congr_functions terms (fun q hq => h.same q (hf q hq)) fun f _ => h.function f]

theorem evalChildren_congr_positive (h : v.SamePositive v' symbols) : ∀ (fs : List Formula)
    {positive conjunctive : Bool} {acc : Truth},
    (∀ p ∈ Formula.nonpositiveList positive fs, p ∉ symbols) →
    evalChildren v positive conjunctive acc fs = evalChildren v' positive conjunctive acc fs
  | [], positive, conjunctive, acc, hf => by rw [evalChildren, evalChildren]
  | f :: fs, positive, conjunctive, acc, hf => by
      rw [Formula.nonpositiveList, List.forall_mem_append] at hf
      have rest : ∀ acc, evalChildren v positive conjunctive acc fs =
          evalChildren v' positive conjunctive acc fs :=
        fun _ => evalChildren_congr_positive h fs hf.2
      simp only [evalChildren, evalFormula_congr_positive h f hf.1, rest]

end

end Congruence

end ModelExpansion
