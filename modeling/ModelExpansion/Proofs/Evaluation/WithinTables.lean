import ModelExpansion.Proofs.Evaluation.WellSorted

/-! # Evaluation within the tables
Where the arguments of the atoms of some symbols stay in the tables, these symbols are not read
anywhere else. -/

namespace ModelExpansion

/-! ## Arguments in the tables -/

/-- Whether there are as many arguments as an atom of a symbol takes, and each of them stays in its
table. -/
def Structure.accepts (S : Structure) (p : SymbolId) (args : List Term) : Bool :=
  match S.vocabulary.symbols[p]? with
  | some s => S.rangeOver s.graphSorts args
  | none => false

mutual

/-- Whether the arguments of the atoms of some symbols stay in the tables. What stands inside
aggregates does not count. -/
def Formula.within (S : Structure) (symbols : List SymbolId) : Formula → Bool
  | .atom _ p args => !symbols.contains p || S.accepts p args
  | .junction _ _ fs => Formula.areWithin S symbols fs
  | .quantified _ _ _ f => f.within S symbols
  | .equivalence _ l r => l.within S symbols && r.within S symbols
  | .comparison _ _ _ => true

def Formula.areWithin (S : Structure) (symbols : List SymbolId) : List Formula → Bool
  | [] => true
  | f :: fs => f.within S symbols && Formula.areWithin S symbols fs

end

/-- Functions have values of their result tables only. -/
def Valuation.ValuedIn (v : Valuation) (S : Structure) : Prop :=
  ∀ {f t e}, v.function f t = .ok (some e) → e ∈ S.results f

section Values

variable {v : Valuation} {S : Structure} (hv : v.ValuedIn S)

include hv

theorem mem_elements_of_evalTerm {sort : SortId} {t : Term} {positive : Bool} {e : Element}
    (ht : S.ranges sort t = true) (h : evalTerm v positive t = .ok (.known e)) :
    e ∈ S.elements sort := by
  cases t with
  | element e =>
      cases h
      exact List.contains_iff_mem.mp ht
  | apply f args =>
      rw [Structure.ranges, Bool.and_eq_true, List.all_eq_true] at ht
      rw [evalTerm, Except.bind_eq_ok] at h
      obtain ⟨a, -, h⟩ := h
      cases a with
      | known t =>
          rw [Except.bind_eq_ok] at h
          obtain ⟨o, ho, h⟩ := h
          cases o with
          | some e' =>
              cases h
              exact List.contains_iff_mem.mp (ht.2 e (hv ho))
          | none => cases h
      | undefined => cases h
      | unknown => cases h
  | var x => cases ht
  | aggregate kind set => cases ht

theorem mem_elements_of_evalArgs {sorts : List SortId} {ts : List Term}
    {positive : Bool} {t : Tuple}
    (hts : S.rangeOver sorts ts = true) (h : evalArgs v positive ts = .ok (.known t)) :
    List.Forall₂ (fun sort e => e ∈ S.elements sort) sorts t := by
  induction ts generalizing sorts t with
  | nil =>
      cases sorts with
      | cons _ _ => cases hts
      | nil =>
          cases h
          exact .nil
  | cons a ts ih =>
      cases sorts with
      | nil => cases hts
      | cons sort sorts =>
          rw [Structure.rangeOver, Bool.and_eq_true] at hts
          rw [evalArgs, Except.bind_eq_ok] at h
          obtain ⟨x, hx, h⟩ := h
          cases x with
          | undefined => cases h
          | known e =>
              rw [Except.bind_eq_ok] at h
              obtain ⟨b, hb, h⟩ := h
              cases b with
              | known es =>
                  cases h
                  exact .cons (mem_elements_of_evalTerm hv hts.1 hx) (ih hts.2 hb)
              | undefined => cases h
              | unknown => cases h
          | unknown =>
              rw [Except.bind_eq_ok] at h
              obtain ⟨b, -, h⟩ := h
              cases b <;> cases h

theorem inTables_of_accepts {p : SymbolId} {args : List Term} {positive : Bool} {t : Tuple}
    (hargs : S.accepts p args = true) (h : evalArgs v positive args = .ok (.known t)) :
    S.InTables ⟨p, t⟩ := by
  rw [Structure.accepts] at hargs
  cases hs : S.vocabulary.symbols[p]? with
  | none => simp [hs] at hargs
  | some s =>
      simp only [hs] at hargs
      exact Structure.inTables_of_elements hs (mem_elements_of_evalArgs hv hargs h)

end Values

/-! ## What is read -/

namespace Valuation

/-- Two sources that answer alike for a symbol; if it is one of some symbols, then at least within
its tables. -/
structure SameWithin (v v' : Valuation) (S : Structure) (symbols : List SymbolId)
    (p : SymbolId) : Prop where
  atomAt : ∀ positive t, (p ∈ symbols → S.InTables ⟨p, t⟩) →
    v.atomAt positive p t = v'.atomAt positive p t
  function : ∀ t, v.function p t = v'.function p t

theorem SameWithin.sameAt {v v' : Valuation} {S : Structure} {symbols : List SymbolId}
    {p : SymbolId} (h : v.SameWithin v' S symbols p) (hp : p ∉ symbols) : v.SameAt v' p :=
  ⟨fun positive t => h.atomAt positive t fun hmem => absurd hmem hp, h.function⟩

end Valuation

section Congruence

variable {v v' : Valuation} {S : Structure} {symbols : List SymbolId}

/-- Arguments read the symbols inside aggregates everywhere, and of the others they read functions
only. -/
theorem evalArgs_congr_within (ts : List Term) {positive : Bool}
    (ha : ∀ p ∈ Term.aggregateSymbolsList ts, p ∉ symbols)
    (h : ∀ p ∈ Term.symbolsList ts, v.SameWithin v' S symbols p) :
    evalArgs v positive ts = evalArgs v' positive ts :=
  evalArgs_congr_functions ts
    (fun p hp => (h p (Term.aggregateSymbolsList_subset ts hp)).sameAt (ha p hp))
    fun p hp => (h p hp).function

theorem evalTerms_congr_within (ts : List Term) {positive : Bool}
    (ha : ∀ p ∈ Term.aggregateSymbolsList ts, p ∉ symbols)
    (h : ∀ p ∈ Term.symbolsList ts, v.SameWithin v' S symbols p) :
    evalTerms v positive ts = evalTerms v' positive ts :=
  evalTerms_congr_functions ts
    (fun p hp => (h p (Term.aggregateSymbolsList_subset ts hp)).sameAt (ha p hp))
    fun p hp => (h p hp).function

mutual

/-- Sources that answer alike within the tables give a formula that stays there the same truth, or
fail alike. -/
theorem evalFormula_congr_within (hv : v'.ValuedIn S) : ∀ (f : Formula) {positive : Bool},
    f.within S symbols = true → (∀ p ∈ f.aggregateSymbols, p ∉ symbols) →
    (∀ p ∈ f.symbols, v.SameWithin v' S symbols p) →
    evalFormula v positive f = evalFormula v' positive f
  | .atom sign p args, positive, hf, ha, h => by
      rw [Formula.symbols, List.forall_mem_cons] at h
      rw [evalFormula, evalFormula, evalArgs_congr_within args ha h.2]
      cases hargs : evalArgs v' (positive == sign) args with
      | error failure => rfl
      | ok a =>
          cases a with
          | known t =>
              have htables : p ∈ symbols → S.InTables ⟨p, t⟩ := by
                intro hp
                rw [Formula.within, List.contains_iff_mem.mpr hp] at hf
                exact inTables_of_accepts hv hf hargs
              simp only [Except.ok_bind, h.1.atomAt _ t htables]
          | undefined => rfl
          | unknown => rfl
  | .junction sign conjunctive children, positive, hf, ha, h => by
      rw [evalFormula, evalFormula, evalChildren_congr_within hv children hf ha h]
  | .quantified _ _ _ _, positive, hf, ha, h => by rw [evalFormula, evalFormula]
  | .equivalence sign left right, positive, hf, ha, h => by
      rw [Formula.within, Bool.and_eq_true] at hf
      rw [Formula.aggregateSymbols, List.forall_mem_append] at ha
      rw [Formula.symbols, List.forall_mem_append] at h
      simp only [evalFormula, evalFormula_congr_within hv left hf.1 ha.1 h.1,
        evalFormula_congr_within hv right hf.2 ha.2 h.2]
  | .comparison sign terms comparators, positive, hf, ha, h => by
      rw [evalFormula, evalFormula, evalTerms_congr_within terms ha h]

theorem evalChildren_congr_within (hv : v'.ValuedIn S) :
    ∀ (fs : List Formula) {positive conjunctive : Bool}
    {acc : Truth}, Formula.areWithin S symbols fs = true →
    (∀ p ∈ Formula.aggregateSymbolsList fs, p ∉ symbols) →
    (∀ p ∈ Formula.symbolsList fs, v.SameWithin v' S symbols p) →
    evalChildren v positive conjunctive acc fs = evalChildren v' positive conjunctive acc fs
  | [], positive, conjunctive, acc, hf, ha, h => by rw [evalChildren, evalChildren]
  | f :: fs, positive, conjunctive, acc, hf, ha, h => by
      rw [Formula.areWithin, Bool.and_eq_true] at hf
      rw [Formula.aggregateSymbolsList, List.forall_mem_append] at ha
      rw [Formula.symbolsList, List.forall_mem_append] at h
      have rest : ∀ acc, evalChildren v positive conjunctive acc fs =
          evalChildren v' positive conjunctive acc fs :=
        fun _ => evalChildren_congr_within hv fs hf.2 ha.2 h.2
      simp only [evalChildren, evalFormula_congr_within hv f hf.1 ha.1 h.1, rest]

end

end Congruence

end ModelExpansion
