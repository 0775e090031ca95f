import Mathlib.Order.Lattice
import ModelExpansion.Evaluation
import ModelExpansion.Proofs.Grounding

/-! # Evaluation by polarity
A formula does not become less true when atoms become more true at its positive occurrences and less
true at its negative ones. Terms are read alike as long as the aggregates in them are. -/

namespace ModelExpansion

/-! ## The order of truth -/

namespace Truth

/-- False comes first, then what is not decided, then true. -/
def rank : Truth → Nat
  | no => 0
  | unknown => 1
  | yes => 2

theorem rank_injective : Function.Injective rank := by
  intro a b h
  cases a <;> cases b <;> simp_all [rank]

instance : PartialOrder Truth := PartialOrder.lift rank rank_injective

theorem le_iff {a b : Truth} : a ≤ b ↔ a.rank ≤ b.rank := Iff.rfl

theorem eq_yes_of_yes_le {a : Truth} (h : yes ≤ a) : a = yes := by
  cases a <;> simp_all [le_iff, rank]

theorem ofBool_le_iff {a b : Bool} : ofBool a ≤ ofBool b ↔ (a = true → b = true) := by
  cases a <;> cases b <;> simp [le_iff, rank, ofBool]

def join (conjunctive : Bool) (a b : Truth) : Truth := if conjunctive then a.and b else a.or b

/-- The second value is at least as true at a positive occurrence and at most as true at a negative
one. -/
def Grows (positive : Bool) (a b : Truth) : Prop := if positive then a ≤ b else b ≤ a

namespace Grows

variable {positive sign : Bool} {a a' b b' : Truth}

theorem refl (positive : Bool) (a : Truth) : Grows positive a a := by
  cases positive <;> exact le_refl a

theorem withSign (h : Grows (positive == sign) a b) :
    Grows positive (a.withSign sign) (b.withSign sign) := by
  cases positive <;> cases sign <;> cases a <;> cases b <;>
    simp_all [Grows, le_iff, rank, Truth.not]

theorem not (h : Grows (!positive) a b) : Grows positive a.not b.not := by
  cases positive <;> cases a <;> cases b <;> simp_all [Grows, le_iff, rank, Truth.not]

theorem and (ha : Grows positive a a') (hb : Grows positive b b') :
    Grows positive (a.and b) (a'.and b') := by
  cases positive <;> cases a <;> cases a' <;> cases b <;> cases b' <;>
    simp_all [Grows, le_iff, rank, Truth.and]

theorem or (ha : Grows positive a a') (hb : Grows positive b b') :
    Grows positive (a.or b) (a'.or b') := by
  cases positive <;> cases a <;> cases a' <;> cases b <;> cases b' <;>
    simp_all [Grows, le_iff, rank, Truth.or]

theorem join (conjunctive : Bool) (ha : Grows positive a a') (hb : Grows positive b b') :
    Grows positive (a.join conjunctive b) (a'.join conjunctive b') := by
  cases conjunctive
  · exact ha.or hb
  · exact ha.and hb

/-- When the value that decides a junction grows into one that does not, it was the least or the
greatest. -/
theorem of_decided {conjunctive : Bool} (h : Grows positive (.ofBool !conjunctive) b)
    (hb : b ≠ .ofBool !conjunctive) (c : Truth) : Grows positive (.ofBool !conjunctive) c := by
  cases positive <;> cases conjunctive <;> cases b <;> cases c <;>
    simp_all [Grows, le_iff, rank, ofBool]

theorem to_decided {conjunctive : Bool} (h : Grows positive a (.ofBool !conjunctive))
    (ha : a ≠ .ofBool !conjunctive) (c : Truth) : Grows positive c (.ofBool !conjunctive) := by
  cases positive <;> cases conjunctive <;> cases a <;> cases c <;>
    simp_all [Grows, le_iff, rank, ofBool]

end Grows

end Truth

/-! ## Symbols inside aggregates -/

mutual

def Term.aggregateSymbols : Term → List SymbolId
  | .var _ | .element _ => []
  | .apply _ args => Term.aggregateSymbolsList args
  | .aggregate _ s => s.symbols

def Formula.aggregateSymbols : Formula → List SymbolId
  | .atom _ _ args => Term.aggregateSymbolsList args
  | .junction _ _ fs => Formula.aggregateSymbolsList fs
  | .quantified _ _ _ f => f.aggregateSymbols
  | .equivalence _ l r => l.aggregateSymbols ++ r.aggregateSymbols
  | .comparison _ ts _ => Term.aggregateSymbolsList ts

def Term.aggregateSymbolsList : List Term → List SymbolId
  | [] => []
  | t :: ts => t.aggregateSymbols ++ Term.aggregateSymbolsList ts

def Formula.aggregateSymbolsList : List Formula → List SymbolId
  | [] => []
  | f :: fs => f.aggregateSymbols ++ Formula.aggregateSymbolsList fs

end

theorem append_subset_append {α : Type} {xs xs' ys ys' : List α} (hxs : xs ⊆ xs') (hys : ys ⊆ ys') :
    xs ++ ys ⊆ xs' ++ ys' :=
  List.append_subset.mpr ⟨List.subset_append_of_subset_left _ hxs,
    List.subset_append_of_subset_right _ hys⟩

mutual

theorem Term.aggregateSymbols_subset : ∀ t : Term, t.aggregateSymbols ⊆ t.symbols
  | .var _ | .element _ => List.Subset.refl _
  | .apply _ args => List.subset_cons_of_subset _ (Term.aggregateSymbolsList_subset args)
  | .aggregate _ _ => List.Subset.refl _

theorem Formula.aggregateSymbols_subset : ∀ f : Formula, f.aggregateSymbols ⊆ f.symbols
  | .atom _ _ args => List.subset_cons_of_subset _ (Term.aggregateSymbolsList_subset args)
  | .junction _ _ fs => Formula.aggregateSymbolsList_subset fs
  | .quantified _ _ _ f => Formula.aggregateSymbols_subset f
  | .equivalence _ l r =>
      append_subset_append (Formula.aggregateSymbols_subset l) (Formula.aggregateSymbols_subset r)
  | .comparison _ ts _ => Term.aggregateSymbolsList_subset ts

theorem Term.aggregateSymbolsList_subset : ∀ ts : List Term,
    Term.aggregateSymbolsList ts ⊆ Term.symbolsList ts
  | [] => List.Subset.refl _
  | t :: ts =>
      append_subset_append (Term.aggregateSymbols_subset t) (Term.aggregateSymbolsList_subset ts)

theorem Formula.aggregateSymbolsList_subset : ∀ fs : List Formula,
    Formula.aggregateSymbolsList fs ⊆ Formula.symbolsList fs
  | [] => List.Subset.refl _
  | f :: fs =>
      append_subset_append (Formula.aggregateSymbols_subset f)
        (Formula.aggregateSymbolsList_subset fs)

end

/-! ## What is read -/

namespace Valuation

/-- Two sources that answer alike for a symbol. -/
structure SameAt (v v' : Valuation) (p : SymbolId) : Prop where
  atomAt : ∀ positive t, v.atomAt positive p t = v'.atomAt positive p t
  function : ∀ t, v.function p t = v'.function p t

end Valuation

section Congruence

variable {v v' : Valuation}

mutual

theorem evalFormula_congr : ∀ (f : Formula) {positive : Bool}, (∀ p ∈ f.symbols, v.SameAt v' p) →
    evalFormula v positive f = evalFormula v' positive f
  | .atom sign p args, positive, h => by
      rw [Formula.symbols, List.forall_mem_cons] at h
      simp only [evalFormula, evalArgs_congr args h.2, h.1.atomAt]
  | .junction sign conjunctive children, positive, h => by
      rw [evalFormula, evalFormula, evalChildren_congr children h]
  | .quantified _ _ _ _, positive, h => by rw [evalFormula, evalFormula]
  | .equivalence sign left right, positive, h => by
      rw [Formula.symbols, List.forall_mem_append] at h
      simp only [evalFormula, evalFormula_congr left h.1, evalFormula_congr right h.2]
  | .comparison sign terms comparators, positive, h => by
      rw [evalFormula, evalFormula, evalTerms_congr terms h]

theorem evalChildren_congr : ∀ (fs : List Formula) {positive conjunctive : Bool} {acc : Truth},
    (∀ p ∈ Formula.symbolsList fs, v.SameAt v' p) →
    evalChildren v positive conjunctive acc fs = evalChildren v' positive conjunctive acc fs
  | [], positive, conjunctive, acc, h => by rw [evalChildren, evalChildren]
  | f :: fs, positive, conjunctive, acc, h => by
      rw [Formula.symbolsList, List.forall_mem_append] at h
      have rest : ∀ acc, evalChildren v positive conjunctive acc fs =
          evalChildren v' positive conjunctive acc fs :=
        fun _ => evalChildren_congr fs h.2
      simp only [evalChildren, evalFormula_congr f h.1, rest]

theorem evalTerm_congr : ∀ (t : Term) {positive : Bool}, (∀ p ∈ t.symbols, v.SameAt v' p) →
    evalTerm v positive t = evalTerm v' positive t
  | .var _, positive, h => by rw [evalTerm, evalTerm]
  | .element _, positive, h => by rw [evalTerm, evalTerm]
  | .apply f args, positive, h => by
      rw [Term.symbols, List.forall_mem_cons] at h
      simp only [evalTerm, evalArgs_congr args h.2, h.1.function]
  | .aggregate kind set, positive, h => by
      rw [evalTerm, evalTerm, evalSet_congr kind set h]

theorem evalTerms_congr : ∀ (ts : List Term) {positive : Bool},
    (∀ p ∈ Term.symbolsList ts, v.SameAt v' p) → evalTerms v positive ts = evalTerms v' positive ts
  | [], positive, h => by rw [evalTerms, evalTerms]
  | t :: ts, positive, h => by
      rw [Term.symbolsList, List.forall_mem_append] at h
      simp only [evalTerms, evalTerm_congr t h.1, evalTerms_congr ts h.2]

theorem evalArgs_congr : ∀ (ts : List Term) {positive : Bool},
    (∀ p ∈ Term.symbolsList ts, v.SameAt v' p) → evalArgs v positive ts = evalArgs v' positive ts
  | [], positive, h => by rw [evalArgs, evalArgs]
  | t :: ts, positive, h => by
      rw [Term.symbolsList, List.forall_mem_append] at h
      simp only [evalArgs, evalTerm_congr t h.1, evalArgs_congr ts h.2]

theorem evalSet_congr : ∀ (kind : Aggregate) (set : SetExpr) {positive : Bool},
    (∀ p ∈ set.symbols, v.SameAt v' p) → evalSet v positive kind set = evalSet v' positive kind set
  | kind, .enumerated members, positive, h => by
      rw [evalSet, evalSet, evalMembers_congr kind members h]
  | kind, .comprehension _ _ _, positive, h => by rw [evalSet, evalSet]

theorem evalMembers_congr :
    ∀ (kind : Aggregate) (ms : List Member) {positive : Bool} {acc : Option Int}
    {unknown : Bool}, (∀ p ∈ SetExpr.symbolsMembers ms, v.SameAt v' p) →
    evalMembers v positive kind acc unknown ms = evalMembers v' positive kind acc unknown ms
  | kind, [], positive, acc, unknown, h => by rw [evalMembers, evalMembers]
  | kind, (condition, weight) :: ms, positive, acc, unknown, h => by
      rw [SetExpr.symbolsMembers, List.forall_mem_append, List.forall_mem_append] at h
      have rest : ∀ acc unknown,
          evalMembers v positive kind acc unknown ms =
          evalMembers v' positive kind acc unknown ms :=
        fun _ _ => evalMembers_congr kind ms h.2
      simp only [evalMembers, evalFormula_congr condition h.1.1, evalTerm_congr weight h.1.2, rest]

end

mutual

/-- Outside aggregates terms read functions only. -/
theorem evalTerm_congr_functions :
    ∀ (t : Term) {positive : Bool}, (∀ p ∈ t.aggregateSymbols, v.SameAt v' p) →
    (∀ f ∈ t.symbols, ∀ u, v.function f u = v'.function f u) →
    evalTerm v positive t = evalTerm v' positive t
  | .var _, positive, ha, h => by rw [evalTerm, evalTerm]
  | .element _, positive, ha, h => by rw [evalTerm, evalTerm]
  | .apply f args, positive, ha, h => by
      rw [Term.symbols, List.forall_mem_cons] at h
      simp only [evalTerm, evalArgs_congr_functions args ha h.2, h.1]
  | .aggregate kind set, positive, ha, h => by
      rw [evalTerm, evalTerm, evalSet_congr kind set ha]

theorem evalTerms_congr_functions : ∀ (ts : List Term) {positive : Bool},
    (∀ p ∈ Term.aggregateSymbolsList ts, v.SameAt v' p) →
    (∀ f ∈ Term.symbolsList ts, ∀ u, v.function f u = v'.function f u) →
    evalTerms v positive ts = evalTerms v' positive ts
  | [], positive, ha, h => by rw [evalTerms, evalTerms]
  | t :: ts, positive, ha, h => by
      rw [Term.aggregateSymbolsList, List.forall_mem_append] at ha
      rw [Term.symbolsList, List.forall_mem_append] at h
      simp only [evalTerms, evalTerm_congr_functions t ha.1 h.1,
        evalTerms_congr_functions ts ha.2 h.2]

theorem evalArgs_congr_functions : ∀ (ts : List Term) {positive : Bool},
    (∀ p ∈ Term.aggregateSymbolsList ts, v.SameAt v' p) →
    (∀ f ∈ Term.symbolsList ts, ∀ u, v.function f u = v'.function f u) →
    evalArgs v positive ts = evalArgs v' positive ts
  | [], positive, ha, h => by rw [evalArgs, evalArgs]
  | t :: ts, positive, ha, h => by
      rw [Term.aggregateSymbolsList, List.forall_mem_append] at ha
      rw [Term.symbolsList, List.forall_mem_append] at h
      simp only [evalArgs, evalTerm_congr_functions t ha.1 h.1,
        evalArgs_congr_functions ts ha.2 h.2]

end

end Congruence

/-! ## Growing truth -/

/-- Atoms are more true at positive occurrences and less true at negative ones. Some symbols are not
functions, and all others are read alike. -/
structure Valuation.Below (v v' : Valuation) (defined : List SymbolId) : Prop where
  atomAt : ∀ positive p t, Truth.Grows positive (v.atomAt positive p t) (v'.atomAt positive p t)
  function : ∀ f ∈ defined, ∀ t e, v.function f t ≠ .ok e
  same : ∀ p, p ∉ defined → v.SameAt v' p

/-- A junction ends at the child that decides it, or else goes on with the others. -/
theorem evalChildren_cons_eq_ok {v : Valuation} {positive conjunctive : Bool} {acc y : Truth}
    {f : Formula}
    {fs : List Formula} (h : evalChildren v positive conjunctive acc (f :: fs) = .ok y) :
    ∃ x, evalFormula v positive f = .ok x ∧
      if acc.join conjunctive x = .ofBool !conjunctive then y = .ofBool !conjunctive
      else evalChildren v positive conjunctive (acc.join conjunctive x) fs = .ok y := by
  rw [evalChildren, Except.bind_eq_ok] at h
  obtain ⟨x, hx, h⟩ := h
  refine ⟨x, hx, ?_⟩
  change (if acc.join conjunctive x = .ofBool !conjunctive then pure (acc.join conjunctive x)
    else evalChildren v positive conjunctive (acc.join conjunctive x) fs) = .ok y at h
  by_cases hdecided : acc.join conjunctive x = .ofBool !conjunctive
  · rw [if_pos hdecided, Except.pure_eq_ok] at h
    rw [if_pos hdecided, ← h, hdecided]
  · rwa [if_neg hdecided] at h ⊢

section Growth

variable {v v' : Valuation} {defined : List SymbolId}

mutual

theorem evalFormula_grows (hv : v.Below v' defined) :
    ∀ (f : Formula) {positive : Bool} {x x' : Truth},
    (∀ p ∈ f.aggregateSymbols, p ∉ defined) →
    evalFormula v positive f = .ok x → evalFormula v' positive f = .ok x' →
    Truth.Grows positive x x'
  | .atom sign p args, positive, x, x', hf, h, h' => by
      rw [evalFormula, Except.bind_eq_ok] at h h'
      obtain ⟨a, ha, h⟩ := h
      obtain ⟨a', ha', h'⟩ := h'
      obtain rfl := evalArgs_same hv args hf ha ha'
      cases a with
      | known t =>
          cases h
          cases h'
          exact (hv.atomAt _ p t).withSign
      | undefined =>
          cases h
          cases h'
          exact .refl _ _
      | unknown =>
          cases h
          cases h'
          exact .refl _ _
  | .junction sign conjunctive children, positive, x, x', hf, h, h' => by
      rw [evalFormula, Except.bind_eq_ok] at h h'
      obtain ⟨y, hy, h⟩ := h
      obtain ⟨y', hy', h'⟩ := h'
      cases h
      cases h'
      exact (evalChildren_grows hv children hf (.refl _ _) hy hy').withSign
  | .quantified _ _ _ _, positive, x, x', hf, h, h' => by
      rw [evalFormula] at h
      cases h
  | .equivalence sign left right, positive, x, x', hf, h, h' => by
      rw [Formula.aggregateSymbols, List.forall_mem_append] at hf
      simp only [evalFormula, Except.bind_eq_ok] at h h'
      obtain ⟨l, hl, r, hr, nl, hnl, nr, hnr, h⟩ := h
      obtain ⟨l', hl', r', hr', nl', hnl', nr', hnr', h'⟩ := h'
      cases h
      cases h'
      have both :=
        (evalFormula_grows hv left hf.1 hl hl').and (evalFormula_grows hv right hf.2 hr hr')
      have neither :=
        (evalFormula_grows hv left hf.1 hnl hnl').not.and
          (evalFormula_grows hv right hf.2 hnr hnr').not
      exact (both.or neither).withSign
  | .comparison sign terms comparators, positive, x, x', hf, h, h' => by
      simp only [evalFormula, Except.bind_eq_ok] at h h'
      obtain ⟨-, -, ys, hys, h⟩ := h
      obtain ⟨-, -, ys', hys', h'⟩ := h'
      obtain rfl := evalTerms_same hv terms hf hys hys'
      cases h
      cases h'
      exact .refl _ _

theorem evalChildren_grows (hv : v.Below v' defined) :
    ∀ (fs : List Formula) {positive conjunctive : Bool}
    {acc acc' y y' : Truth}, (∀ p ∈ Formula.aggregateSymbolsList fs, p ∉ defined) →
    Truth.Grows positive acc acc' → evalChildren v positive conjunctive acc fs = .ok y →
    evalChildren v' positive conjunctive acc' fs = .ok y' → Truth.Grows positive y y'
  | [], positive, conjunctive, acc, acc', y, y', hf, hacc, h, h' => by
      rw [evalChildren, Except.pure_eq_ok] at h h'
      rwa [← h, ← h']
  | f :: fs, positive, conjunctive, acc, acc', y, y', hf, hacc, h, h' => by
      rw [Formula.aggregateSymbolsList, List.forall_mem_append] at hf
      obtain ⟨x, hx, h⟩ := evalChildren_cons_eq_ok h
      obtain ⟨x', hx', h'⟩ := evalChildren_cons_eq_ok h'
      have hjoin := hacc.join conjunctive (evalFormula_grows hv f hf.1 hx hx')
      split at h <;> split at h'
      · rw [h, h']
        exact .refl _ _
      · next hdecided hopen =>
          rw [hdecided] at hjoin
          rw [h]
          exact hjoin.of_decided hopen y'
      · next hopen hdecided =>
          rw [hdecided] at hjoin
          rw [h']
          exact hjoin.to_decided hopen y
      · exact evalChildren_grows hv fs hf.2 hjoin h h'

theorem evalTerm_same (hv : v.Below v' defined) : ∀ (t : Term) {positive : Bool} {x x' : TermValue},
    (∀ p ∈ t.aggregateSymbols, p ∉ defined) →
    evalTerm v positive t = .ok x → evalTerm v' positive t = .ok x' → x = x'
  | .var _, positive, x, x', hf, h, h' => by
      rw [evalTerm] at h
      cases h
  | .element _, positive, x, x', hf, h, h' => by
      rw [evalTerm, Except.pure_eq_ok] at h h'
      rw [← h, ← h']
  | .apply f args, positive, x, x', hf, h, h' => by
      rw [evalTerm, Except.bind_eq_ok] at h h'
      obtain ⟨a, ha, h⟩ := h
      obtain ⟨a', ha', h'⟩ := h'
      obtain rfl := evalArgs_same hv args hf ha ha'
      cases a with
      | known t =>
          rw [Except.bind_eq_ok] at h h'
          obtain ⟨e, he, h⟩ := h
          obtain ⟨e', he', h'⟩ := h'
          have hopen : f ∉ defined := fun hdefined => hv.function f hdefined t e he
          rw [(hv.same f hopen).function t, he'] at he
          obtain rfl := Except.ok.inj he
          exact Except.ok.inj (h.symm.trans h')
      | undefined => exact Except.ok.inj (h.symm.trans h')
      | unknown => exact Except.ok.inj (h.symm.trans h')
  | .aggregate kind set, positive, x, x', hf, h, h' => by
      rw [evalTerm, evalSet_congr kind set fun p hp => hv.same p (hf p hp)] at h
      rw [evalTerm] at h'
      exact Except.ok.inj (h.symm.trans h')

theorem evalTerms_same (hv : v.Below v' defined) : ∀ (ts : List Term) {positive : Bool}
    {xs xs' : List TermValue}, (∀ p ∈ Term.aggregateSymbolsList ts, p ∉ defined) →
    evalTerms v positive ts = .ok xs → evalTerms v' positive ts = .ok xs' → xs = xs'
  | [], positive, xs, xs', hf, h, h' => by
      rw [evalTerms, Except.pure_eq_ok] at h h'
      rw [← h, ← h']
  | t :: ts, positive, xs, xs', hf, h, h' => by
      rw [Term.aggregateSymbolsList, List.forall_mem_append] at hf
      simp only [evalTerms, Except.bind_eq_ok] at h h'
      obtain ⟨x, hx, ys, hys, h⟩ := h
      obtain ⟨x', hx', ys', hys', h'⟩ := h'
      obtain rfl := evalTerm_same hv t hf.1 hx hx'
      obtain rfl := evalTerms_same hv ts hf.2 hys hys'
      exact Except.ok.inj (h.symm.trans h')

theorem evalArgs_same (hv : v.Below v' defined) :
    ∀ (ts : List Term) {positive : Bool} {a a' : ArgValues},
    (∀ p ∈ Term.aggregateSymbolsList ts, p ∉ defined) →
    evalArgs v positive ts = .ok a → evalArgs v' positive ts = .ok a' → a = a'
  | [], positive, a, a', hf, h, h' => by
      rw [evalArgs, Except.pure_eq_ok] at h h'
      rw [← h, ← h']
  | t :: ts, positive, a, a', hf, h, h' => by
      rw [Term.aggregateSymbolsList, List.forall_mem_append] at hf
      rw [evalArgs, Except.bind_eq_ok] at h h'
      obtain ⟨x, hx, h⟩ := h
      obtain ⟨x', hx', h'⟩ := h'
      obtain rfl := evalTerm_same hv t hf.1 hx hx'
      cases x with
      | undefined => exact Except.ok.inj (h.symm.trans h')
      | known e =>
          rw [Except.bind_eq_ok] at h h'
          obtain ⟨b, hb, h⟩ := h
          obtain ⟨b', hb', h'⟩ := h'
          obtain rfl := evalArgs_same hv ts hf.2 hb hb'
          exact Except.ok.inj (h.symm.trans h')
      | unknown =>
          rw [Except.bind_eq_ok] at h h'
          obtain ⟨b, hb, h⟩ := h
          obtain ⟨b', hb', h'⟩ := h'
          obtain rfl := evalArgs_same hv ts hf.2 hb hb'
          exact Except.ok.inj (h.symm.trans h')

end

end Growth

end ModelExpansion
