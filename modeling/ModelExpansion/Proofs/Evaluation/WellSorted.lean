import ModelExpansion.Evaluation
import ModelExpansion.Proofs.Encoding.Aggregates
import ModelExpansion.Proofs.Evaluation.Polarity
import ModelExpansion.Proofs.Structures

/-! # Evaluation of well-sorted nodes
Where every argument stays in its table, the evaluation over a source that decides the atoms of the
tables finds the classical truth. -/

namespace ModelExpansion

/-! ## Well-sorted nodes -/

namespace Structure

/-- Whether a term only denotes elements of a sort: it is one of them, or an application of a
function whose values are. -/
def ranges (S : Structure) (sort : SortId) : Term → Bool
  | .element e => (S.elements sort).contains e
  | .apply f _ => S.isFunction f && (S.results f).all (S.elements sort).contains
  | .var _ | .aggregate _ _ => false

/-- Whether there is one argument for each sort, which ranges over it. -/
def rangeOver (S : Structure) : List SortId → List Term → Bool
  | [], [] => true
  | sort :: sorts, t :: ts => S.ranges sort t && S.rangeOver sorts ts
  | _, _ => false

end Structure

mutual

/-- Whether every argument stays in the table at its position. -/
def Term.wellSorted (S : Structure) : Term → Bool
  | .var _ | .element _ => true
  | .apply f args =>
    (match S.vocabulary.symbols[f]? with
    | some s => S.rangeOver s.args args
    | none => false) && Term.areWellSorted S args
  | .aggregate _ set => set.wellSorted S

def SetExpr.wellSorted (S : Structure) : SetExpr → Bool
  | .enumerated ms => SetExpr.areWellSorted S ms
  | .comprehension _ c w => c.wellSorted S && w.wellSorted S

def Formula.wellSorted (S : Structure) : Formula → Bool
  | .atom _ p args =>
    (match S.vocabulary.symbols[p]? with
    | some s => S.rangeOver s.graphSorts args
    | none => false) && Term.areWellSorted S args
  | .junction _ _ fs => Formula.areWellSorted S fs
  | .quantified _ _ _ f => f.wellSorted S
  | .equivalence _ l r => l.wellSorted S && r.wellSorted S
  | .comparison _ ts _ => Term.areWellSorted S ts

def Term.areWellSorted (S : Structure) : List Term → Bool
  | [] => true
  | t :: ts => t.wellSorted S && Term.areWellSorted S ts

def Formula.areWellSorted (S : Structure) : List Formula → Bool
  | [] => true
  | f :: fs => f.wellSorted S && Formula.areWellSorted S fs

def SetExpr.areWellSorted (S : Structure) : List Member → Bool
  | [] => true
  | (c, w) :: ms => c.wellSorted S && w.wellSorted S && SetExpr.areWellSorted S ms

end

/-! ## Sources that decide the tables -/

/-- A source that answers, for the atoms and the applications over the tables, as a world does. -/
structure Valuation.Decides (v : Valuation) (S : Structure) (W : World) : Prop where
  atomAt : ∀ positive {p t}, S.InTables ⟨p, t⟩ → v.atomAt positive p t = .ofBool (W.atom p t)
  function : ∀ {f s result}, S.vocabulary.symbols[f]? = some s → s.result = some result →
    ∀ t ∈ product (s.args.map S.elements), ∃ e ∈ S.results f,
      v.function f t = .ok (some e) ∧ W.image f t = some e
  predicate : ∀ {f}, S.isFunction f = false → ∀ t e, v.function f t ≠ .ok e
  weighted : W.weighted = Aggregate.usesWeights

def TermValue.ofOption : Option Element → TermValue
  | some e => .known e
  | none => .undefined

namespace Truth

theorem withSign_ofBool (sign b : Bool) : (ofBool b).withSign sign = ofBool (b == sign) := by
  cases sign <;> cases b <;> rfl

theorem and_ofBool (a b : Bool) : (ofBool a).and (ofBool b) = ofBool (a && b) := by
  cases a <;> cases b <;> rfl

theorem or_ofBool (a b : Bool) : (ofBool a).or (ofBool b) = ofBool (a || b) := by
  cases a <;> cases b <;> rfl

theorem not_ofBool (b : Bool) : (ofBool b).not = ofBool !b := by cases b <;> rfl

theorem ofBool_injective : Function.Injective ofBool := by
  intro a b h
  cases a <;> cases b <;> first | rfl | cases h

theorem ofBool_ne_unknown (b : Bool) : ofBool b ≠ unknown := by cases b <;> exact Truth.noConfusion

theorem join_ofBool (conjunctive a b : Bool) :
    (ofBool a).join conjunctive (ofBool b) = ofBool (if conjunctive then a && b else a || b) := by
  cases conjunctive
  · exact or_ofBool a b
  · exact and_ofBool a b

end Truth

theorem linkTruth_ofOption (c : Comparator) (a b : Option Element) :
    c.linkTruth (.ofOption a) (.ofOption b) = .ofBool (World.link c a b) := by
  cases a <;> cases b <;> rfl

theorem linksTruth_ofOption (vals : List (Option Element)) (cs : List Comparator) :
    linksTruth (vals.map .ofOption) cs = .ofBool (World.links vals cs) := by
  induction vals generalizing cs with
  | nil => rfl
  | cons a vals ih =>
      cases vals with
      | nil => rfl
      | cons b vals =>
          cases cs with
          | nil => rfl
          | cons c cs =>
              have hrest := ih cs
              rw [List.map_cons] at hrest
              rw [List.map_cons, List.map_cons, linksTruth, hrest, linkTruth_ofOption,
                Truth.and_ofBool]
              rfl

namespace World

/-- A first child that decides nothing may be left out. -/
theorem junction_cons_neutral (conjunctive : Bool) (bs : List Bool) :
    junction conjunctive (conjunctive :: bs) = junction conjunctive bs := by
  cases conjunctive <;> rfl

theorem junction_cons_decided (conjunctive : Bool) (bs : List Bool) :
    junction conjunctive ((!conjunctive) :: bs) = !conjunctive := by
  cases conjunctive <;> rfl

theorem junction_cons_cons (conjunctive a b : Bool) (bs : List Bool) :
    junction conjunctive (a :: b :: bs) =
    junction conjunctive ((if conjunctive then a && b else a || b) :: bs) := by
  cases conjunctive <;> cases a <;> cases b <;> rfl

end World

namespace Structure

variable {S : Structure}

theorem has_of_mem_elements {sort : SortId} {e : Element}
    (h : e ∈ S.elements sort) : S.Has sort e := by
  cases hdomain : S.domain sort with
  | error failure =>
      rw [elements, hdomain] at h
      cases h
  | ok es =>
      rw [elements_of_domain hdomain] at h
      exact (has_iff_mem hdomain).mpr h

theorem inTables_of_elements {p : SymbolId} {s : Symbol} {t : Tuple}
    (hs : S.vocabulary.symbols[p]? = some s)
    (ht : List.Forall₂ (fun sort e => e ∈ S.elements sort) s.graphSorts t) : S.InTables ⟨p, t⟩ :=
  inTables_iff.mpr ⟨s, Vocabulary.symbol_eq_ok_iff.mpr hs,
    ht.imp fun _ _ he => has_of_mem_elements he⟩

theorem mem_product_of_elements {sorts : List SortId} {t : Tuple}
    (ht : List.Forall₂ (fun sort e => e ∈ S.elements sort) sorts t) :
    t ∈ product (sorts.map S.elements) :=
  mem_product.mpr (List.forall₂_map_left_iff.mpr ht)

end Structure

/-! ## Evaluation -/

section Decides

variable {v : Valuation} {S : Structure} {W : World}

theorem Valuation.Decides.weight_of_unweighted (hv : v.Decides S W) {kind : Aggregate}
    (hkind : ¬ kind.usesWeights = true) (o : Option Element) : W.weight kind o = some 1 := by
  rw [World.weight, hv.weighted, if_neg hkind]

theorem Valuation.Decides.weight_of_weighted (hv : v.Decides S W) {kind : Aggregate}
    (hkind : kind.usesWeights = true) (o : Option Element) :
    W.weight kind o = o.bind Element.toInt? := by
  rw [World.weight, hv.weighted, if_pos hkind]

/-- Counting takes no notice of weights. -/
theorem combine_of_unweighted {kind : Aggregate} (hkind : ¬ kind.usesWeights = true)
    (acc : Option Int) (m n : Int) : kind.combine acc m = kind.combine acc n := by
  cases kind <;> first | rfl | exact absurd rfl hkind

mutual

theorem evalFormula_decided (hv : v.Decides S W) : ∀ (f : Formula) {positive : Bool} {x : Truth},
    f.wellSorted S = true → evalFormula v positive f = .ok x → x = .ofBool (W.truth [] f)
  | .atom sign p args, positive, x, hf, h => by
      rw [Formula.wellSorted, Bool.and_eq_true] at hf
      obtain ⟨hrange, hargs⟩ := hf
      cases hs : S.vocabulary.symbols[p]? with
      | none => simp [hs] at hrange
      | some s =>
          simp only [hs] at hrange
          rw [evalFormula, Except.bind_eq_ok] at h
          obtain ⟨a, ha, h⟩ := h
          obtain ⟨t, rfl, ht, hvalues⟩ := evalArgs_decided hv args hrange hargs ha
          have hatom := hv.atomAt (positive == sign) (Structure.inTables_of_elements hs ht)
          cases h
          rw [hatom, Truth.withSign_ofBool, World.truth, World.holdsAt, hvalues]
  | .junction sign conjunctive children, positive, x, hf, h => by
      rw [evalFormula, Except.bind_eq_ok] at h
      obtain ⟨y, hy, h⟩ := h
      cases h
      rw [evalChildren_decided hv children hf hy, Truth.withSign_ofBool, World.truth,
        World.junction_cons_neutral]
  | .quantified _ _ _ _, positive, x, hf, h => by
      rw [evalFormula] at h
      cases h
  | .equivalence sign left right, positive, x, hf, h => by
      rw [Formula.wellSorted, Bool.and_eq_true] at hf
      simp only [evalFormula, Except.bind_eq_ok] at h
      obtain ⟨l, hl, r, hr, nl, hnl, nr, hnr, h⟩ := h
      cases h
      rw [evalFormula_decided hv left hf.1 hl, evalFormula_decided hv right hf.2 hr,
        evalFormula_decided hv left hf.1 hnl, evalFormula_decided hv right hf.2 hnr,
        Truth.not_ofBool, Truth.not_ofBool, Truth.and_ofBool, Truth.and_ofBool, Truth.or_ofBool,
        Truth.withSign_ofBool, World.truth]
      cases W.truth [] left <;> cases W.truth [] right <;> rfl
  | .comparison sign terms comparators, positive, x, hf, h => by
      simp only [evalFormula, Except.bind_eq_ok] at h
      obtain ⟨-, -, xs, hxs, h⟩ := h
      cases h
      rw [evalTerms_decided hv terms hf hxs, linksTruth_ofOption,
        Truth.withSign_ofBool, World.truth]

theorem evalChildren_decided (hv : v.Decides S W) :
    ∀ (fs : List Formula) {positive conjunctive a : Bool}
    {y : Truth}, Formula.areWellSorted S fs = true →
    evalChildren v positive conjunctive (.ofBool a) fs = .ok y →
    y = .ofBool (World.junction conjunctive (a :: W.truths [] fs))
  | [], positive, conjunctive, a, y, hf, h => by
      rw [evalChildren, Except.pure_eq_ok] at h
      rw [← h, World.truths]
      cases conjunctive <;> simp [World.junction]
  | f :: fs, positive, conjunctive, a, y, hf, h => by
      rw [Formula.areWellSorted, Bool.and_eq_true] at hf
      obtain ⟨x, hx, h⟩ := evalChildren_cons_eq_ok h
      rw [evalFormula_decided hv f hf.1 hx, Truth.join_ofBool] at h
      rw [World.truths, World.junction_cons_cons]
      generalize (if conjunctive then a && W.truth [] f else a || W.truth [] f) = b at h ⊢
      by_cases hdecided : Truth.ofBool b = .ofBool !conjunctive
      · rw [if_pos hdecided] at h
        rw [h, Truth.ofBool_injective hdecided, World.junction_cons_decided]
      · rw [if_neg hdecided] at h
        exact evalChildren_decided hv fs hf.2 h

theorem evalTerm_decided (hv : v.Decides S W) : ∀ (t : Term) {positive : Bool} {x : TermValue},
    t.wellSorted S = true → evalTerm v positive t = .ok x → x = .ofOption (W.value [] t) ∧
      ∀ sort, S.ranges sort t = true → ∃ e ∈ S.elements sort, W.value [] t = some e
  | .var _, positive, x, ht, h => by
      rw [evalTerm] at h
      cases h
  | .element e, positive, x, ht, h => by
      rw [evalTerm, Except.pure_eq_ok] at h
      rw [← h, World.value]
      exact ⟨rfl, fun sort hsort => ⟨e, List.contains_iff_mem.mp hsort, rfl⟩⟩
  | .apply f args, positive, x, ht, h => by
      rw [Term.wellSorted, Bool.and_eq_true] at ht
      obtain ⟨hrange, hargs⟩ := ht
      cases hs : S.vocabulary.symbols[f]? with
      | none => simp [hs] at hrange
      | some s =>
          simp only [hs] at hrange
          rw [evalTerm, Except.bind_eq_ok] at h
          obtain ⟨a, ha, h⟩ := h
          obtain ⟨t, rfl, ht, hvalues⟩ := evalArgs_decided hv args hrange hargs ha
          rw [Except.bind_eq_ok] at h
          obtain ⟨o, ho, h⟩ := h
          have hfunction : S.isFunction f = true := by
            by_contra hpredicate
            exact hv.predicate (Bool.not_eq_true _ ▸ hpredicate) t o ho
          obtain ⟨s', result, hs', hresult⟩ := Structure.exists_symbol_of_isFunction hfunction
          rw [hs] at hs'
          cases hs'
          obtain ⟨e, he, heval, himage⟩ :=
            hv.function hs hresult t (Structure.mem_product_of_elements ht)
          rw [heval] at ho
          cases ho
          cases h
          rw [World.value, hvalues, Option.bind_some, himage]
          refine ⟨rfl, fun sort hsort => ⟨e, ?_, rfl⟩⟩
          rw [Structure.ranges, Bool.and_eq_true, List.all_eq_true] at hsort
          exact List.contains_iff_mem.mp (hsort.2 e he)
  | .aggregate kind set, positive, x, ht, h => by
      rw [evalTerm] at h
      rw [evalSet_decided hv kind set ht h, World.value]
      exact ⟨rfl, fun sort hsort => by cases hsort⟩

theorem evalTerms_decided (hv : v.Decides S W) :
    ∀ (ts : List Term) {positive : Bool} {xs : List TermValue},
    Term.areWellSorted S ts = true → evalTerms v positive ts = .ok xs →
    xs = (W.values [] ts).map .ofOption
  | [], positive, xs, ht, h => by
      rw [evalTerms, Except.pure_eq_ok] at h
      rw [← h, World.values, List.map_nil]
  | t :: ts, positive, xs, ht, h => by
      rw [Term.areWellSorted, Bool.and_eq_true] at ht
      simp only [evalTerms, Except.bind_eq_ok] at h
      obtain ⟨x, hx, ys, hys, h⟩ := h
      cases h
      rw [(evalTerm_decided hv t ht.1 hx).1, evalTerms_decided hv ts ht.2 hys, World.values,
        List.map_cons]

theorem evalArgs_decided (hv : v.Decides S W) :
    ∀ (ts : List Term) {positive : Bool} {sorts : List SortId}
    {a : ArgValues}, S.rangeOver sorts ts = true → Term.areWellSorted S ts = true →
    evalArgs v positive ts = .ok a → ∃ t, a = .known t ∧
      List.Forall₂ (fun sort e => e ∈ S.elements sort) sorts t ∧ (W.values [] ts).mapM id = some t
  | [], positive, sorts, a, hrange, ht, h => by
      cases sorts with
      | cons _ _ => cases hrange
      | nil =>
          rw [evalArgs, Except.pure_eq_ok] at h
          rw [World.values]
          exact ⟨[], h.symm, .nil, rfl⟩
  | t :: ts, positive, sorts, a, hrange, ht, h => by
      cases sorts with
      | nil => cases hrange
      | cons sort sorts =>
          rw [Structure.rangeOver, Bool.and_eq_true] at hrange
          rw [Term.areWellSorted, Bool.and_eq_true] at ht
          rw [evalArgs, Except.bind_eq_ok] at h
          obtain ⟨x, hx, h⟩ := h
          obtain ⟨rfl, hterm⟩ := evalTerm_decided hv t ht.1 hx
          obtain ⟨e, he, hvalue⟩ := hterm sort hrange.1
          rw [hvalue] at h
          dsimp only [TermValue.ofOption] at h
          rw [Except.bind_eq_ok] at h
          obtain ⟨b, hb, h⟩ := h
          obtain ⟨es, rfl, hes, hvalues⟩ := evalArgs_decided hv ts hrange.2 ht.2 hb
          cases h
          rw [World.values]
          exact ⟨e :: es, rfl, .cons he hes, mapM_id_cons_eq_some.mpr ⟨e, es, hvalue, hvalues, rfl⟩⟩

theorem evalSet_decided (hv : v.Decides S W) :
    ∀ (kind : Aggregate) (set : SetExpr) {positive : Bool}
    {x : TermValue}, set.wellSorted S = true → evalSet v positive kind set = .ok x →
    x = .ofOption (World.fold kind (W.members [] kind set))
  | kind, .enumerated members, positive, x, hset, h => by
      rw [evalSet] at h
      rw [evalMembers_decided hv kind members hset h, World.members, World.fold_eq_foldl_take]
  | kind, .comprehension _ _ _, positive, x, hset, h => by
      rw [evalSet] at h
      cases h

theorem evalMembers_decided (hv : v.Decides S W) :
    ∀ (kind : Aggregate) (ms : List Member) {positive : Bool}
    {acc : Option Int} {x : TermValue}, SetExpr.areWellSorted S ms = true →
    evalMembers v positive kind acc false ms = .ok x →
    x = .ofOption ((((W.listed [] kind ms).foldl (World.take kind) (some acc)).bind id).map .int)
  | kind, [], positive, acc, x, hms, h => by
      rw [evalMembers, Except.pure_eq_ok] at h
      rw [← h, World.listed]
      cases acc <;> rfl
  | kind, (condition, weight) :: ms, positive, acc, x, hms, h => by
      simp only [SetExpr.areWellSorted, Bool.and_eq_true] at hms
      obtain ⟨⟨hcondition, hweight⟩, hms⟩ := hms
      rw [evalMembers, Except.bind_eq_ok] at h
      obtain ⟨c, hc, h⟩ := h
      have htruth := evalFormula_decided hv condition hcondition hc
      rw [World.listed, List.foldl_cons]
      cases hpresent : W.truth [] condition with
      | false =>
          rw [htruth, hpresent] at h
          exact evalMembers_decided hv kind ms hms h
      | true =>
          rw [htruth, hpresent] at h
          dsimp only [Truth.ofBool] at h
          by_cases hkind : kind.usesWeights = true
          · rw [if_pos hkind, Except.bind_eq_ok] at h
            obtain ⟨w, hw, h⟩ := h
            rw [(evalTerm_decided hv weight hweight hw).1] at h
            rw [hv.weight_of_weighted hkind]
            cases hvalue : W.value [] weight with
            | none =>
                rw [hvalue] at h
                cases h
                rw [Option.bind_none, show World.take kind (some acc) (true, none) = none from rfl,
                  World.foldl_take_none]
                rfl
            | some e =>
                rw [hvalue] at h
                cases e with
                | name n => cases h
                | int n => exact evalMembers_decided hv kind ms hms h
          · rw [if_neg hkind] at h
            rw [hv.weight_of_unweighted hkind,
              show World.take kind (some acc) (true, some 1) = some (kind.combine acc 1) from rfl,
              combine_of_unweighted hkind acc 1 0]
            exact evalMembers_decided hv kind ms hms h

end

end Decides

/-! ## Total structures -/

namespace Structure

variable {S M : Structure}

theorem Describes.stored {I : Atom → Bool} (h : S.Describes I M) {p : SymbolId} {t : Tuple}
    (ht : S.InTables ⟨p, t⟩) : M.stored p t = .ofBool (I ⟨p, t⟩) := by
  rw [Structure.stored, h.total ht]
  rfl

theorem value_of_stored {p : SymbolId} {t : Tuple} {b : Bool} (h : S.stored p t = .ofBool b) :
    S.value p t = .ofBool b := by
  rw [Structure.value, h]
  cases b <;> rfl

theorem isTrue_eq_stored (M : Structure) (p : SymbolId) (t : Tuple) :
    M.isTrue ⟨p, t⟩ = (M.stored p t == .yes) := by
  rw [isTrue, Structure.stored]
  cases M.facts[(⟨p, t⟩ : Atom)]? with
  | none => rfl
  | some b => cases b <;> rfl

theorem functionValue_of_image {f : SymbolId} {t : Tuple} {e : Element}
    (h : M.world.image f t = some e) :
    M.functionValue f t = .ok (some e) := by
  change (M.results f).find? (fun v => M.isTrue ⟨f, t ++ [v]⟩) = some e at h
  simp only [isTrue_eq_stored] at h
  cases hvalues : M.resultDomain f with
  | error failure =>
      rw [results, hvalues] at h
      cases h
  | ok values =>
      have hresults : M.results f = values := by rw [results, hvalues]; rfl
      rw [hresults] at h
      rw [functionValue, hvalues, Except.ok_bind, determined?, h]
      rfl

theorem TotalOver.decides (h : S.TotalOver M) : M.valuation.Decides S M.world where
  atomAt positive p t ht := value_of_stored (h.describes.stored ht)
  function {f s result} hs hresult t ht := by
    have helements := elements_congr h.vocabulary h.tables
    have hresults : M.results f = S.elements result :=
      (congrFun (results_congr h.vocabulary h.tables) f).trans (results_eq_elements hs hresult)
    obtain ⟨v, ⟨hv, hatom⟩, -⟩ :=
      h.functional f s result (h.vocabulary.symm ▸ hs) hresult t (helements.symm ▸ ht)
    rw [helements, ← hresults] at hv
    have hsome : (M.world.image f t).isSome = true :=
      List.find?_isSome.mpr ⟨v, hv, by simpa using hatom⟩
    obtain ⟨e, he⟩ := Option.isSome_iff_exists.mp hsome
    have hmem : e ∈ S.results f := by
      rw [results_eq_elements hs hresult, ← hresults]
      exact List.mem_of_find?_eq_some he
    exact ⟨e, hmem, functionValue_of_image he, he⟩
  predicate {f} hf t e he := by
    change M.functionValue f t = .ok e at he
    rw [functionValue, resultDomain, Except.bind_eq_ok] at he
    obtain ⟨values, hvalues, -⟩ := he
    rw [Except.bind_eq_ok] at hvalues
    obtain ⟨result, hresult, -⟩ := hvalues
    rw [h.vocabulary] at hresult
    exact Bool.false_ne_true (hf.symm.trans (isFunction_of_resultSort hresult))
  weighted := rfl

end Structure

end ModelExpansion
