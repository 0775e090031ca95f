import ModelExpansion.Proofs.Evaluation.Precision

/-! # Formulas under an environment
The value of a formula is defined here on the formula itself: a quantifier runs through the tuples
of its variables' tables and an environment says what each variable stands for. Evaluating what the
formula grounds to gives the same value. -/

namespace ModelExpansion

/-! ## Environments -/

/-- What variables stand for, by their numbers. -/
abbrev Environment := Nat → Option Element

namespace Environment

/-- Outside of all binders no variable stands for anything. -/
def empty : Environment := fun _ => none

/-- The environment inside a binder. Its own variables stand for the elements of a tuple, of two
with one number the later one; all others stand for what they did outside. -/
def bind (ρ : Environment) (vars : List Var) (t : Tuple) : Environment := fun n =>
  (((vars.zip t).reverse.find? fun xe => xe.1.id == n).map Prod.snd).or (ρ n)

end Environment

namespace Binding

/-- What variables stand for under a binding. -/
def environment (b : Binding) : Environment := fun n => b.lookup n

theorem environment_nil : environment [] = Environment.empty := rfl

theorem environment_extend (b : Binding) (vars : List Var) (t : Tuple) :
    (b.extend vars t).environment = b.environment.bind vars t := by
  funext n
  rw [environment, Environment.bind, extend]
  generalize vars.zip t = pairs
  induction pairs generalizing b with
  | nil => rfl
  | cons xe pairs ih =>
      rw [List.foldl_cons, ih, environment, List.lookup_cons, List.reverse_cons, List.find?_append,
        Option.map_or, Option.or_assoc, List.find?_singleton]
      congr 1
      by_cases hn : n = xe.1.id
      · simp [hn]
      · rw [beq_eq_false_iff_ne.mpr hn, beq_eq_false_iff_ne.mpr (Ne.symm hn)]
        rfl

end Binding

/-! ## Kleene values -/

/-- The tuples that variables may stand for. -/
def Structure.tuplesOf (S : Structure) (vars : List Var) : List Tuple :=
  product (vars.map fun x => S.elements x.sort)

def Truth.junction (conjunctive : Bool) (xs : List Truth) : Truth :=
  xs.foldr (Truth.join conjunctive) (.ofBool conjunctive)

/-- Arguments have no values together if one of them has none, and else are known if all of them
are. -/
def ArgValues.ofValues (xs : List TermValue) : ArgValues :=
  if .undefined ∈ xs then .undefined
  else
    match xs.mapM TermValue.known? with
    | some t => .known t
    | none => .unknown

/-- The integer, if it is known. -/
def TermValue.integer? (x : TermValue) : Option Int := x.known?.bind Element.toInt?

namespace Aggregate

/-- The weights of the certain ones among members with their truths and weights. Counting takes no
notice of them. -/
def certainWeights (kind : Aggregate) (members : List (Truth × TermValue)) : List TermValue :=
  (members.filter fun m => m.1.isYes).map fun m => if kind.usesWeights then m.2 else .known (.int 0)

/-- Value of an aggregate over members with their truths and weights, after earlier members: none if
a certain member has no weight, and not known if a member or the weight of a certain one is not. -/
def value (kind : Aggregate) (acc : Option Int) (unknown : Bool)
    (members : List (Truth × TermValue)) :
    TermValue :=
  let weights := kind.certainWeights members
  if .undefined ∈ weights then .undefined
  else
    aggregateValue ((weights.filterMap TermValue.integer?).foldl kind.combine acc)
      (unknown || members.any (fun m => !m.1.isKnown) || weights.contains .unknown)

end Aggregate

namespace Valuation

def atomOf (v : Valuation) (positive : Bool) (p : SymbolId) : ArgValues → Truth
  | .known t => v.atomAt positive p t
  | .undefined => .no
  | .unknown => .unknown

def imageOf (v : Valuation) (f : SymbolId) : ArgValues → TermValue
  | .known t =>
    match v.function f t with
    | .ok (some e) => .known e
    | _ => .unknown
  | .undefined => .undefined
  | .unknown => .unknown

mutual

/-- Value of a term in an environment. -/
def valueIn (v : Valuation) (S : Structure) (positive : Bool) (ρ : Environment) : Term → TermValue
  | .var x =>
    match ρ x.id with
    | some e => .known e
    | none => .unknown
  | .element e => .known e
  | .apply f args => v.imageOf f (.ofValues (v.valuesIn S positive ρ args))
  | .aggregate kind set => kind.value kind.identity false (v.membersIn S positive ρ set)

def valuesIn (v : Valuation) (S : Structure) (positive : Bool) (ρ : Environment) :
    List Term → List TermValue
  | [] => []
  | t :: ts => v.valueIn S positive ρ t :: v.valuesIn S positive ρ ts

/-- The members of a set with their truths and weights. A comprehension with variables has one
member for each tuple, weighed by the element of the first variable. -/
def membersIn (v : Valuation) (S : Structure) (positive : Bool) (ρ : Environment) :
    SetExpr → List (Truth × TermValue)
  | .enumerated ms => v.listedIn S positive ρ ms
  | .comprehension vars condition weight =>
    (S.tuplesOf vars).map fun t =>
      (v.truthIn S positive (ρ.bind vars t) condition,
        match t with
        | e :: _ => .known e
        | [] => v.valueIn S positive (ρ.bind vars t) weight)

def listedIn (v : Valuation) (S : Structure) (positive : Bool) (ρ : Environment) :
    List Member → List (Truth × TermValue)
  | [] => []
  | (condition, weight) :: ms =>
    (v.truthIn S positive ρ condition, v.valueIn S positive ρ weight) :: v.listedIn S positive ρ ms

/-- Truth of a formula in an environment. -/
def truthIn (v : Valuation) (S : Structure) (positive : Bool) (ρ : Environment) : Formula → Truth
  | .atom sign p args =>
    (v.atomOf (positive == sign) p
      (.ofValues (v.valuesIn S (positive == sign) ρ args))).withSign sign
  | .junction sign conjunctive children =>
    (Truth.junction conjunctive (v.truthsIn S (positive == sign) ρ children)).withSign sign
  | .quantified sign universal vars body =>
    (Truth.junction universal ((S.tuplesOf vars).map fun t =>
      v.truthIn S (positive == sign) (ρ.bind vars t) body)).withSign sign
  | .equivalence sign left right =>
    let inner := positive == sign
    let both := (v.truthIn S inner ρ left).and (v.truthIn S inner ρ right)
    let neither := (v.truthIn S (!inner) ρ left).not.and (v.truthIn S (!inner) ρ right).not
    (both.or neither).withSign sign
  | .comparison sign terms comparators =>
    (linksTruth (v.valuesIn S (positive == sign) ρ terms) comparators).withSign sign

def truthsIn (v : Valuation) (S : Structure) (positive : Bool) (ρ : Environment) :
    List Formula → List Truth
  | [] => []
  | f :: fs => v.truthIn S positive ρ f :: v.truthsIn S positive ρ fs

end

end Valuation

/-! ## Evaluating lists -/

namespace Valuation

variable (v : Valuation) (positive : Bool)

/-- A ground formula that has at most the given truth. -/
def FormulaIs (g : Formula) (y : Truth) : Prop := ∀ x, evalFormula v positive g = .ok x → x = y

/-- A ground term that has at most the given value. -/
def TermIs (g : Term) (y : TermValue) : Prop := ∀ x, evalTerm v positive g = .ok x → x = y

/-- A member of a ground set that has at most the given truth and weight. -/
def MemberIs (g : Member) (y : Truth × TermValue) : Prop :=
  v.FormulaIs positive g.1 y.1 ∧ v.TermIs positive g.2 y.2

end Valuation

namespace Truth

theorem join_assoc (conjunctive : Bool) (a b c : Truth) :
    (a.join conjunctive b).join conjunctive c = a.join conjunctive (b.join conjunctive c) := by
  cases conjunctive <;> cases a <;> cases b <;> cases c <;> rfl

theorem join_neutral (conjunctive : Bool) (a : Truth) :
    a.join conjunctive (.ofBool conjunctive) = a := by
  cases conjunctive <;> cases a <;> rfl

theorem neutral_join (conjunctive : Bool) (a : Truth) :
    (ofBool conjunctive).join conjunctive a = a := by
  cases conjunctive <;> cases a <;> rfl

theorem decided_join (conjunctive : Bool) (a : Truth) :
    (ofBool !conjunctive).join conjunctive a = ofBool !conjunctive := by
  cases conjunctive <;> cases a <;> rfl

end Truth

section Lists

variable {v : Valuation} {positive : Bool}

/-- Leaving out the children after the one that decides a junction changes nothing. -/
theorem eq_junction_of_evalChildren {conjunctive : Bool} {gs : List Formula} {ys : List Truth}
    (hs : List.Forall₂ (v.FormulaIs positive) gs ys) {acc x : Truth}
    (h : evalChildren v positive conjunctive acc gs = .ok x) :
    x = acc.join conjunctive (Truth.junction conjunctive ys) := by
  induction hs generalizing acc with
  | nil =>
      rw [evalChildren, Except.pure_eq_ok] at h
      rw [Truth.junction, List.foldr_nil, Truth.join_neutral, h]
  | @cons g y gs ys hg _ ih =>
      obtain ⟨z, hz, h⟩ := evalChildren_cons_eq_ok h
      obtain rfl := hg z hz
      rw [Truth.junction, List.foldr_cons, ← Truth.junction, ← Truth.join_assoc]
      split at h
      · rename_i hdecided
        rw [hdecided, Truth.decided_join, h]
      · exact ih h

theorem eq_of_evalTerms {gs : List Term} {ys : List TermValue}
    (hs : List.Forall₂ (v.TermIs positive) gs ys)
    {xs : List TermValue} (h : evalTerms v positive gs = .ok xs) : xs = ys := by
  induction hs generalizing xs with
  | nil =>
      rw [evalTerms] at h
      cases h
      rfl
  | cons hg _ ih =>
      simp only [evalTerms, Except.bind_eq_ok] at h
      obtain ⟨x, hx, xs', hxs, h⟩ := h
      cases h
      rw [hg x hx, ih hxs]

namespace ArgValues

theorem ofValues_undefined (ys : List TermValue) : ofValues (.undefined :: ys) = .undefined :=
  if_pos List.mem_cons_self

theorem ofValues_known (e : Element) (ys : List TermValue) :
    ofValues (.known e :: ys) = match ofValues ys with
      | .known t => .known (e :: t)
      | other => other := by
  by_cases hys : TermValue.undefined ∈ ys
  · rw [ofValues, ofValues, if_pos hys, if_pos (List.mem_cons_of_mem _ hys)]
  · rw [ofValues, ofValues, if_neg hys, if_neg (by simpa using hys), List.mapM_cons]
    cases ys.mapM TermValue.known? <;> rfl

theorem ofValues_unknown (ys : List TermValue) :
    ofValues (.unknown :: ys) = match ofValues ys with
      | .undefined => .undefined
      | _ => .unknown := by
  by_cases hys : TermValue.undefined ∈ ys
  · rw [ofValues, ofValues, if_pos hys, if_pos (List.mem_cons_of_mem _ hys)]
  · rw [ofValues, ofValues, if_neg hys, if_neg (by simpa using hys), List.mapM_cons]
    cases ys.mapM TermValue.known? <;> rfl

end ArgValues

theorem eq_ofValues_of_evalArgs {gs : List Term} {ys : List TermValue}
    (hs : List.Forall₂ (v.TermIs positive) gs ys) {a : ArgValues}
    (h : evalArgs v positive gs = .ok a) :
    a = .ofValues ys := by
  induction hs generalizing a with
  | nil =>
      rw [evalArgs] at h
      cases h
      rfl
  | cons hg _ ih =>
      rw [evalArgs, Except.bind_eq_ok] at h
      obtain ⟨x, hx, h⟩ := h
      obtain rfl := hg x hx
      cases x with
      | undefined =>
          cases h
          rw [ArgValues.ofValues_undefined]
      | known e =>
          obtain ⟨rest, hrest, h⟩ := Except.bind_eq_ok.mp h
          rw [ArgValues.ofValues_known, ← ih hrest]
          cases rest <;> exact (Except.ok.inj h).symm
      | unknown =>
          obtain ⟨rest, hrest, h⟩ := Except.bind_eq_ok.mp h
          rw [ArgValues.ofValues_unknown, ← ih hrest]
          cases rest <;> exact (Except.ok.inj h).symm

namespace Aggregate

variable (kind : Aggregate) (acc : Option Int) (unknown : Bool) (w : TermValue)
  (members : List (Truth × TermValue))

theorem certainWeights_unknown :
    kind.certainWeights ((.unknown, w) :: members) = kind.certainWeights members := rfl

theorem certainWeights_yes : kind.certainWeights ((.yes, w) :: members) =
    (if kind.usesWeights then w else .known (.int 0)) :: kind.certainWeights members := rfl

theorem value_no : kind.value acc unknown ((.no, w) :: members) = kind.value acc unknown members :=
  rfl

theorem value_unknown :
    kind.value acc unknown ((.unknown, w) :: members) = kind.value acc true members := by
  simp only [value, certainWeights_unknown, List.any_cons, Truth.isKnown, Bool.not_false,
    Bool.true_or, Bool.or_true]

theorem value_counted (hkind : ¬ kind.usesWeights = true) :
    kind.value acc unknown ((.yes, w) :: members) =
      kind.value (kind.combine acc 0) unknown members := by
  rw [value, value, certainWeights_yes, if_neg hkind]
  simp [Truth.isKnown, TermValue.integer?, TermValue.known?, Element.toInt?]

theorem value_weighed (hkind : kind.usesWeights = true) (n : Int) :
    kind.value acc unknown ((.yes, .known (.int n)) :: members) =
      kind.value (kind.combine acc n) unknown members := by
  rw [value, value, certainWeights_yes, if_pos hkind]
  simp [Truth.isKnown, TermValue.integer?, TermValue.known?, Element.toInt?]

theorem value_undefined (hkind : kind.usesWeights = true) :
    kind.value acc unknown ((.yes, .undefined) :: members) = .undefined := by
  rw [value, certainWeights_yes, if_pos hkind]
  exact if_pos List.mem_cons_self

theorem value_undecided (hkind : kind.usesWeights = true) :
    kind.value acc unknown ((.yes, .unknown) :: members) = kind.value acc true members := by
  rw [value, value, certainWeights_yes, if_pos hkind]
  simp [aggregateValue]

end Aggregate

theorem eq_value_of_evalMembers {kind : Aggregate} {gs : List Member}
    {ys : List (Truth × TermValue)}
    (hs : List.Forall₂ (v.MemberIs positive) gs ys) {acc : Option Int} {unknown : Bool}
    {x : TermValue}
    (h : evalMembers v positive kind acc unknown gs = .ok x) : x = kind.value acc unknown ys := by
  induction hs generalizing acc unknown with
  | nil =>
      rw [evalMembers, Except.pure_eq_ok] at h
      simp [Aggregate.value, Aggregate.certainWeights, h]
  | @cons g y gs ys hg _ ih =>
      obtain ⟨condition, weight⟩ := g
      obtain ⟨c, w⟩ := y
      rw [evalMembers, Except.bind_eq_ok] at h
      obtain ⟨c', hc, h⟩ := h
      obtain rfl := hg.1 c' hc
      cases c' with
      | no => rw [Aggregate.value_no, ih h]
      | unknown => rw [Aggregate.value_unknown, ih h]
      | yes =>
          by_cases hkind : kind.usesWeights = true
          · rw [if_pos hkind, Except.bind_eq_ok] at h
            obtain ⟨w', hw, h⟩ := h
            obtain rfl := hg.2 w' hw
            cases w' with
            | known e =>
                cases e with
                | int n => rw [Aggregate.value_weighed _ _ _ _ hkind, ih h]
                | name s => cases h
            | undefined =>
                cases h
                rw [Aggregate.value_undefined _ _ _ _ hkind]
            | unknown => rw [Aggregate.value_undecided _ _ _ _ hkind, ih h]
          · rw [if_neg hkind] at h
            rw [Aggregate.value_counted _ _ _ _ _ hkind, ih h]

end Lists

/-! ## Evaluating what is grounded -/

theorem Structure.forall₂_map_of_instances {S : Structure} {α β : Type} {vars : List Var}
    {f : Tuple → Except Failure α} {xs : List α} {r : α → β → Prop} {F : Tuple → β}
    (h : S.instances vars f = .ok xs) (hr : ∀ t x, f t = .ok x → r x (F t)) :
    List.Forall₂ r xs ((S.tuplesOf vars).map F) := by
  rw [List.forall₂_map_right_iff]
  refine List.Forall₂.flip ?_
  exact (forall₂_of_instances_eq_ok (I := fun _ => false) h).imp fun t x hx => hr t x hx

section Ground

variable {S : Structure} {v : Valuation}

mutual

theorem evalTerm_ground : ∀ (t : Term) {b : Binding} {g : Term}, groundTerm S b t = .ok g →
    ∀ positive, v.TermIs positive g (v.valueIn S positive b.environment t)
  | .var x, b, g, h, positive => by
      intro y hy
      rw [groundTerm] at h
      rw [Valuation.valueIn, Binding.environment]
      cases hx : b.lookup x.id with
      | some e =>
          rw [hx] at h
          cases h
          rw [evalTerm, Except.pure_eq_ok] at hy
          exact hy.symm
      | none =>
          rw [hx] at h
          cases h
          rw [evalTerm] at hy
          cases hy
  | .element e, b, g, h, positive => by
      intro y hy
      rw [groundTerm] at h
      cases h
      rw [evalTerm, Except.pure_eq_ok] at hy
      exact hy.symm
  | .apply f args, b, g, h, positive => by
      intro y hy
      rw [groundTerm, Except.bind_eq_ok] at h
      obtain ⟨gs, hgs, h⟩ := h
      cases h
      rw [evalTerm, Except.bind_eq_ok] at hy
      obtain ⟨a, ha, hy⟩ := hy
      rw [Valuation.valueIn, ← eq_ofValues_of_evalArgs (evalTerms_ground args hgs positive) ha]
      cases a with
      | known t =>
          obtain ⟨o, ho, hy⟩ := Except.bind_eq_ok.mp hy
          rw [Valuation.imageOf, ho]
          cases o <;> exact (Except.ok.inj hy).symm
      | undefined => exact (Except.ok.inj hy).symm
      | unknown => exact (Except.ok.inj hy).symm
  | .aggregate kind set, b, g, h, positive => by
      intro y hy
      rw [groundTerm, Except.bind_eq_ok] at h
      obtain ⟨gset, hset, h⟩ := h
      cases h
      obtain ⟨gs, rfl, hgs⟩ := evalSet_ground set hset positive
      rw [evalTerm, evalSet] at hy
      exact eq_value_of_evalMembers hgs hy

theorem evalTerms_ground :
    ∀ (ts : List Term) {b : Binding} {gs : List Term}, groundTerms S b ts = .ok gs →
    ∀ positive, List.Forall₂ (v.TermIs positive) gs (v.valuesIn S positive b.environment ts)
  | [], b, gs, h, positive => by
      rw [groundTerms] at h
      cases h
      exact .nil
  | t :: ts, b, gs, h, positive => by
      simp only [groundTerms, Except.bind_eq_ok] at h
      obtain ⟨g, hg, gs', hgs, h⟩ := h
      cases h
      exact .cons (evalTerm_ground t hg positive) (evalTerms_ground ts hgs positive)

theorem evalSet_ground : ∀ (set : SetExpr) {b : Binding} {g : SetExpr}, groundSet S b set = .ok g →
    ∀ positive, ∃ gs, g = .enumerated gs ∧
      List.Forall₂ (v.MemberIs positive) gs (v.membersIn S positive b.environment set)
  | .enumerated ms, b, g, h, positive => by
      rw [groundSet, Except.bind_eq_ok] at h
      obtain ⟨gs, hgs, h⟩ := h
      cases h
      exact ⟨gs, rfl, evalMembers_ground ms hgs positive⟩
  | .comprehension vars condition weight, b, g, h, positive => by
      rw [groundSet, Except.bind_eq_ok] at h
      obtain ⟨gs, hgs, h⟩ := h
      cases h
      refine ⟨gs, rfl, Structure.forall₂_map_of_instances hgs fun t m hm => ?_⟩
      rw [← Binding.environment_extend]
      rw [Except.bind_eq_ok] at hm
      obtain ⟨c, hc, hm⟩ := hm
      cases t with
      | nil =>
          rw [Except.bind_eq_ok] at hm
          obtain ⟨w, hw, hm⟩ := hm
          cases hm
          exact ⟨evalFormula_ground condition hc positive, evalTerm_ground weight hw positive⟩
      | cons e es =>
          cases hm
          refine ⟨evalFormula_ground condition hc positive, fun y hy => ?_⟩
          rw [evalTerm, Except.pure_eq_ok] at hy
          exact hy.symm

theorem evalMembers_ground : ∀ (ms : List Member) {b : Binding} {gs : List Member},
    groundMembers S b ms = .ok gs →
    ∀ positive, List.Forall₂ (v.MemberIs positive) gs (v.listedIn S positive b.environment ms)
  | [], b, gs, h, positive => by
      rw [groundMembers] at h
      cases h
      exact .nil
  | (condition, weight) :: ms, b, gs, h, positive => by
      simp only [groundMembers, Except.bind_eq_ok] at h
      obtain ⟨c, hc, w, hw, gs', hgs, h⟩ := h
      cases h
      exact .cons ⟨evalFormula_ground condition hc positive, evalTerm_ground weight hw positive⟩
        (evalMembers_ground ms hgs positive)

theorem evalFormula_ground :
    ∀ (f : Formula) {b : Binding} {g : Formula}, groundFormula S b f = .ok g →
    ∀ positive, v.FormulaIs positive g (v.truthIn S positive b.environment f)
  | .atom sign p args, b, g, h, positive => by
      intro y hy
      rw [groundFormula, Except.bind_eq_ok] at h
      obtain ⟨gs, hgs, h⟩ := h
      cases h
      rw [evalFormula, Except.bind_eq_ok] at hy
      obtain ⟨a, ha, hy⟩ := hy
      rw [Valuation.truthIn, ← eq_ofValues_of_evalArgs (evalTerms_ground args hgs _) ha]
      cases a with
      | known t => exact (Except.ok.inj hy).symm
      | undefined => exact (Except.ok.inj hy).symm
      | unknown =>
          cases hy
          cases sign <;> rfl
  | .junction sign conjunctive children, b, g, h, positive => by
      intro y hy
      rw [groundFormula, Except.bind_eq_ok] at h
      obtain ⟨gs, hgs, h⟩ := h
      cases h
      rw [evalFormula, Except.bind_eq_ok] at hy
      obtain ⟨z, hz, hy⟩ := hy
      cases hy
      rw [Valuation.truthIn, eq_junction_of_evalChildren (evalChildren_ground children hgs _) hz,
        Truth.neutral_join]
  | .quantified sign universal vars body, b, g, h, positive => by
      intro y hy
      rw [groundFormula, Except.bind_eq_ok] at h
      obtain ⟨gs, hgs, h⟩ := h
      cases h
      rw [evalFormula, Except.bind_eq_ok] at hy
      obtain ⟨z, hz, hy⟩ := hy
      cases hy
      have hinstances : List.Forall₂ (v.FormulaIs (positive == sign)) gs
          ((S.tuplesOf vars).map fun t =>
            v.truthIn S (positive == sign) (b.environment.bind vars t) body) :=
        Structure.forall₂_map_of_instances hgs fun t g hg => by
          rw [← Binding.environment_extend]
          exact evalFormula_ground body hg _
      rw [Valuation.truthIn, eq_junction_of_evalChildren hinstances hz, Truth.neutral_join]
  | .equivalence sign left right, b, g, h, positive => by
      intro y hy
      simp only [groundFormula, Except.bind_eq_ok] at h
      obtain ⟨gl, hl, gr, hr, h⟩ := h
      cases h
      simp only [evalFormula, Except.bind_eq_ok] at hy
      obtain ⟨l, hl₁, r, hr₁, nl, hl₂, nr, hr₂, hy⟩ := hy
      cases hy
      rw [Valuation.truthIn, evalFormula_ground left hl _ l hl₁,
        evalFormula_ground right hr _ r hr₁, evalFormula_ground left hl _ nl hl₂,
        evalFormula_ground right hr _ nr hr₂]
  | .comparison sign terms comparators, b, g, h, positive => by
      intro y hy
      rw [groundFormula, Except.bind_eq_ok] at h
      obtain ⟨gs, hgs, h⟩ := h
      cases h
      simp only [evalFormula, Except.bind_eq_ok] at hy
      obtain ⟨-, -, xs, hxs, hy⟩ := hy
      cases hy
      rw [Valuation.truthIn, eq_of_evalTerms (evalTerms_ground terms hgs _) hxs]

theorem evalChildren_ground : ∀ (fs : List Formula) {b : Binding} {gs : List Formula},
    groundFormulas S b fs = .ok gs →
    ∀ positive, List.Forall₂ (v.FormulaIs positive) gs (v.truthsIn S positive b.environment fs)
  | [], b, gs, h, positive => by
      rw [groundFormulas] at h
      cases h
      exact .nil
  | f :: fs, b, gs, h, positive => by
      simp only [groundFormulas, Except.bind_eq_ok] at h
      obtain ⟨g, hg, gs', hgs, h⟩ := h
      cases h
      exact .cons (evalFormula_ground f hg positive) (evalChildren_ground fs hgs positive)

end

end Ground

end ModelExpansion
