import ModelExpansion.Proofs.Evaluation.Environment

/-! # Grounding against the direct reading
Grounding and evaluating a formula gives the value that it has in the empty environment. A rule
grounds to one instance for each tuple of its variables, in lexicographic order. -/

namespace ModelExpansion

/-! ## When grounding succeeds -/

mutual

def Term.binders : Term → List Var
  | .var _ | .element _ => []
  | .apply _ args => Term.bindersList args
  | .aggregate _ set => set.binders

def Term.bindersList : List Term → List Var
  | [] => []
  | t :: ts => t.binders ++ Term.bindersList ts

def SetExpr.binders : SetExpr → List Var
  | .enumerated ms => SetExpr.bindersMembers ms
  | .comprehension vars condition weight => vars ++ (condition.binders ++ weight.binders)

def SetExpr.bindersMembers : List Member → List Var
  | [] => []
  | (condition, weight) :: ms => condition.binders ++ (weight.binders ++ SetExpr.bindersMembers ms)

def Formula.binders : Formula → List Var
  | .atom _ _ args => Term.bindersList args
  | .junction _ _ children => Formula.bindersList children
  | .quantified _ _ vars body => vars ++ body.binders
  | .equivalence _ left right => left.binders ++ right.binders
  | .comparison _ terms _ => Term.bindersList terms

def Formula.bindersList : List Formula → List Var
  | [] => []
  | f :: fs => f.binders ++ Formula.bindersList fs

end

/-- Variables that a rule binds, itself or inside. -/
def Rule.binders (r : Rule) : List Var := r.vars ++ (Term.bindersList r.args ++ r.body.binders)

section Totality

variable {S : Structure}

theorem Structure.exists_instances {α : Type} {vars : List Var} {f : Tuple → Except Failure α}
    (hvars : ∀ x ∈ vars, ∃ es, S.domain x.sort = .ok es) (hf : ∀ t, ∃ x, f t = .ok x) :
    ∃ xs, S.instances vars f = .ok xs := by
  have hsorts : ∀ s ∈ vars.map Var.sort, ∃ es, S.domain s = .ok es := List.forall_mem_map.mpr hvars
  obtain ⟨ds, hds⟩ := exists_mapM_eq_ok hsorts
  rw [instances, domains, hds, Except.ok_bind, mapTuplesM_eq]
  exact exists_mapM_eq_ok fun t _ => hf t

mutual

theorem exists_groundTerm :
    ∀ (t : Term) (b : Binding), (∀ x ∈ t.binders, ∃ es, S.domain x.sort = .ok es) →
    ∃ g, groundTerm S b t = .ok g
  | .var x, b, _ => by
      rw [groundTerm]
      cases b.lookup x.id with
      | some e => exact ⟨_, rfl⟩
      | none => exact ⟨_, rfl⟩
  | .element e, b, _ => by
      rw [groundTerm]
      exact ⟨_, rfl⟩
  | .apply f args, b, h => by
      rw [Term.binders] at h
      obtain ⟨gs, hgs⟩ := exists_groundTerms args b h
      rw [groundTerm, hgs]
      exact ⟨_, rfl⟩
  | .aggregate kind set, b, h => by
      rw [Term.binders] at h
      obtain ⟨g, hg⟩ := exists_groundSet set b h
      rw [groundTerm, hg]
      exact ⟨_, rfl⟩

theorem exists_groundTerms : ∀ (ts : List Term) (b : Binding),
    (∀ x ∈ Term.bindersList ts, ∃ es, S.domain x.sort = .ok es) → ∃ gs, groundTerms S b ts = .ok gs
  | [], b, _ => by
      rw [groundTerms]
      exact ⟨_, rfl⟩
  | t :: ts, b, h => by
      rw [Term.bindersList, List.forall_mem_append] at h
      obtain ⟨g, hg⟩ := exists_groundTerm t b h.1
      obtain ⟨gs, hgs⟩ := exists_groundTerms ts b h.2
      rw [groundTerms, hg, hgs]
      exact ⟨_, rfl⟩

theorem exists_groundSet : ∀ (set : SetExpr) (b : Binding),
    (∀ x ∈ set.binders, ∃ es, S.domain x.sort = .ok es) → ∃ g, groundSet S b set = .ok g
  | .enumerated ms, b, h => by
      rw [SetExpr.binders] at h
      obtain ⟨gs, hgs⟩ := exists_groundMembers ms b h
      rw [groundSet, hgs]
      exact ⟨_, rfl⟩
  | .comprehension vars condition weight, b, h => by
      rw [SetExpr.binders, List.forall_mem_append, List.forall_mem_append] at h
      rw [groundSet]
      refine Exists.elim (Structure.exists_instances h.1 ?_) fun ms hms =>
        ⟨_, Except.bind_eq_ok.mpr ⟨ms, hms, rfl⟩⟩
      intro t
      obtain ⟨c, hc⟩ := exists_groundFormula condition (b.extend vars t) h.2.1
      obtain ⟨w, hw⟩ := exists_groundTerm weight (b.extend vars t) h.2.2
      cases t with
      | nil => exact ⟨(c, w), Except.bind_eq_ok.mpr ⟨c, hc, Except.bind_eq_ok.mpr ⟨w, hw, rfl⟩⟩⟩
      | cons e es => exact ⟨(c, .element e), Except.bind_eq_ok.mpr ⟨c, hc, rfl⟩⟩

theorem exists_groundMembers : ∀ (ms : List Member) (b : Binding),
    (∀ x ∈ SetExpr.bindersMembers ms, ∃ es, S.domain x.sort = .ok es) →
    ∃ gs, groundMembers S b ms = .ok gs
  | [], b, _ => by
      rw [groundMembers]
      exact ⟨_, rfl⟩
  | (condition, weight) :: ms, b, h => by
      rw [SetExpr.bindersMembers, List.forall_mem_append, List.forall_mem_append] at h
      obtain ⟨c, hc⟩ := exists_groundFormula condition b h.1
      obtain ⟨w, hw⟩ := exists_groundTerm weight b h.2.1
      obtain ⟨gs, hgs⟩ := exists_groundMembers ms b h.2.2
      rw [groundMembers, hc, hw, hgs]
      exact ⟨_, rfl⟩

theorem exists_groundFormula : ∀ (f : Formula) (b : Binding),
    (∀ x ∈ f.binders, ∃ es, S.domain x.sort = .ok es) → ∃ g, groundFormula S b f = .ok g
  | .atom sign p args, b, h => by
      rw [Formula.binders] at h
      obtain ⟨gs, hgs⟩ := exists_groundTerms args b h
      rw [groundFormula, hgs]
      exact ⟨_, rfl⟩
  | .junction sign conjunctive children, b, h => by
      rw [Formula.binders] at h
      obtain ⟨gs, hgs⟩ := exists_groundFormulas children b h
      rw [groundFormula, hgs]
      exact ⟨_, rfl⟩
  | .quantified sign universal vars body, b, h => by
      rw [Formula.binders, List.forall_mem_append] at h
      obtain ⟨gs, hgs⟩ := Structure.exists_instances h.1 fun t =>
        exists_groundFormula body (b.extend vars t) h.2
      rw [groundFormula, hgs]
      exact ⟨_, rfl⟩
  | .equivalence sign left right, b, h => by
      rw [Formula.binders, List.forall_mem_append] at h
      obtain ⟨l, hl⟩ := exists_groundFormula left b h.1
      obtain ⟨r, hr⟩ := exists_groundFormula right b h.2
      rw [groundFormula, hl, hr]
      exact ⟨_, rfl⟩
  | .comparison sign terms comparators, b, h => by
      rw [Formula.binders] at h
      obtain ⟨gs, hgs⟩ := exists_groundTerms terms b h
      rw [groundFormula, hgs]
      exact ⟨_, rfl⟩

theorem exists_groundFormulas : ∀ (fs : List Formula) (b : Binding),
    (∀ x ∈ Formula.bindersList fs, ∃ es, S.domain x.sort = .ok es) →
    ∃ gs, groundFormulas S b fs = .ok gs
  | [], b, _ => by
      rw [groundFormulas]
      exact ⟨_, rfl⟩
  | f :: fs, b, h => by
      rw [Formula.bindersList, List.forall_mem_append] at h
      obtain ⟨g, hg⟩ := exists_groundFormula f b h.1
      obtain ⟨gs, hgs⟩ := exists_groundFormulas fs b h.2
      rw [groundFormulas, hg, hgs]
      exact ⟨_, rfl⟩

end

theorem exists_groundRule {r : Rule} (h : ∀ x ∈ r.binders, ∃ es, S.domain x.sort = .ok es) :
    ∃ gs, groundRule S r = .ok gs := by
  rw [Rule.binders, List.forall_mem_append, List.forall_mem_append] at h
  refine Structure.exists_instances h.1 fun t => ?_
  obtain ⟨args, hargs⟩ := exists_groundTerms r.args (Binding.extend [] r.vars t) h.2.1
  obtain ⟨body, hbody⟩ := exists_groundFormula r.body (Binding.extend [] r.vars t) h.2.2
  exact ⟨⟨[], r.head, args, body⟩,
    Except.bind_eq_ok.mpr ⟨args, hargs, Except.bind_eq_ok.mpr ⟨body, hbody, rfl⟩⟩⟩

end Totality

/-! ## Formulas and rules -/

/-- An instance of a rule that means what the rule does when its variables stand for the elements of
a tuple. -/
structure IsInstanceIn (S : Structure) (r : Rule) (t : Tuple) (g : Rule) :
    Prop extends IsInstance S r t g where
  argsIn : ∀ (v : Valuation) (positive : Bool), List.Forall₂ (v.TermIs positive) g.args
    (v.valuesIn S positive (Environment.empty.bind r.vars t) r.args)
  bodyIn : ∀ (v : Valuation) (positive : Bool),
    v.FormulaIs positive g.body (v.truthIn S positive (Environment.empty.bind r.vars t) r.body)

theorem IsInstance.isInstanceIn {S : Structure} {r g : Rule} {t : Tuple} (h : IsInstance S r t g) :
    IsInstanceIn S r t g where
  toIsInstance := h
  argsIn v positive := by
    rw [← Binding.environment_nil, ← Binding.environment_extend]
    exact evalTerms_ground r.args h.args positive
  bodyIn v positive := by
    rw [← Binding.environment_nil, ← Binding.environment_extend]
    exact evalFormula_ground r.body h.body positive

/-- The tuples of some variables are those with elements of their tables. -/
theorem Structure.mem_tuplesOf_iff {S : Structure} {vars : List Var} {α : Type}
    {f : Tuple → Except Failure α} {xs : List α} (h : S.instances vars f = .ok xs) {t : Tuple} :
    t ∈ S.tuplesOf vars ↔ List.Forall₂ (fun x e => S.Has x.sort e) vars t := by
  rw [instances, Except.bind_eq_ok] at h
  obtain ⟨ds, hds, -⟩ := h
  rw [← List.forall₂_map_left_iff (f := Var.sort) (R := S.Has),
    forall₂_has_iff (forall₂_of_mapM_eq_ok hds), ← mem_product, domains_eq_map hds, List.map_map]
  rfl

theorem Structure.pairwise_tuplesOf (S : Structure) (vars : List Var) :
    (S.tuplesOf vars).Pairwise fun s t => compare s t = .lt :=
  pairwise_product (List.forall_mem_map.mpr fun x _ => S.ascending_elements x.sort)

/-- Evaluating what a closed formula grounds to gives the value it has in the empty environment.
Where the tables of all its variables can be enumerated, a rule has exactly one instance for each
tuple of them, in lexicographic order. -/
theorem ground_correct (S : Structure) :
    (∀ f g, groundFormula S [] f = .ok g → ∀ (v : Valuation) (positive : Bool) (x : Truth),
      evalFormula v positive g = .ok x → x = v.truthIn S positive .empty f) ∧
    ∀ r : Rule,
      ((∀ x ∈ r.binders, ∃ es, S.domain x.sort = .ok es) → ∃ gs, groundRule S r = .ok gs) ∧
      ∀ gs, groundRule S r = .ok gs →
        List.Forall₂ (IsInstanceIn S r) (S.tuplesOf r.vars) gs ∧
        (S.tuplesOf r.vars).Pairwise (fun s t => compare s t = .lt) ∧
        ∀ t, t ∈ S.tuplesOf r.vars ↔ List.Forall₂ (fun x e => S.Has x.sort e) r.vars t := by
  constructor
  · intro f g hg v positive x hx
    have htruth := evalFormula_ground (v := v) f hg positive x hx
    rwa [Binding.environment_nil] at htruth
  · refine fun r => ⟨exists_groundRule, fun gs hgs => ⟨?_, S.pairwise_tuplesOf r.vars, fun t =>
      Structure.mem_tuplesOf_iff hgs⟩⟩
    exact (forall₂_of_groundRule_eq_ok (I := fun _ => false) hgs).imp fun t g hg => hg.isInstanceIn

/-- Every lamp is on, or some lamp is. The inner quantifier binds the outer variable anew, and
twice. -/
def someLamp : Formula :=
  .forAll [⟨0, "x", 0⟩] (.disj [.pred 0 [.var ⟨0, "x", 0⟩],
    .exist [⟨0, "x", 0⟩, ⟨0, "y", 0⟩] (.pred 0 [.var ⟨0, "x", 0⟩])])

/-- A lamp is on if it is next to itself; the rule names the lamp twice. -/
def ownNeighbour : Rule :=
  ⟨[⟨0, "x", 0⟩, ⟨0, "y", 0⟩], 0, [.var ⟨0, "x", 0⟩],
    .compare (.apply 1 [.var ⟨0, "x", 0⟩]) .eq (.var ⟨0, "y", 0⟩)⟩

/-- The lamps that are on, each once for every lamp. The weight that is written is the second lamp,
but a member weighs the first one. -/
def litPairs : SetExpr :=
  .comprehension [⟨0, "x", 0⟩, ⟨1, "y", 0⟩] (.pred 0 [.var ⟨0, "x", 0⟩]) (.var ⟨1, "y", 0⟩)

/-- Only the second lamp is on, which is counted for two lamps. -/
def weighedTwice : Formula := .compare (.aggregate .sum litPairs) .eq (.element (.int 4))

/-- In the evening some lamp is on, and the rule has an instance for each pair of lamps. At night it
is known which are on. -/
theorem ground_correct_lamps :
    (∃ g, groundFormula evening [] someLamp = .ok g ∧
      evalFormula evening.valuation true g = .ok .yes) ∧
    evening.valuation.truthIn evening true .empty someLamp = .yes ∧
    (∃ g, groundFormula night [] weighedTwice = .ok g ∧
      evalFormula night.valuation true g = .ok .yes) ∧
    night.valuation.truthIn night true .empty weighedTwice = .yes ∧
    ∃ gs, groundRule evening ownNeighbour = .ok gs ∧
      List.Forall₂ (IsInstanceIn evening ownNeighbour)
        [[.int 1, .int 1], [.int 1, .int 2], [.int 2, .int 1], [.int 2, .int 2]] gs := by
  obtain ⟨hformula, hrule⟩ := ground_correct evening
  obtain ⟨hnight, -⟩ := ground_correct night
  have hground : ∃ g, groundFormula evening [] someLamp = .ok g ∧
      evalFormula evening.valuation true g = .ok .yes := ⟨_, rfl, by decide +kernel⟩
  obtain ⟨g, hg, hyes⟩ := hground
  have hsum : ∃ g, groundFormula night [] weighedTwice = .ok g ∧
      evalFormula night.valuation true g = .ok .yes := ⟨_, rfl, by decide +kernel⟩
  obtain ⟨sum, hsum, hsumYes⟩ := hsum
  have htuples : evening.tuplesOf ownNeighbour.vars =
      [[.int 1, .int 1], [.int 1, .int 2], [.int 2, .int 1], [.int 2, .int 2]] := by decide +kernel
  have htables : ∀ x ∈ ownNeighbour.binders, ∃ es, evening.domain x.sort = .ok es := by
    have hdomain : evening.domain 0 = .ok [.int 1, .int 2] := by decide +kernel
    have hsort : ∀ x ∈ ownNeighbour.binders, x.sort = 0 := by decide
    exact fun x hx => ⟨_, by rw [hsort x hx, hdomain]⟩
  obtain ⟨hexists, hinstances⟩ := hrule ownNeighbour
  obtain ⟨gs, hgs⟩ := hexists htables
  refine ⟨⟨g, hg, hyes⟩, (hformula _ _ hg _ _ _ hyes).symm, ⟨sum, hsum, hsumYes⟩,
    (hnight _ _ hsum _ _ _ hsumYes).symm, gs, hgs, ?_⟩
  rw [← htuples]
  exact (hinstances gs hgs).1

end ModelExpansion
