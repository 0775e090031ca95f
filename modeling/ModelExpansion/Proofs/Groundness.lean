import ModelExpansion.Proofs.Evaluation.Grounding

/-! # Ground nodes
Grounding leaves ground nodes as they are. It makes a node ground if the binding has a value for
each of its free variables, so closed nodes become ground, and grounding them twice is the same as
grounding them once. -/

namespace ModelExpansion

variable {S : Structure}

/-! ## What is ground stays as it is -/

mutual

theorem groundTerm_of_isGround :
    ∀ (t : Term) (b : Binding), t.isGround = true → groundTerm S b t = .ok t
  | .var _, _, h => by cases h
  | .element _, _, _ => by rw [groundTerm]; rfl
  | .apply _ args, b, h => by
      rw [Term.isGround] at h
      rw [groundTerm, groundTerms_of_areGround args b h]
      rfl
  | .aggregate _ set, b, h => by
      rw [Term.isGround] at h
      rw [groundTerm, groundSet_of_isGround set b h]
      rfl

theorem groundTerms_of_areGround : ∀ (ts : List Term) (b : Binding), Term.areGround ts = true →
    groundTerms S b ts = .ok ts
  | [], _, _ => by rw [groundTerms]; rfl
  | t :: ts, b, h => by
      rw [Term.areGround, Bool.and_eq_true] at h
      rw [groundTerms, groundTerm_of_isGround t b h.1, groundTerms_of_areGround ts b h.2]
      rfl

theorem groundSet_of_isGround : ∀ (set : SetExpr) (b : Binding), set.isGround = true →
    groundSet S b set = .ok set
  | .enumerated ms, b, h => by
      rw [SetExpr.isGround] at h
      rw [groundSet, groundMembers_of_areGround ms b h]
      rfl
  | .comprehension _ _ _, _, h => by cases h

theorem groundMembers_of_areGround :
    ∀ (ms : List Member) (b : Binding), SetExpr.areGround ms = true →
    groundMembers S b ms = .ok ms
  | [], _, _ => by rw [groundMembers]; rfl
  | (condition, weight) :: ms, b, h => by
      rw [SetExpr.areGround, Bool.and_eq_true, Bool.and_eq_true] at h
      rw [groundMembers, groundFormula_of_isGround condition b h.1.1,
        groundTerm_of_isGround weight b h.1.2, groundMembers_of_areGround ms b h.2]
      rfl

theorem groundFormula_of_isGround : ∀ (f : Formula) (b : Binding), f.isGround = true →
    groundFormula S b f = .ok f
  | .atom _ _ args, b, h => by
      rw [Formula.isGround] at h
      rw [groundFormula, groundTerms_of_areGround args b h]
      rfl
  | .junction _ _ children, b, h => by
      rw [Formula.isGround] at h
      rw [groundFormula, groundFormulas_of_areGround children b h]
      rfl
  | .quantified _ _ _ _, _, h => by cases h
  | .equivalence _ left right, b, h => by
      rw [Formula.isGround, Bool.and_eq_true] at h
      rw [groundFormula, groundFormula_of_isGround left b h.1,
        groundFormula_of_isGround right b h.2]
      rfl
  | .comparison _ terms _, b, h => by
      rw [Formula.isGround] at h
      rw [groundFormula, groundTerms_of_areGround terms b h]
      rfl

theorem groundFormulas_of_areGround :
    ∀ (fs : List Formula) (b : Binding), Formula.areGround fs = true →
    groundFormulas S b fs = .ok fs
  | [], _, _ => by rw [groundFormulas]; rfl
  | f :: fs, b, h => by
      rw [Formula.areGround, Bool.and_eq_true] at h
      rw [groundFormulas, groundFormula_of_isGround f b h.1, groundFormulas_of_areGround fs b h.2]
      rfl

end

/-- Without variables there is one tuple, the empty one. -/
theorem Structure.instances_nil {α : Type} (f : Tuple → Except Failure α) :
    S.instances [] f = f [] >>= fun x => pure [x] := by
  rw [instances, List.map_nil, domains, List.mapM_nil, pure_bind, mapTuplesM_eq, product,
    List.mapM_cons]
  rfl

/-- A ground rule is its only instance. -/
theorem groundRule_of_isGround {r : Rule} (h : r.isGround = true) : groundRule S r = .ok [r] := by
  obtain ⟨vars, head, args, body⟩ := r
  simp only [Rule.isGround, Bool.and_eq_true, List.isEmpty_iff] at h
  obtain ⟨⟨rfl, hargs⟩, hbody⟩ := h
  rw [groundRule, Structure.instances_nil]
  dsimp only
  rw [groundTerms_of_areGround args _ hargs, groundFormula_of_isGround body _ hbody]
  rfl

theorem groundRules_of_isGround {rules : List Rule} (h : ∀ r ∈ rules, r.isGround = true) :
    groundRules S rules = .ok rules := by
  have hmap : rules.mapM (groundRule S) = .ok (rules.map fun r => [r]) := by
    induction rules with
    | nil => rfl
    | cons r rules ih =>
        obtain ⟨hr, hrules⟩ := List.forall_mem_cons.mp h
        rw [List.mapM_cons, groundRule_of_isGround hr, ih hrules]
        rfl
  rw [groundRules, hmap, Except.ok_bind, ← List.flatMap_def, List.flatMap_singleton']
  rfl

/-! ## Variables with a value -/

/-- A binding covers variables if it has a value for the number of each of them; their names and
sorts do not matter. -/
def Binding.Covers (b : Binding) (xs : List Var) : Prop := ∀ x ∈ xs, ∃ e, b.lookup x.id = some e

namespace Binding

variable {b : Binding} {xs ys vars : List Var} {t : Tuple}

theorem covers_append : b.Covers (xs ++ ys) ↔ b.Covers xs ∧ b.Covers ys := List.forall_mem_append

theorem covers_nil (b : Binding) : b.Covers [] := fun _ hx => absurd hx List.not_mem_nil

/-- Binding more variables leaves none without a value. -/
theorem Covers.extend (h : b.Covers xs) : (b.extend vars t).Covers xs := by
  rw [Binding.extend]
  generalize vars.zip t = pairs
  induction pairs generalizing b with
  | nil => exact h
  | cons xe pairs ih =>
      refine ih fun x hx => ?_
      rw [List.lookup_cons]
      cases x.id == xe.1.id with
      | true => exact ⟨xe.2, rfl⟩
      | false => exact h x hx

theorem extend_cons (x : Var) (e : Element) :
    b.extend (x :: vars) (e :: t) = extend ((x.id, e) :: b) vars t := rfl

theorem covers_extend (h : t.length = vars.length) : (b.extend vars t).Covers vars := by
  induction vars generalizing b t with
  | nil => exact covers_nil _
  | cons x vars ih =>
      cases t with
      | nil => cases h
      | cons e t =>
          rw [extend_cons]
          refine List.forall_mem_cons.mpr ⟨?_, ih (Nat.succ.inj h)⟩
          have hx : Covers ((x.id, e) :: b) [x] :=
            List.forall_mem_singleton.mpr ⟨e, List.lookup_cons_self⟩
          exact hx.extend x (List.mem_singleton_self x)

/-- Inside a binder each variable has a value: it is one of the binder's own, or it was free
outside. -/
theorem Covers.bind (h : b.Covers (xs.filter fun x => !vars.contains x))
    (ht : t.length = vars.length) :
    (b.extend vars t).Covers xs := by
  intro x hx
  by_cases hvars : x ∈ vars
  · exact covers_extend ht x hvars
  · exact h.extend x (List.mem_filter.mpr ⟨hx, by simp [hvars]⟩)

end Binding

theorem Structure.exists_length_eq_of_mem_instances {α : Type} {vars : List Var}
    {f : Tuple → Except Failure α}
    {xs : List α} (h : S.instances vars f = .ok xs) {x : α} (hx : x ∈ xs) :
    ∃ t : Tuple, t.length = vars.length ∧ f t = .ok x := by
  obtain ⟨t, ht, hft⟩ :=
    exists_left_of_forall₂ (forall₂_of_instances_eq_ok (I := fun _ => false) h) hx
  have hlength := (mem_product.mp ht).length_eq
  rw [List.length_map] at hlength
  exact ⟨t, hlength.symm, hft⟩

/-! ## What is closed becomes ground -/

theorem Formula.areGround_iff {fs : List Formula} :
    Formula.areGround fs = true ↔ ∀ f ∈ fs, f.isGround = true := by
  induction fs with
  | nil => exact iff_of_true rfl fun f hf => absurd hf List.not_mem_nil
  | cons f fs ih => rw [Formula.areGround, Bool.and_eq_true, ih, List.forall_mem_cons]

theorem SetExpr.areGround_iff {ms : List Member} :
    SetExpr.areGround ms = true ↔ ∀ m ∈ ms, m.1.isGround = true ∧ m.2.isGround = true := by
  induction ms with
  | nil => exact iff_of_true rfl fun m hm => absurd hm List.not_mem_nil
  | cons m ms ih =>
    rw [SetExpr.areGround, Bool.and_eq_true, Bool.and_eq_true, ih, List.forall_mem_cons]

mutual

theorem isGround_of_groundTerm : ∀ (t : Term) {b : Binding} {g : Term}, b.Covers t.freeVars →
    groundTerm S b t = .ok g → g.isGround = true
  | .var x, b, g, hb, h => by
      obtain ⟨e, he⟩ := hb x (by rw [Term.freeVars]; exact List.mem_singleton_self x)
      rw [groundTerm, he] at h
      cases h
      rfl
  | .element _, b, g, _, h => by
      rw [groundTerm] at h
      cases h
      rfl
  | .apply _ args, b, g, hb, h => by
      rw [Term.freeVars] at hb
      rw [groundTerm, Except.bind_eq_ok] at h
      obtain ⟨gs, hgs, h⟩ := h
      cases h
      rw [Term.isGround]
      exact areGround_of_groundTerms args hb hgs
  | .aggregate _ set, b, g, hb, h => by
      rw [Term.freeVars] at hb
      rw [groundTerm, Except.bind_eq_ok] at h
      obtain ⟨gset, hset, h⟩ := h
      cases h
      rw [Term.isGround]
      exact isGround_of_groundSet set hb hset

theorem areGround_of_groundTerms : ∀ (ts : List Term) {b : Binding} {gs : List Term},
    b.Covers (Term.freeVarsList ts) → groundTerms S b ts = .ok gs → Term.areGround gs = true
  | [], b, gs, _, h => by
      rw [groundTerms] at h
      cases h
      rfl
  | t :: ts, b, gs, hb, h => by
      rw [Term.freeVarsList, Binding.covers_append] at hb
      simp only [groundTerms, Except.bind_eq_ok] at h
      obtain ⟨g, hg, gs', hgs, h⟩ := h
      cases h
      rw [Term.areGround, isGround_of_groundTerm t hb.1 hg, areGround_of_groundTerms ts hb.2 hgs]
      rfl

theorem isGround_of_groundSet :
    ∀ (set : SetExpr) {b : Binding} {g : SetExpr}, b.Covers set.freeVars →
    groundSet S b set = .ok g → g.isGround = true
  | .enumerated ms, b, g, hb, h => by
      rw [SetExpr.freeVars] at hb
      rw [groundSet, Except.bind_eq_ok] at h
      obtain ⟨gs, hgs, h⟩ := h
      cases h
      rw [SetExpr.isGround]
      exact areGround_of_groundMembers ms hb hgs
  | .comprehension vars condition weight, b, g, hb, h => by
      rw [SetExpr.freeVars] at hb
      rw [groundSet, Except.bind_eq_ok] at h
      obtain ⟨ms, hms, h⟩ := h
      cases h
      rw [SetExpr.isGround, SetExpr.areGround_iff]
      intro m hm
      obtain ⟨t, ht, hm⟩ := Structure.exists_length_eq_of_mem_instances hms hm
      obtain ⟨hcondition, hweight⟩ := Binding.covers_append.mp (hb.bind ht)
      obtain ⟨c, hc, hm⟩ := Except.bind_eq_ok.mp hm
      cases t with
      | cons e es =>
          cases hm
          exact ⟨isGround_of_groundFormula condition hcondition hc, rfl⟩
      | nil =>
          obtain ⟨w, hw, hm⟩ := Except.bind_eq_ok.mp hm
          cases hm
          exact ⟨isGround_of_groundFormula condition hcondition hc,
            isGround_of_groundTerm weight hweight hw⟩

theorem areGround_of_groundMembers : ∀ (ms : List Member) {b : Binding} {gs : List Member},
    b.Covers (SetExpr.freeVarsMembers ms) → groundMembers S b ms = .ok gs →
    SetExpr.areGround gs = true
  | [], b, gs, _, h => by
      rw [groundMembers] at h
      cases h
      rfl
  | (condition, weight) :: ms, b, gs, hb, h => by
      rw [SetExpr.freeVarsMembers, Binding.covers_append, Binding.covers_append] at hb
      simp only [groundMembers, Except.bind_eq_ok] at h
      obtain ⟨c, hc, w, hw, gs', hgs, h⟩ := h
      cases h
      rw [SetExpr.areGround, isGround_of_groundFormula condition hb.1.1 hc,
        isGround_of_groundTerm weight hb.1.2 hw, areGround_of_groundMembers ms hb.2 hgs]
      rfl

theorem isGround_of_groundFormula :
    ∀ (f : Formula) {b : Binding} {g : Formula}, b.Covers f.freeVars →
    groundFormula S b f = .ok g → g.isGround = true
  | .atom _ _ args, b, g, hb, h => by
      rw [Formula.freeVars] at hb
      rw [groundFormula, Except.bind_eq_ok] at h
      obtain ⟨gs, hgs, h⟩ := h
      cases h
      rw [Formula.isGround]
      exact areGround_of_groundTerms args hb hgs
  | .junction _ _ children, b, g, hb, h => by
      rw [Formula.freeVars] at hb
      rw [groundFormula, Except.bind_eq_ok] at h
      obtain ⟨gs, hgs, h⟩ := h
      cases h
      rw [Formula.isGround]
      exact areGround_of_groundFormulas children hb hgs
  | .quantified _ _ vars body, b, g, hb, h => by
      rw [Formula.freeVars] at hb
      rw [groundFormula, Except.bind_eq_ok] at h
      obtain ⟨gs, hgs, h⟩ := h
      cases h
      rw [Formula.isGround, Formula.areGround_iff]
      intro g hg
      obtain ⟨t, ht, hg⟩ := Structure.exists_length_eq_of_mem_instances hgs hg
      exact isGround_of_groundFormula body (hb.bind ht) hg
  | .equivalence _ left right, b, g, hb, h => by
      rw [Formula.freeVars, Binding.covers_append] at hb
      simp only [groundFormula, Except.bind_eq_ok] at h
      obtain ⟨l, hl, r, hr, h⟩ := h
      cases h
      rw [Formula.isGround, isGround_of_groundFormula left hb.1 hl,
        isGround_of_groundFormula right hb.2 hr]
      rfl
  | .comparison _ terms _, b, g, hb, h => by
      rw [Formula.freeVars] at hb
      rw [groundFormula, Except.bind_eq_ok] at h
      obtain ⟨gs, hgs, h⟩ := h
      cases h
      rw [Formula.isGround]
      exact areGround_of_groundTerms terms hb hgs

theorem areGround_of_groundFormulas : ∀ (fs : List Formula) {b : Binding} {gs : List Formula},
    b.Covers (Formula.freeVarsList fs) → groundFormulas S b fs = .ok gs →
    Formula.areGround gs = true
  | [], b, gs, _, h => by
      rw [groundFormulas] at h
      cases h
      rfl
  | f :: fs, b, gs, hb, h => by
      rw [Formula.freeVarsList, Binding.covers_append] at hb
      simp only [groundFormulas, Except.bind_eq_ok] at h
      obtain ⟨g, hg, gs', hgs, h⟩ := h
      cases h
      rw [Formula.areGround, isGround_of_groundFormula f hb.1 hg,
        areGround_of_groundFormulas fs hb.2 hgs]
      rfl

end

theorem isGround_of_mem_groundRule {r : Rule} {gs : List Rule} (hr : r.freeVars = [])
    (h : groundRule S r = .ok gs) {g : Rule} (hg : g ∈ gs) : g.isGround = true := by
  obtain ⟨t, ht, hg⟩ := Structure.exists_length_eq_of_mem_instances h hg
  obtain ⟨args, hargs, hg⟩ := Except.bind_eq_ok.mp hg
  obtain ⟨body, hbody, hg⟩ := Except.bind_eq_ok.mp hg
  cases hg
  have hcovers : Binding.Covers [] r.freeVars := hr ▸ Binding.covers_nil []
  obtain ⟨hhead, hrest⟩ := Binding.covers_append.mp (hcovers.bind ht)
  rw [Rule.isGround, areGround_of_groundTerms r.args hhead hargs,
    isGround_of_groundFormula r.body hrest hbody]
  rfl

/-! ## Grounding twice -/

/-- A second pass that keeps what the first one gives can be left out. -/
theorem Except.bind_eq_self {ε α : Type} {x : Except ε α} {f : α → Except ε α}
    (h : ∀ a, x = .ok a → f a = .ok a) :
    (x >>= f) = x :=
  (Except.bind_congr_ok h).trans (bind_pure x)

/-- Grounding leaves ground formulas, terms, sets and rules as they are. What it makes of closed
ones is ground, so that grounding these twice, whether it succeeds or fails, is grounding them
once. -/
theorem ground_stable (S : Structure) :
    ((∀ f : Formula, f.isGround = true → groundFormula S [] f = .ok f) ∧
      (∀ t : Term, t.isGround = true → groundTerm S [] t = .ok t) ∧
      (∀ set : SetExpr, set.isGround = true → groundSet S [] set = .ok set) ∧
      ∀ r : Rule, r.isGround = true → groundRule S r = .ok [r]) ∧
    (∀ f : Formula, f.freeVars = [] → (∀ g, groundFormula S [] f = .ok g → g.isGround = true) ∧
      (groundFormula S [] f >>= groundFormula S []) = groundFormula S [] f) ∧
    (∀ t : Term, t.freeVars = [] → (∀ g, groundTerm S [] t = .ok g → g.isGround = true) ∧
      (groundTerm S [] t >>= groundTerm S []) = groundTerm S [] t) ∧
    (∀ set : SetExpr, set.freeVars = [] → (∀ g, groundSet S [] set = .ok g → g.isGround = true) ∧
      (groundSet S [] set >>= groundSet S []) = groundSet S [] set) ∧
    ∀ r : Rule, r.freeVars = [] → (∀ gs, groundRule S r = .ok gs → ∀ g ∈ gs, g.isGround = true) ∧
      (groundRule S r >>= groundRules S) = groundRule S r := by
  have hclosed : ∀ {xs : List Var}, xs = [] → Binding.Covers [] xs :=
    fun h => h ▸ Binding.covers_nil []
  refine ⟨⟨fun f => groundFormula_of_isGround f [], fun t => groundTerm_of_isGround t [],
    fun set => groundSet_of_isGround set [], fun r => groundRule_of_isGround⟩, ?_, ?_, ?_, ?_⟩
  · intro f hf
    have hground : ∀ g, groundFormula S [] f = .ok g → g.isGround = true := fun g =>
      isGround_of_groundFormula f (hclosed hf)
    exact ⟨hground, Except.bind_eq_self fun g hg => groundFormula_of_isGround g [] (hground g hg)⟩
  · intro t ht
    have hground : ∀ g, groundTerm S [] t = .ok g → g.isGround = true := fun g =>
      isGround_of_groundTerm t (hclosed ht)
    exact ⟨hground, Except.bind_eq_self fun g hg => groundTerm_of_isGround g [] (hground g hg)⟩
  · intro set hset
    have hground : ∀ g, groundSet S [] set = .ok g → g.isGround = true := fun g =>
      isGround_of_groundSet set (hclosed hset)
    exact ⟨hground, Except.bind_eq_self fun g hg => groundSet_of_isGround g [] (hground g hg)⟩
  · intro r hr
    have hground : ∀ gs, groundRule S r = .ok gs → ∀ g ∈ gs, g.isGround = true := fun gs hgs g =>
      isGround_of_mem_groundRule hr hgs
    exact ⟨hground, Except.bind_eq_self fun gs hgs => groundRules_of_isGround (hground gs hgs)⟩

/-- A formula that binds a variable twice, a set that drops its weight, their sum, and a rule with
four instances, all grounded and grounded again. -/
theorem ground_stable_lamps :
    (∃ g, groundFormula evening [] someLamp = .ok g ∧ g.isGround = true ∧
      groundFormula evening [] g = .ok g) ∧
    (∃ g, groundSet evening [] litPairs = .ok g ∧ g.isGround = true ∧
      groundSet evening [] g = .ok g) ∧
    (∃ g, groundTerm evening [] (.aggregate .sum litPairs) = .ok g ∧ g.isGround = true ∧
      groundTerm evening [] g = .ok g) ∧
    ∃ gs, groundRule evening ownNeighbour = .ok gs ∧ gs.length = 4 ∧
      ∀ g ∈ gs, g.isGround = true ∧ groundRule evening g = .ok [g] := by
  obtain ⟨⟨hformula, hterm, hset, hrule⟩, hformulas, hterms, hsets, hrules⟩ := ground_stable evening
  have hgroundFormula : ∃ g, groundFormula evening [] someLamp = .ok g := ⟨_, rfl⟩
  have hgroundSet : ∃ g, groundSet evening [] litPairs = .ok g := ⟨_, rfl⟩
  have hgroundTerm : ∃ g, groundTerm evening [] (.aggregate .sum litPairs) = .ok g := ⟨_, rfl⟩
  have hgroundRule : ∃ gs, groundRule evening ownNeighbour = .ok gs ∧ gs.length = 4 := ⟨_, rfl, rfl⟩
  refine ⟨hgroundFormula.imp fun g hg => ?_, hgroundSet.imp fun g hg => ?_,
    hgroundTerm.imp fun g hg => ?_,
    hgroundRule.imp fun gs hgs => ⟨hgs.1, hgs.2, fun g hg => ?_⟩⟩
  · have hground := (hformulas someLamp (by decide)).1 g hg
    exact ⟨hg, hground, hformula g hground⟩
  · have hground := (hsets litPairs (by decide)).1 g hg
    exact ⟨hg, hground, hset g hground⟩
  · have hground := (hterms (.aggregate .sum litPairs) (by decide)).1 g hg
    exact ⟨hg, hground, hterm g hground⟩
  · have hground := (hrules ownNeighbour (by decide)).1 gs hgs.1 g hg
    exact ⟨hground, hrule g hground⟩

end ModelExpansion
