import Mathlib.Data.List.Forall2
import ModelExpansion.Proofs.World

/-! # Grounding keeps the truth
A ground formula is true in a world over the same tables exactly if the formula was under the
binding. -/

namespace ModelExpansion

/-! ## Computations that may fail -/

theorem Except.bind_eq_ok {ε α β : Type} {x : Except ε α} {f : α → Except ε β} {b : β} :
    (x >>= f) = .ok b ↔ ∃ a, x = .ok a ∧ f a = .ok b := by
  cases x with
  | error e => simp [bind, Except.bind]
  | ok a => simp [bind, Except.bind]

theorem Except.ok_bind {ε α β : Type} (a : α) (f : α → Except ε β) : (Except.ok a >>= f) = f a :=
  rfl

theorem Except.pure_eq_ok {ε α : Type} {a b : α} : (pure a : Except ε α) = .ok b ↔ a = b := by
  simp [pure, Except.pure]

theorem Except.toOption_eq_some_iff {ε α : Type} {x : Except ε α} {a : α} :
    x.toOption = some a ↔ x = .ok a := by
  cases x <;> simp [Except.toOption]

/-- Two continuations agree if they do on the result. -/
theorem Except.bind_congr_ok {ε α β : Type} {x : Except ε α} {f g : α → Except ε β}
    (h : ∀ a, x = .ok a → f a = g a) : (x >>= f) = (x >>= g) := by
  cases x with
  | error e => rfl
  | ok a => exact h a rfl

theorem allM_eq_ok_true_iff {ε α : Type} {test : α → Except ε Bool} {xs : List α} :
    xs.allM test = .ok true ↔ ∀ x ∈ xs, test x = .ok true := by
  induction xs with
  | nil => simp [pure, Except.pure]
  | cons x xs ih =>
      rw [List.allM_cons, Except.bind_eq_ok, List.forall_mem_cons, ← ih]
      constructor
      · rintro ⟨b, hb, h⟩
        cases b with
        | true => exact ⟨hb, h⟩
        | false => cases h
      · rintro ⟨hx, h⟩
        exact ⟨true, hx, h⟩

theorem exists_mapM_eq_ok {ε α β : Type} {f : α → Except ε β} {xs : List α}
    (h : ∀ x ∈ xs, ∃ y, f x = .ok y) :
    ∃ ys, xs.mapM f = .ok ys := by
  induction xs with
  | nil => exact ⟨[], rfl⟩
  | cons x xs ih =>
      obtain ⟨⟨y, hy⟩, hxs⟩ := List.forall_mem_cons.mp h
      obtain ⟨ys, hys⟩ := ih hxs
      exact ⟨y :: ys, by rw [List.mapM_cons, hy, hys]; rfl⟩

theorem forall₂_of_mapM_eq_ok {ε α β : Type} {f : α → Except ε β} {xs : List α} {ys : List β}
    (h : xs.mapM f = .ok ys) : List.Forall₂ (fun x y => f x = .ok y) xs ys := by
  induction xs generalizing ys with
  | nil =>
      rw [List.mapM_nil, Except.pure_eq_ok] at h
      subst h
      exact .nil
  | cons x xs ih =>
      rw [List.mapM_cons, Except.bind_eq_ok] at h
      obtain ⟨y, hy, h⟩ := h
      rw [Except.bind_eq_ok] at h
      obtain ⟨ys', hys, h⟩ := h
      rw [Except.pure_eq_ok] at h
      subst h
      exact .cons hy (ih hys)

theorem exists_mem_zip {α β : Type} {r : α → β → Prop} {xs : List α} {ys : List β}
    (h : List.Forall₂ r xs ys) {x : α} (hx : x ∈ xs) : ∃ y, (x, y) ∈ xs.zip ys ∧ r x y := by
  induction h with
  | nil => cases hx
  | @cons a b _ _ hab _ ih =>
      rcases List.mem_cons.mp hx with rfl | hx
      · exact ⟨b, List.mem_cons_self, hab⟩
      · obtain ⟨y, hy, hxy⟩ := ih hx
        exact ⟨y, List.mem_cons_of_mem _ hy, hxy⟩

theorem exists_right_of_forall₂ {α β : Type} {r : α → β → Prop} {xs : List α} {ys : List β}
    (h : List.Forall₂ r xs ys) {x : α} (hx : x ∈ xs) : ∃ y ∈ ys, r x y := by
  obtain ⟨y, hy, hxy⟩ := exists_mem_zip h hx
  exact ⟨y, (List.of_mem_zip hy).2, hxy⟩

theorem exists_left_of_forall₂ {α β : Type} {r : α → β → Prop} {xs : List α} {ys : List β}
    (h : List.Forall₂ r xs ys) {y : β} (hy : y ∈ ys) : ∃ x ∈ xs, r x y :=
  exists_right_of_forall₂ (List.Forall₂.flip (a := ys) (b := xs) h) hy

theorem map_eq_map_of_forall₂ {α β γ : Type} {r : α → β → Prop} {f : α → γ} {g : β → γ}
    {xs : List α}
    {ys : List β} (h : List.Forall₂ r xs ys) (hfg : ∀ x y, r x y → g y = f x) :
    ys.map g = xs.map f := by
  induction h with
  | nil => rfl
  | cons hxy _ ih => rw [List.map_cons, List.map_cons, ih, hfg _ _ hxy]

/-! ## Domains -/

namespace Structure

variable {S : Structure}

theorem elements_of_domain {sort : SortId} {es : List Element} (h : S.domain sort = .ok es) :
    S.elements sort = es := by
  rw [elements, h]
  rfl

theorem domains_eq_map {sorts : List SortId} {ds : List (List Element)}
    (h : S.domains sorts = .ok ds) :
    ds = sorts.map S.elements := by
  have hmap := map_eq_map_of_forall₂ (g := id) (forall₂_of_mapM_eq_ok h) fun _ _ hd =>
    (elements_of_domain hd).symm
  rwa [List.map_id] at hmap

theorem forall₂_of_instances_eq_ok {α : Type} {vars : List Var} {f : Tuple → Except Failure α}
    {xs : List α} {I : Atom → Bool} (h : S.instances vars f = .ok xs) :
    List.Forall₂ (fun t x => f t = .ok x) ((S.worldOf I).tuples vars) xs := by
  rw [instances, Except.bind_eq_ok] at h
  obtain ⟨ds, hds, h⟩ := h
  rw [mapTuplesM_eq] at h
  have hforall := forall₂_of_mapM_eq_ok h
  rwa [domains_eq_map hds, List.map_map] at hforall

theorem exists_of_mem_instances {α : Type} {vars : List Var} {f : Tuple → Except Failure α}
    {xs : List α} (h : S.instances vars f = .ok xs) {x : α} (hx : x ∈ xs) : ∃ t, f t = .ok x := by
  obtain ⟨t, -, ht⟩ :=
    exists_left_of_forall₂ (forall₂_of_instances_eq_ok (I := fun _ => false) h) hx
  exact ⟨t, ht⟩

end Structure

/-! ## Lists of formulas and terms -/

namespace World

variable (W : World) (b : Binding)

theorem values_eq_map (ts : List Term) : W.values b ts = ts.map (W.value b) := by
  induction ts with
  | nil => rfl
  | cons t ts ih => rw [values, ih, List.map_cons]

theorem truths_eq_map (fs : List Formula) : W.truths b fs = fs.map (W.truth b) := by
  induction fs with
  | nil => rfl
  | cons f fs ih => rw [truths, ih, List.map_cons]

theorem forall_truth_iff (fs : List Formula) :
    (∀ f ∈ fs, W.truth b f = true) ↔ (W.truths b fs).all id = true := by
  rw [truths_eq_map, List.all_map, List.all_eq_true]
  rfl

theorem listed_eq_map (kind : Aggregate) (ms : List Member) :
    W.listed b kind ms = ms.map fun m => (W.truth b m.1, W.weight kind (W.value b m.2)) := by
  induction ms with
  | nil => rfl
  | cons m ms ih => rw [listed, ih, List.map_cons]

end World

/-! ## Truth and values -/

section Ground

variable {S : Structure} {I : Atom → Bool}

mutual

theorem value_groundTerm : ∀ (t : Term) {b : Binding} {g : Term}, groundTerm S b t = .ok g →
    (S.worldOf I).value [] g = (S.worldOf I).value b t
  | .var x, b, g, h => by
      rw [groundTerm] at h
      rw [World.value]
      cases hx : b.lookup x.id with
      | some e =>
          rw [hx] at h
          cases h
          rfl
      | none =>
          rw [hx] at h
          cases h
          rfl
  | .element e, b, g, h => by
      rw [groundTerm] at h
      cases h
      rfl
  | .apply f args, b, g, h => by
      rw [groundTerm, Except.bind_eq_ok] at h
      obtain ⟨gs, hgs, h⟩ := h
      cases h
      rw [World.value, World.value, values_groundTerms args hgs]
  | .aggregate kind set, b, g, h => by
      rw [groundTerm, Except.bind_eq_ok] at h
      obtain ⟨gset, hset, h⟩ := h
      cases h
      rw [World.value, World.value, members_groundSet set hset]

theorem values_groundTerms : ∀ (ts : List Term) {b : Binding} {gs : List Term},
    groundTerms S b ts = .ok gs → (S.worldOf I).values [] gs = (S.worldOf I).values b ts
  | [], b, gs, h => by
      rw [groundTerms] at h
      cases h
      rfl
  | t :: ts, b, gs, h => by
      rw [groundTerms, Except.bind_eq_ok] at h
      obtain ⟨g, hg, h⟩ := h
      rw [Except.bind_eq_ok] at h
      obtain ⟨gs', hgs, h⟩ := h
      cases h
      rw [World.values, World.values, value_groundTerm t hg, values_groundTerms ts hgs]

theorem members_groundSet : ∀ (set : SetExpr) {b : Binding} {g : SetExpr} {kind : Aggregate},
    groundSet S b set = .ok g →
    (S.worldOf I).members [] kind g = (S.worldOf I).members b kind set
  | .enumerated ms, b, g, kind, h => by
      rw [groundSet, Except.bind_eq_ok] at h
      obtain ⟨gs, hgs, h⟩ := h
      cases h
      rw [World.members, World.members, listed_groundMembers ms hgs]
  | .comprehension vars condition weightTerm, b, g, kind, h => by
      rw [groundSet, Except.bind_eq_ok] at h
      obtain ⟨gs, hgs, h⟩ := h
      cases h
      rw [World.members, World.members, World.listed_eq_map]
      refine map_eq_map_of_forall₂ (Structure.forall₂_of_instances_eq_ok hgs) fun t m hm => ?_
      rw [Except.bind_eq_ok] at hm
      obtain ⟨c, hc, hm⟩ := hm
      cases t with
      | nil =>
          rw [Except.bind_eq_ok] at hm
          obtain ⟨w, hw, hm⟩ := hm
          cases hm
          rw [truth_groundFormula condition hc, value_groundTerm weightTerm hw]
      | cons e es =>
          cases hm
          rw [truth_groundFormula condition hc, World.value]

theorem listed_groundMembers :
    ∀ (ms : List Member) {b : Binding} {gs : List Member} {kind : Aggregate},
    groundMembers S b ms = .ok gs →
    (S.worldOf I).listed [] kind gs = (S.worldOf I).listed b kind ms
  | [], b, gs, kind, h => by
      rw [groundMembers] at h
      cases h
      rfl
  | (condition, weightTerm) :: ms, b, gs, kind, h => by
      rw [groundMembers, Except.bind_eq_ok] at h
      obtain ⟨c, hc, h⟩ := h
      rw [Except.bind_eq_ok] at h
      obtain ⟨w, hw, h⟩ := h
      rw [Except.bind_eq_ok] at h
      obtain ⟨gs', hgs, h⟩ := h
      cases h
      rw [World.listed, World.listed, truth_groundFormula condition hc,
        value_groundTerm weightTerm hw, listed_groundMembers ms hgs]

theorem truth_groundFormula : ∀ (f : Formula) {b : Binding} {g : Formula},
    groundFormula S b f = .ok g → (S.worldOf I).truth [] g = (S.worldOf I).truth b f
  | .atom sign p args, b, g, h => by
      rw [groundFormula, Except.bind_eq_ok] at h
      obtain ⟨gs, hgs, h⟩ := h
      cases h
      rw [World.truth, World.truth, values_groundTerms args hgs]
  | .junction sign conjunctive children, b, g, h => by
      rw [groundFormula, Except.bind_eq_ok] at h
      obtain ⟨gs, hgs, h⟩ := h
      cases h
      rw [World.truth, World.truth, truths_groundFormulas children hgs]
  | .quantified sign universal vars body, b, g, h => by
      rw [groundFormula, Except.bind_eq_ok] at h
      obtain ⟨gs, hgs, h⟩ := h
      cases h
      rw [World.truth, World.truth, World.truths_eq_map]
      have hmap : gs.map ((S.worldOf I).truth []) =
          ((S.worldOf I).tuples vars).map fun t => (S.worldOf I).truth (b.extend vars t) body :=
        map_eq_map_of_forall₂ (Structure.forall₂_of_instances_eq_ok hgs) fun t g hg =>
          truth_groundFormula body hg
      rw [hmap]
  | .equivalence sign left right, b, g, h => by
      rw [groundFormula, Except.bind_eq_ok] at h
      obtain ⟨gl, hl, h⟩ := h
      rw [Except.bind_eq_ok] at h
      obtain ⟨gr, hr, h⟩ := h
      cases h
      rw [World.truth, World.truth, truth_groundFormula left hl, truth_groundFormula right hr]
  | .comparison sign terms comparators, b, g, h => by
      rw [groundFormula, Except.bind_eq_ok] at h
      obtain ⟨gs, hgs, h⟩ := h
      cases h
      rw [World.truth, World.truth, values_groundTerms terms hgs]

theorem truths_groundFormulas : ∀ (fs : List Formula) {b : Binding} {gs : List Formula},
    groundFormulas S b fs = .ok gs → (S.worldOf I).truths [] gs = (S.worldOf I).truths b fs
  | [], b, gs, h => by
      rw [groundFormulas] at h
      cases h
      rfl
  | f :: fs, b, gs, h => by
      rw [groundFormulas, Except.bind_eq_ok] at h
      obtain ⟨g, hg, h⟩ := h
      rw [Except.bind_eq_ok] at h
      obtain ⟨gs', hgs, h⟩ := h
      cases h
      rw [World.truths, World.truths, truth_groundFormula f hg, truths_groundFormulas fs hgs]

end

/-! ## Rules -/

/-- A ground rule that comes of a rule when its variables are bound to a tuple. -/
structure IsInstance (S : Structure) (r : Rule) (u : Tuple) (g : Rule) : Prop where
  vars : g.vars = []
  head : g.head = r.head
  args : groundTerms S (Binding.extend [] r.vars u) r.args = .ok g.args
  body : groundFormula S (Binding.extend [] r.vars u) r.body = .ok g.body

theorem forall₂_of_groundRule_eq_ok {r : Rule} {gs : List Rule} (h : groundRule S r = .ok gs) :
    List.Forall₂ (IsInstance S r) ((S.worldOf I).tuples r.vars) gs := by
  refine (Structure.forall₂_of_instances_eq_ok h).imp fun u g hg => ?_
  obtain ⟨args, hargs, hg⟩ := Except.bind_eq_ok.mp hg
  obtain ⟨body, hbody, hg⟩ := Except.bind_eq_ok.mp hg
  cases hg
  exact ⟨rfl, rfl, hargs, hbody⟩

variable {rules ground : List Rule}

theorem exists_of_mem_groundRules (h : groundRules S rules = .ok ground) {g : Rule}
    (hg : g ∈ ground) :
    ∃ r ∈ rules, ∃ u ∈ (S.worldOf I).tuples r.vars, IsInstance S r u g := by
  obtain ⟨instances, hinstances, h⟩ := Except.bind_eq_ok.mp h
  cases h
  obtain ⟨gs, hgs, hg⟩ := List.mem_flatten.mp hg
  obtain ⟨r, hr, hground⟩ := exists_left_of_forall₂ (forall₂_of_mapM_eq_ok hinstances) hgs
  obtain ⟨u, hu, hinstance⟩ := exists_left_of_forall₂ (forall₂_of_groundRule_eq_ok hground) hg
  exact ⟨r, hr, u, hu, hinstance⟩

theorem exists_mem_groundRules (h : groundRules S rules = .ok ground) {r : Rule}
    (hr : r ∈ rules) {u : Tuple}
    (hu : u ∈ (S.worldOf I).tuples r.vars) : ∃ g ∈ ground, IsInstance S r u g := by
  obtain ⟨instances, hinstances, h⟩ := Except.bind_eq_ok.mp h
  cases h
  obtain ⟨gs, hgs, hground⟩ := exists_right_of_forall₂ (forall₂_of_mapM_eq_ok hinstances) hr
  obtain ⟨g, hg, hinstance⟩ := exists_right_of_forall₂ (forall₂_of_groundRule_eq_ok hground) hu
  exact ⟨g, List.mem_flatten_of_mem hgs hg, hinstance⟩

theorem mem_headSymbols_groundRules (h : groundRules S rules = .ok ground) {p : SymbolId} :
    p ∈ headSymbols ground ↔ ∃ r ∈ rules, r.head = p ∧ (S.worldOf I).tuples r.vars ≠ [] := by
  rw [mem_headSymbols]
  constructor
  · rintro ⟨g, hg, rfl⟩
    obtain ⟨r, hr, u, hu, hinstance⟩ := exists_of_mem_groundRules (I := I) h hg
    exact ⟨r, hr, hinstance.head.symm, List.ne_nil_of_mem hu⟩
  · rintro ⟨r, hr, rfl, hinstances⟩
    obtain ⟨u, hu⟩ := List.exists_mem_of_ne_nil _ hinstances
    obtain ⟨g, hg, hinstance⟩ := exists_mem_groundRules h hr hu
    exact ⟨g, hg, hinstance.head⟩

theorem derives_groundRules (h : groundRules S rules = .ok ground) {a : Atom} :
    (S.worldOf I).Derives ground a ↔ (S.worldOf I).Derives rules a := by
  constructor
  · rintro ⟨g, hg, v, hv, hhead, hvalues, htruth⟩
    obtain ⟨r, hr, u, hu, hinstance⟩ := exists_of_mem_groundRules (I := I) h hg
    rw [hinstance.vars] at hv hvalues htruth
    obtain rfl := List.mem_singleton.mp hv
    refine ⟨r, hr, u, hu, hinstance.head.symm.trans hhead, ?_, ?_⟩
    · rw [← values_groundTerms r.args hinstance.args]
      exact hvalues
    · rw [← truth_groundFormula r.body hinstance.body]
      exact htruth
  · rintro ⟨r, hr, u, hu, hhead, hvalues, htruth⟩
    obtain ⟨g, hg, hinstance⟩ := exists_mem_groundRules h hr hu
    refine ⟨g, hg, [], ?_, hinstance.head.trans hhead, ?_, ?_⟩
    · rw [hinstance.vars]
      exact List.mem_singleton_self _
    · rw [hinstance.vars, ← hvalues, ← values_groundTerms r.args hinstance.args]
      rfl
    · rw [hinstance.vars, ← htruth, ← truth_groundFormula r.body hinstance.body]
      rfl

end Ground

end ModelExpansion
