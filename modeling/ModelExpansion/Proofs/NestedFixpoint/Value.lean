import ModelExpansion.Proofs.NestedFixpoint.Iteration

/-! # Values of positive levels
A level whose bodies ask for the defined atoms at positive occurrences only is a monotone function
of the atoms around it, and so are the levels inside. Its own atoms are the least or the greatest
set that one application of its rules gives back. -/

namespace ModelExpansion

variable {base : Structure} {defined : List SymbolId}

/-! ## What a value is -/

mutual

/-- Whether a level, inside some atoms, has a value that makes up, together with them, a set of
atoms. Its own atoms are the least or the greatest set that consists of what the rules give, where
the defined atoms are read from the atoms around, the set itself and the values of the levels inside
on top of both. -/
def Fixpoint.IsValue (base : Structure) (defined : List SymbolId) :
    Fixpoint → AtomSet → AtomSet → Prop
  | .level least rules nested, outer, context =>
    ∃ own, IsExtreme least {X | ∃ C, Fixpoint.AreValues base defined nested (outer ∪ X) C ∧
        ∀ a, a ∈ X ↔ ∃ r ∈ rules, r.Gives (stage base defined C C) a} own ∧
      Fixpoint.AreValues base defined nested (outer ∪ own) context

/-- Whether levels, each on top of the values of those before, make up some atoms together with
those around them. -/
def Fixpoint.AreValues (base : Structure) (defined : List SymbolId) :
    List Fixpoint → AtomSet → AtomSet → Prop
  | [], outer, context => context = outer
  | l :: ls, outer, context =>
    ∃ C, l.IsValue base defined outer C ∧ Fixpoint.AreValues base defined ls C context

end

mutual

/-- The level and all levels inside it. -/
def Fixpoint.levels : Fixpoint → List Fixpoint
  | .level least rules nested => .level least rules nested :: Fixpoint.levelsList nested

def Fixpoint.levelsList : List Fixpoint → List Fixpoint
  | [] => []
  | l :: ls => l.levels ++ Fixpoint.levelsList ls

end

mutual

theorem Fixpoint.allRules_subset_of_mem_levels {L : Fixpoint} : ∀ {F : Fixpoint}, L ∈ F.levels →
    L.allRules ⊆ F.allRules
  | .level least rules nested, h => by
      rw [Fixpoint.levels, List.mem_cons] at h
      rcases h with rfl | h
      · exact List.Subset.refl _
      · exact List.subset_append_of_subset_right _ (Fixpoint.allRules_subset_of_mem_levelsList h)

theorem Fixpoint.allRules_subset_of_mem_levelsList {L : Fixpoint} : ∀ {Ls : List Fixpoint},
    L ∈ Fixpoint.levelsList Ls → L.allRules ⊆ Fixpoint.allRulesList Ls
  | [], h => absurd h List.not_mem_nil
  | l :: ls, h => by
      rw [Fixpoint.levelsList, List.mem_append] at h
      rcases h with h | h
      · exact List.subset_append_of_subset_left _ (Fixpoint.allRules_subset_of_mem_levels h)
      · exact List.subset_append_of_subset_right _ (Fixpoint.allRules_subset_of_mem_levelsList h)

end

/-! ## Positive rules -/

/-- Rules whose bodies have a truth value for every set of defined atoms. The defined symbols are
predicates and occur in bodies only below an even number of negative signs and outside equivalences
and aggregates. -/
structure PositiveRules (base : Structure) (defined : List SymbolId)
    (rules : List Rule) : Prop where
  predicate : ∀ p ∈ defined, base.isFunction p = false
  positive : ∀ r ∈ rules, ∀ p ∈ r.body.nonpositive true, p ∉ defined
  evaluates : ∀ r ∈ rules, ∀ X, ∃ x, evalFormula (stage base defined X X) true r.body = .ok x

/-- Stages that differ at negative occurrences only. -/
theorem stage_samePositive (X Y Y' : AtomSet) :
    (stage base defined X Y).SamePositive (stage base defined X Y') defined where
  positive _ _ := rfl
  same p hp := by
    constructor
    · intro positive t
      simp [stage, hp]
    · intro t
      simp [stage, hp]
  function _ _ := rfl

namespace PositiveRules

variable {rules rules' : List Rule}

theorem subset (h : PositiveRules base defined rules) (hsubset : rules' ⊆ rules) :
    PositiveRules base defined rules' :=
  ⟨h.predicate, fun r hr => h.positive r (hsubset hr), fun r hr => h.evaluates r (hsubset hr)⟩

theorem evalFormula_stage (h : PositiveRules base defined rules) {r : Rule} (hr : r ∈ rules)
    (X Y Y' : AtomSet) :
    evalFormula (stage base defined X Y) true r.body =
      evalFormula (stage base defined X Y') true r.body :=
  evalFormula_congr_positive (stage_samePositive X Y Y') r.body (h.positive r hr)

theorem admissible (h : PositiveRules base defined rules)
    (hhead : ∀ r ∈ rules, ∃ t, r.headTuple? = some t) :
    Admissible base defined rules where
  head := hhead
  predicate := h.predicate
  aggregate r hr p hp :=
    h.positive r hr p (Formula.aggregateSymbols_subset_nonpositive r.body true hp)
  evaluates r hr X Y := by
    rw [h.evalFormula_stage hr X Y X]
    exact h.evaluates r hr X

/-- What a rule gives it still gives when there are more atoms. -/
theorem gives_mono (h : PositiveRules base defined rules)
    (hhead : ∀ r ∈ rules, ∃ t, r.headTuple? = some t)
    {X X' : AtomSet} (hX : X ≤ X') {r : Rule} (hr : r ∈ rules) {a : Atom}
    (hgives : r.Gives (stage base defined X X) a) : r.Gives (stage base defined X' X') a := by
  obtain ⟨hatom, hbody⟩ := (h.admissible hhead).gives_mono hX le_rfl hr hgives
  exact ⟨hatom, (h.evalFormula_stage hr X' X' X).trans hbody⟩

end PositiveRules

/-! ## Application of the rules -/

theorem exists_trueHeads (v : Valuation) {rules : List Rule}
    (hhead : ∀ r ∈ rules, ∃ a, r.headAtom = .ok a)
    (heval : ∀ r ∈ rules, ∃ x, evalFormula v true r.body = .ok x) :
    ∃ new, trueHeads v rules = .ok new := by
  induction rules with
  | nil => exact ⟨[], rfl⟩
  | cons r rs ih =>
      obtain ⟨⟨head, hr⟩, hhead⟩ := List.forall_mem_cons.mp hhead
      obtain ⟨⟨x, hx⟩, heval⟩ := List.forall_mem_cons.mp heval
      obtain ⟨new, hnew⟩ := ih hhead heval
      simp only [trueHeads, hr, hx, hnew, Except.ok_bind]
      split
      · exact ⟨head :: new, rfl⟩
      · exact ⟨new, rfl⟩

theorem mem_trueHeads {v : Valuation} {rules : List Rule} {new : List Atom}
    (h : trueHeads v rules = .ok new) (a : Atom) : a ∈ new ↔ ∃ r ∈ rules, r.Gives v a := by
  induction rules generalizing new with
  | nil =>
      cases h
      simp
  | cons r rs ih =>
      rw [trueHeads, Except.bind_eq_ok] at h
      obtain ⟨x, hx, h⟩ := h
      rw [List.exists_mem_cons_iff, Rule.Gives, hx]
      split at h
      · next hyes =>
          simp only [Except.bind_eq_ok, Except.pure_eq_ok] at h
          obtain ⟨head, hhead, rest, hrest, rfl⟩ := h
          rw [List.mem_cons, ih hrest, hhead, hyes]
          simp [eq_comm]
      · next hno => rw [ih h, or_iff_right fun hgives => hno (Except.ok.inj hgives.2)]

theorem mem_applyRules {rules : List Rule} {C X : AtomSet}
    (h : applyRules base defined rules C = .ok X) (a : Atom) :
    a ∈ X ↔ ∃ r ∈ rules, r.Gives (stage base defined C C) a := by
  rw [applyRules, Except.bind_eq_ok] at h
  obtain ⟨new, hnew, h⟩ := h
  cases h
  rw [Std.ExtTreeSet.mem_ofList, List.contains_iff_mem, mem_trueHeads hnew]

theorem levelHeads_eq {rules : List Rule} (hhead : ∀ r ∈ rules, ∃ a, r.headAtom = .ok a) :
    levelHeads rules = .ok (.ofList (heads rules)) := by
  have hmap : rules.mapM Rule.headAtom = .ok (heads rules) := by
    induction rules with
    | nil => rfl
    | cons r rs ih =>
        obtain ⟨⟨a, ha⟩, hhead⟩ := List.forall_mem_cons.mp hhead
        have hcons : heads (r :: rs) = a :: heads rs := by
          rw [heads, List.filterMap_cons, ha]
          rfl
        rw [List.mapM_cons, ha, ih hhead, hcons]
        rfl
  rw [levelHeads, hmap]
  rfl

theorem levelHeads_error {rules : List Rule} (hhead : ¬ ∀ r ∈ rules, ∃ t, r.headTuple? = some t) :
    levelHeads rules = .error (.notGround "rule head") := by
  have hmap : rules.mapM Rule.headAtom = .error (.notGround "rule head") := by
    induction rules with
    | nil => exact absurd (fun r hr => absurd hr List.not_mem_nil) hhead
    | cons r rs ih =>
        rw [List.forall_mem_cons, not_and_or] at hhead
        rw [List.mapM_cons, Rule.headAtom]
        cases ht : r.headTuple? with
        | none => rfl
        | some t =>
            rw [ih (hhead.resolve_left fun h => h ⟨t, ht⟩)]
            rfl
  rw [levelHeads, hmap]
  rfl

/-- Applying positive rules to some atoms is a monotone function of them. -/
theorem PositiveRules.exists_applyRules {rules : List Rule} (h : PositiveRules base defined rules)
    (hhead : ∀ r ∈ rules, ∃ t, r.headTuple? = some t) : ∃ R : AtomSet → AtomSet, Monotone R ∧
      (∀ C, R C ≤ .ofList (heads rules)) ∧ (∀ C, applyRules base defined rules C = .ok (R C)) ∧
      ∀ C a, a ∈ R C ↔ ∃ r ∈ rules, r.Gives (stage base defined C C) a := by
  have hatom : ∀ r ∈ rules, ∃ a, r.headAtom = .ok a := fun r hr => (h.admissible hhead).headAtom hr
  have happly : ∀ C, ∃ Z : AtomSet, applyRules base defined rules C = .ok Z ∧
      ∀ a, a ∈ Z ↔ ∃ r ∈ rules, r.Gives (stage base defined C C) a := by
    intro C
    obtain ⟨new, hnew⟩ :=
      exists_trueHeads (stage base defined C C) hatom fun r hr => h.evaluates r hr C
    have hok : applyRules base defined rules C = .ok (.ofList new) := by
      rw [applyRules, hnew]
      rfl
    exact ⟨_, hok, mem_applyRules hok⟩
  choose R hR hmem using happly
  refine ⟨R, fun C C' hC a ha => ?_, fun C a ha => ?_, hR, hmem⟩
  · obtain ⟨r, hr, hgives⟩ := (hmem C a).mp ha
    exact (hmem C' a).mpr ⟨r, hr, h.gives_mono hhead hC hr hgives⟩
  · obtain ⟨r, hr, hgives⟩ := (hmem C a).mp ha
    rw [Std.ExtTreeSet.mem_ofList, List.contains_iff_mem]
    exact mem_heads.mpr ⟨r, hr, hgives.1⟩

/-! ## Levels as functions -/

/-- A level is a monotone function from the atoms around it to these and its value. -/
structure Fixpoint.Computes (base : Structure) (defined : List SymbolId) (L : Fixpoint)
    (G : AtomSet → AtomSet) :
    Prop where
  monotone : Monotone G
  le : ∀ C, C ≤ G C
  solve : ∀ C, solveLevel base defined L C = .ok (.converged ((G C).filter fun a => !C.contains a))
  isValue : ∀ {C C'}, L.IsValue base defined C C' ↔ C' = G C

/-- Levels, one after the other, are a monotone function from the atoms around them to these and all
values. -/
structure Fixpoint.ComputeAll (base : Structure) (defined : List SymbolId) (Ls : List Fixpoint)
    (N : AtomSet → AtomSet) : Prop where
  monotone : Monotone N
  le : ∀ C, C ≤ N C
  solve : ∀ C, solveLevels base defined Ls C = .ok (.converged (N C))
  areValues : ∀ {C C'}, Fixpoint.AreValues base defined Ls C C' ↔ C' = N C

theorem Fixpoint.ComputeAll.nil : Fixpoint.ComputeAll base defined [] id where
  monotone := monotone_id
  le _ := le_rfl
  solve _ := by rw [solveLevels]; rfl
  areValues := by simp [Fixpoint.AreValues]

theorem Fixpoint.ComputeAll.cons {L : Fixpoint} {Ls : List Fixpoint} {G N : AtomSet → AtomSet}
    (hL : L.Computes base defined G) (hLs : Fixpoint.ComputeAll base defined Ls N) :
    Fixpoint.ComputeAll base defined (L :: Ls) (N ∘ G) where
  monotone := hLs.monotone.comp hL.monotone
  le C := (hL.le C).trans (hLs.le (G C))
  solve C := by
    rw [solveLevels, hL.solve, Except.ok_bind]
    simp only [AtomSet.insertMany_toList, AtomSet.union_filter_not_contains (hL.le C)]
    exact hLs.solve (G C)
  areValues := by
    intro C C'
    simp only [Fixpoint.AreValues, hL.isValue, hLs.areValues, exists_eq_left, Function.comp_apply]

theorem Fixpoint.exists_computes_level {least : Bool} {rules : List Rule} {nested : List Fixpoint}
    (h : PositiveRules base defined rules) (hhead : ∀ r ∈ rules, ∃ t, r.headTuple? = some t)
    {N : AtomSet → AtomSet} (hN : Fixpoint.ComputeAll base defined nested N) :
    ∃ G, (Fixpoint.level least rules nested).Computes base defined G := by
  obtain ⟨R, hmono, hheads, happly, hmem⟩ := h.exists_applyRules hhead
  let H : AtomSet := .ofList (heads rules)
  let own := fun C => (levelRound N R C)^[H.size] (start least H)
  have hround : ∀ C, Monotone (levelRound N R C) := fun C X Y hXY =>
    hmono (hN.monotone (AtomSet.union_le_union le_rfl hXY))
  have hextreme : ∀ C, IsExtreme least {X | levelRound N R C X = X} (own C) := fun C =>
    isExtreme_iterate_start (hround C) (fun X => hheads _) least
  have hown : Monotone own := fun C C' hC =>
    (hround C).iterate_le_of_le
      (fun X => hmono (hN.monotone (AtomSet.union_le_union hC le_rfl))) H.size _
  refine ⟨fun C => N (C ∪ own C), ⟨?_, ?_, ?_, ?_⟩⟩
  · intro C C' hC
    exact hN.monotone (AtomSet.union_le_union hC (hown hC))
  · intro C
    exact (AtomSet.le_union_left C (own C)).trans (hN.le _)
  · intro C
    have hsettled := iterate_start_settles (hround C) (fun X => hheads _) least
    rw [solveLevel, levelHeads_eq fun r hr => (h.admissible hhead).headAtom hr, Except.ok_bind]
    exact iterateLevel_eq hN.solve happly (Nat.lt_add_of_pos_right Nat.two_pos) hsettled
  · intro C C'
    have hsets : {X | ∃ D, AreValues base defined nested (C ∪ X) D ∧
        ∀ a, a ∈ X ↔ ∃ r ∈ rules, r.Gives (stage base defined D D) a} =
        {X | levelRound N R C X = X} := by
      ext X
      have hgiven : ∀ a, (∃ r ∈ rules, r.Gives (stage base defined (N (C ∪ X)) (N (C ∪ X))) a) ↔
          a ∈ levelRound N R C X := fun a => (hmem (N (C ∪ X)) a).symm
      simp only [hN.areValues, exists_eq_left, Set.mem_ofPred_eq, hgiven]
      exact ⟨fun h => Std.ExtTreeSet.ext_mem fun a => (h a).symm, fun h a => by rw [h]⟩
    rw [IsValue, hsets]
    simp only [hN.areValues]
    constructor
    · rintro ⟨X, hX, rfl⟩
      rw [hX.unique (hextreme C)]
    · rintro rfl
      exact ⟨own C, hextreme C, rfl⟩

mutual

theorem Fixpoint.exists_computes : ∀ {L : Fixpoint}, PositiveRules base defined L.allRules →
    (∀ r ∈ L.allRules, ∃ t, r.headTuple? = some t) → ∃ G, L.Computes base defined G
  | .level least rules nested, h, hhead => by
      rw [Fixpoint.allRules] at h hhead
      obtain ⟨hrules, hnested⟩ := List.forall_mem_append.mp hhead
      obtain ⟨N, hN⟩ := Fixpoint.exists_computeAll (h.subset (List.subset_append_right _ _)) hnested
      exact Fixpoint.exists_computes_level (h.subset (List.subset_append_left _ _)) hrules hN

theorem Fixpoint.exists_computeAll :
    ∀ {Ls : List Fixpoint}, PositiveRules base defined (Fixpoint.allRulesList Ls) →
    (∀ r ∈ Fixpoint.allRulesList Ls, ∃ t, r.headTuple? = some t) →
    ∃ N, Fixpoint.ComputeAll base defined Ls N
  | [], _, _ => ⟨id, .nil⟩
  | L :: Ls, h, hhead => by
      rw [Fixpoint.allRulesList] at h hhead
      obtain ⟨hL, hLs⟩ := List.forall_mem_append.mp hhead
      obtain ⟨G, hG⟩ := Fixpoint.exists_computes (h.subset (List.subset_append_left _ _)) hL
      obtain ⟨N, hN⟩ := Fixpoint.exists_computeAll (h.subset (List.subset_append_right _ _)) hLs
      exact ⟨N ∘ G, .cons hG hN⟩

end

mutual

/-- A level with a head that is not written out, here or inside, is given up. -/
theorem solveLevel_error : ∀ {L : Fixpoint}, PositiveRules base defined L.allRules →
    (¬ ∀ r ∈ L.allRules, ∃ t, r.headTuple? = some t) → ∀ C,
    solveLevel base defined L C = .error (.notGround "rule head")
  | .level least rules nested, h, hhead, C => by
      rw [Fixpoint.allRules] at h hhead
      rw [List.forall_mem_append, not_and_or] at hhead
      rw [solveLevel]
      by_cases hrules : ∀ r ∈ rules, ∃ t, r.headTuple? = some t
      · have hnested := solveLevels_error (h.subset (List.subset_append_right _ _))
          (hhead.resolve_left fun h => h hrules)
        have hrules := (h.subset (List.subset_append_left _ _)).admissible hrules
        rw [levelHeads_eq fun r hr => hrules.headAtom hr, Except.ok_bind]
        simp only [iterateLevel, hnested]
        rfl
      · rw [levelHeads_error hrules]
        rfl

theorem solveLevels_error :
    ∀ {Ls : List Fixpoint}, PositiveRules base defined (Fixpoint.allRulesList Ls) →
    (¬ ∀ r ∈ Fixpoint.allRulesList Ls, ∃ t, r.headTuple? = some t) → ∀ C,
    solveLevels base defined Ls C = .error (.notGround "rule head")
  | [], _, hhead, _ => absurd (fun r hr => absurd hr List.not_mem_nil) hhead
  | L :: Ls, h, hhead, C => by
      rw [Fixpoint.allRulesList] at h hhead
      rw [List.forall_mem_append, not_and_or] at hhead
      have hL := h.subset (List.subset_append_left _ _)
      rw [solveLevels]
      by_cases hliteral : ∀ r ∈ L.allRules, ∃ t, r.headTuple? = some t
      · obtain ⟨G, hG⟩ := Fixpoint.exists_computes hL hliteral
        rw [hG.solve, Except.ok_bind]
        exact solveLevels_error (h.subset (List.subset_append_right _ _))
          (hhead.resolve_left fun h => h hliteral) _
      · rw [solveLevel_error hL hliteral]
        rfl

end

theorem Fixpoint.mem_levels_self (F : Fixpoint) : F ∈ F.levels := by
  cases F with
  | level least rules nested =>
      rw [Fixpoint.levels]
      exact List.mem_cons_self

/-- A nested fixpoint definition with positive rules never oscillates. Every level with heads that
are written out, here and inside, has exactly one value inside any atoms: its own atoms are the
least or the greatest set that its rules give back, and solving it finds what the value adds to the
atoms around it. -/
theorem fixpointModel_positive {F : Fixpoint} (h : PositiveRules base F.defined F.allRules) :
    (∀ a, fixpointModel base F ≠ .ok (.oscillating a)) ∧
    ∀ L ∈ F.levels, (∀ r ∈ L.allRules, ∃ t, r.headTuple? = some t) → ∀ outer, ∃ context,
      L.IsValue base F.defined outer context ∧
      (∀ C, L.IsValue base F.defined outer C → C = context) ∧
      solveLevel base F.defined L outer =
      .ok (.converged (context.filter fun a => !outer.contains a)) := by
  have hlevel : ∀ L ∈ F.levels, (∀ r ∈ L.allRules, ∃ t, r.headTuple? = some t) →
      ∃ G, L.Computes base F.defined G := fun L hL hhead =>
    Fixpoint.exists_computes (h.subset (Fixpoint.allRules_subset_of_mem_levels hL)) hhead
  constructor
  · intro a hvalue
    rw [fixpointModel] at hvalue
    by_cases hhead : ∀ r ∈ F.allRules, ∃ t, r.headTuple? = some t
    · obtain ⟨G, hG⟩ := hlevel F F.mem_levels_self hhead
      rw [hG.solve] at hvalue
      cases hvalue
    · rw [solveLevel_error h hhead] at hvalue
      cases hvalue
  · intro L hL hhead outer
    obtain ⟨G, hG⟩ := hlevel L hL hhead
    exact ⟨G outer, hG.isValue.mpr rfl, fun C hC => hG.isValue.mp hC, hG.solve outer⟩

/-- The right lamp keeps itself on, and the left one follows it. -/
def glow : Fixpoint :=
  .level true [⟨[], 0, [], .pred 1 []⟩] [.level false [⟨[], 1, [], .pred 1 []⟩] []]

theorem glow_converges : PositiveRules lamps glow.defined glow.allRules ∧
    (∀ a, fixpointModel lamps glow ≠ .ok (.oscillating a)) ∧
    ∃ context, glow.IsValue lamps glow.defined ∅ context ∧
      fixpointModel lamps glow =
      .ok (.converged (context.filter fun a => !(∅ : AtomSet).contains a)) := by
  have hrules : glow.allRules = [⟨[], 0, [], .pred 1 []⟩, ⟨[], 1, [], .pred 1 []⟩] := rfl
  have hpositive : PositiveRules lamps glow.defined glow.allRules := by
    refine ⟨by decide, by decide, ?_⟩
    rw [hrules, List.forall_mem_cons, List.forall_mem_singleton]
    exact ⟨fun _ => ⟨_, rfl⟩, fun _ => ⟨_, rfl⟩⟩
  obtain ⟨hsettles, hlevel⟩ := fixpointModel_positive hpositive
  obtain ⟨context, hvalue, -, hsolve⟩ := hlevel glow glow.mem_levels_self (by
    rw [hrules, List.forall_mem_cons, List.forall_mem_singleton]
    exact ⟨⟨[], rfl⟩, ⟨[], rfl⟩⟩) ∅
  exact ⟨hpositive, hsettles, context, hvalue, hsolve⟩

end ModelExpansion
