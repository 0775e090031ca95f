import ModelExpansion.Proofs.NestedFixpoint.Value
import ModelExpansion.Proofs.WellFounded.Completion

/-! # Completion of a nested fixpoint definition
Levels are solved one after the other, each on top of the values of those before. Where no level
asks for the atoms of the levels after it, the value has those atoms that some rule, at any level,
gives. -/

namespace ModelExpansion

variable {base : Structure} {defined : List SymbolId}

/-! ## Layers -/

mutual

/-- Whether no level, here or inside, mentions in the bodies of its rules what the levels after it
define. -/
def Fixpoint.isLayered : Fixpoint → Bool
  | .level _ _ nested => Fixpoint.areLayered nested

def Fixpoint.areLayered : List Fixpoint → Bool
  | [] => true
  | l :: ls =>
    l.isLayered && (l.allRules.all fun r => (Fixpoint.allRulesList ls).all fun s =>
      !r.body.symbols.contains s.head)
      && Fixpoint.areLayered ls

end

/-- Some atoms, added to those around, complete rules: they are all given by the rules, and whatever
the rules give is there. Defined atoms are read from the result. -/
structure Completed (base : Structure) (defined : List SymbolId) (rules : List Rule)
    (outer context : AtomSet) :
    Prop where
  le : outer ≤ context
  closed : ClosedUnder base defined rules context context
  supported : ∀ a ∈ context, a ∉ outer → ∃ r ∈ rules, r.Gives (stage base defined context context) a

/-- A rule gives the same when only atoms are added that its body does not mention. -/
theorem Rule.gives_congr {C C' : AtomSet} (hle : C ≤ C') {r : Rule}
    (hnew : ∀ a ∈ C', a ∉ C → a.symbol ∉ r.body.symbols) (a : Atom) :
    r.Gives (stage base defined C C) a ↔ r.Gives (stage base defined C' C') a := by
  have hsame : ∀ p ∈ r.body.symbols, ∀ t, C.truth p t = C'.truth p t := by
    intro p hp t
    have hmem : (⟨p, t⟩ : Atom) ∈ C ↔ (⟨p, t⟩ : Atom) ∈ C' :=
      ⟨hle _, fun ht => by_contra fun hopen => hnew _ ht hopen hp⟩
    rw [AtomSet.truth, AtomSet.truth, Bool.eq_iff_iff.mpr hmem]
  have hbody : evalFormula (stage base defined C C) true r.body =
      evalFormula (stage base defined C' C') true r.body := by
    refine evalFormula_congr r.body fun p hp => ⟨fun positive t => ?_, fun t => ?_⟩
    · simp [stage, hsame p hp]
    · simp [stage, Valuation.fromGraph, hsame p hp]
  rw [Rule.Gives, Rule.Gives, hbody]

/-! ## What a level has found -/

/-- A level without heads has no rules. -/
theorem eq_nil_of_levelHeads {rules : List Rule} (h : levelHeads rules = .ok ∅) : rules = [] := by
  cases rules with
  | nil => rfl
  | cons r rs =>
      simp only [levelHeads, List.mapM_cons, Except.bind_eq_ok, Except.pure_eq_ok] at h
      obtain ⟨_, ⟨a, -, as, -, rfl⟩, h⟩ := h
      have hmem : a ∈ (∅ : AtomSet) := by
        rw [← h, Std.ExtTreeSet.mem_ofList]
        simp
      simp at hmem

/-- A level that converges has found atoms that its rules give back. Without heads there is nothing
to find. -/
theorem exists_of_iterateLevel {inner : AtomSet → Except Failure FixpointValue}
    {derive : AtomSet → Except Failure AtomSet} {outer heads own V : AtomSet} {n : Nat}
    (hempty : heads = ∅ → n ≠ 0 ∧ ∀ C X, derive C = .ok X → X = own)
    (h : iterateLevel inner derive outer heads n own = .ok (.converged V)) :
    ∃ X context, inner (outer ∪ X) = .ok (.converged context) ∧ derive context = .ok X ∧
      V = context.filter fun a => !outer.contains a := by
  induction n generalizing own with
  | zero =>
      rw [iterateLevel] at h
      split at h
      · cases h
      · next hnil =>
          have hheads : heads = ∅ := Std.ExtTreeSet.ext_mem fun a => by
            rw [← Std.ExtTreeSet.mem_toList, hnil]
            simp
          exact absurd rfl (hempty hheads).1
  | succ n ih =>
      rw [iterateLevel, Except.bind_eq_ok, AtomSet.insertMany_toList] at h
      obtain ⟨value, hinner, h⟩ := h
      cases value with
      | oscillating a => cases h
      | converged context =>
          rw [Except.bind_eq_ok] at h
          obtain ⟨next, hnext, h⟩ := h
          split at h
          · next hsettled =>
              cases h
              exact ⟨own, context, hinner, hsettled ▸ hnext, rfl⟩
          · next hchanged =>
              exact ih (fun hheads => absurd ((hempty hheads).2 _ _ hnext) hchanged) h

theorem exists_of_solveLevel {least : Bool} {rules : List Rule} {nested : List Fixpoint}
    {outer V : AtomSet}
    (h : solveLevel base defined (.level least rules nested) outer = .ok (.converged V)) :
    ∃ X context, solveLevels base defined nested (outer ∪ X) = .ok (.converged context) ∧
      (∀ a, a ∈ X ↔ ∃ r ∈ rules, r.Gives (stage base defined context context) a) ∧
      V = context.filter fun a => !outer.contains a := by
  rw [solveLevel, Except.bind_eq_ok] at h
  obtain ⟨heads, hheads, h⟩ := h
  have hempty : heads = ∅ → heads.size + 2 ≠ 0 ∧
      ∀ C X, applyRules base defined rules C = .ok X → X = if least then ∅ else heads := by
    rintro rfl
    refine ⟨by omega, fun C X hX => ?_⟩
    obtain rfl := eq_nil_of_levelHeads hheads
    cases hX
    cases least <;> rfl
  obtain ⟨X, context, hinner, hderive, hV⟩ := exists_of_iterateLevel hempty h
  exact ⟨X, context, hinner, mem_applyRules hderive, hV⟩

/-! ## Completion -/

namespace Completed

variable {rules rules' : List Rule} {outer C C' : AtomSet}

/-- The rules of a level give back its own atoms, and the levels inside are completed on top of
these. -/
theorem level {X : AtomSet} (hX : ∀ a, a ∈ X ↔ ∃ r ∈ rules, r.Gives (stage base defined C C) a)
    (h : Completed base defined rules' (outer ∪ X) C) :
    Completed base defined (rules ++ rules') outer C where
  le := (AtomSet.le_union_left outer X).trans h.le
  closed := by
    intro r hr a hgives
    rcases List.mem_append.mp hr with hr | hr
    · exact h.le a (AtomSet.mem_union.mpr (.inr ((hX a).mpr ⟨r, hr, hgives⟩)))
    · exact h.closed r hr a hgives
  supported := by
    intro a ha hopen
    by_cases hown : a ∈ X
    · obtain ⟨r, hr, hgives⟩ := (hX a).mp hown
      exact ⟨r, List.mem_append_left _ hr, hgives⟩
    · obtain ⟨r, hr, hgives⟩ :=
        h.supported a ha fun hmem => (AtomSet.mem_union.mp hmem).elim hopen hown
      exact ⟨r, List.mem_append_right _ hr, hgives⟩

/-- Rules that do not mention what later ones define stay completed when these are. -/
theorem append (h : Completed base defined rules outer C) (h' : Completed base defined rules' C C')
    (hlayered : ∀ r ∈ rules, ∀ s ∈ rules', s.head ∉ r.body.symbols) :
    Completed base defined (rules ++ rules') outer C' := by
  have hgives : ∀ r ∈ rules, ∀ a, r.Gives (stage base defined C C) a ↔
      r.Gives (stage base defined C' C') a := by
    intro r hr a
    refine Rule.gives_congr h'.le (fun b hb hopen => ?_) a
    obtain ⟨s, hs, hhead, -⟩ := h'.supported b hb hopen
    rw [← Rule.head_of_headAtom hhead]
    exact hlayered r hr s hs
  refine ⟨h.le.trans h'.le, fun r hr a ha => ?_, fun a ha hopen => ?_⟩
  · rcases List.mem_append.mp hr with hr | hr
    · exact h'.le a (h.closed r hr a ((hgives r hr a).mpr ha))
    · exact h'.closed r hr a ha
  · by_cases hearlier : a ∈ C
    · obtain ⟨r, hr, hr'⟩ := h.supported a hearlier hopen
      exact ⟨r, List.mem_append_left _ hr, (hgives r hr a).mp hr'⟩
    · obtain ⟨r, hr, hr'⟩ := h'.supported a ha hearlier
      exact ⟨r, List.mem_append_right _ hr, hr'⟩

end Completed

mutual

theorem solveLevel_completed : ∀ {L : Fixpoint} {outer V : AtomSet}, L.isLayered = true →
    solveLevel base defined L outer = .ok (.converged V) →
    Completed base defined L.allRules outer (outer ∪ V)
  | .level least rules nested, outer, V, hlayered, h => by
      obtain ⟨X, context, hnested, hX, rfl⟩ := exists_of_solveLevel h
      have hcompleted := (solveLevels_completed hlayered hnested).level hX
      rwa [AtomSet.union_filter_not_contains hcompleted.le]

theorem solveLevels_completed :
    ∀ {Ls : List Fixpoint} {outer context : AtomSet}, Fixpoint.areLayered Ls = true →
    solveLevels base defined Ls outer = .ok (.converged context) →
    Completed base defined (Fixpoint.allRulesList Ls) outer context
  | [], outer, context, hlayered, h => by
      cases h
      exact ⟨le_rfl,
        by simp [ClosedUnder, Fixpoint.allRulesList], fun a ha hopen => absurd ha hopen⟩
  | l :: ls, outer, context, hlayered, h => by
      simp only [Fixpoint.areLayered, Bool.and_eq_true, List.all_eq_true, Bool.not_eq_true',
        ← Bool.not_eq_true, List.contains_iff_mem] at hlayered
      obtain ⟨⟨hl, hlater⟩, hls⟩ := hlayered
      rw [solveLevels, Except.bind_eq_ok] at h
      obtain ⟨value, hvalue, h⟩ := h
      cases value with
      | oscillating a => cases h
      | converged V =>
          dsimp only at h
          rw [AtomSet.insertMany_toList] at h
          exact (solveLevel_completed hl hvalue).append (solveLevels_completed hls h) hlater

end

/-- The value of a nested fixpoint definition in layers satisfies the completion of all its levels
together: its atoms are those that some rule, at any level, gives. -/
theorem fixpointModel_completion {F : Fixpoint} {X : AtomSet} (hlayered : F.isLayered = true)
    (h : fixpointModel base F = .ok (.converged X)) (a : Atom) :
    a ∈ X ↔ ∃ r ∈ F.allRules, r.Gives (stage base F.defined X X) a := by
  have hcompleted := solveLevel_completed hlayered h
  rw [show ∅ ∪ X = X from Std.ExtTreeSet.ext_mem fun b => by simp] at hcompleted
  constructor
  · exact fun ha => hcompleted.supported a ha (by simp)
  · rintro ⟨r, hr, hgives⟩
    exact hcompleted.closed r hr a hgives

deriving instance DecidableEq for FixpointValue

/-- The left lamp follows the right one and is looked at first. -/
def relay : Fixpoint :=
  .level true [] [.level true [⟨[], 0, [], .pred 1 []⟩] [], .level true [⟨[], 1, [], .conj []⟩] []]

/-- A level that asks for what a later one defines is not completed: the right lamp is on, and the
left one stays off although its rule says that it is on. -/
theorem relay_not_completed :
    relay.isLayered = false ∧ ∃ X r, fixpointModel lamps relay = .ok (.converged X) ∧
    r ∈ relay.allRules ∧ r.Gives (stage lamps relay.defined X X) ⟨0, []⟩ ∧
    (⟨0, []⟩ : Atom) ∉ X := by
  have hvalue : fixpointModel lamps relay = .ok (.converged (.ofList [(⟨1, []⟩ : Atom)])) := by
    decide +kernel
  exact ⟨by decide, _, _, hvalue, List.mem_cons_self, ⟨rfl, by decide +kernel⟩, by decide +kernel⟩

end ModelExpansion
