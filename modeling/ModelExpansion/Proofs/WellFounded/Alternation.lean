import ModelExpansion.Proofs.WellFounded.LeastModel

/-! # The well-founded model
Least closed sets shrink as the set that is fixed grows, so two of them in a row grow with it.
Repeating them from the empty set on ends in the least set they give back, and the one after it is
the greatest. -/

namespace ModelExpansion

variable {base : Structure} {defined : List SymbolId} {rules : List Rule}

namespace Admissible

variable (h : Admissible base defined rules)

include h

theorem exists_least : ∃ G : AtomSet → AtomSet, Antitone G ∧
    (∀ X, leastModel base defined rules X = .ok (G X)) ∧
    ∀ X, IsLeast {Z | ClosedUnder base defined rules X Z} (G X) := by
  choose G hG hleast using h.leastModel_spec
  exact ⟨G, fun X Y hXY => h.least_antitone hXY (hleast X) (hleast Y), hG, hleast⟩

end Admissible

section Alternation

variable {G : AtomSet → AtomSet} (hG : Antitone G)
  (hleast : ∀ X, leastModel base defined rules X = .ok (G X))
  (hheads : ∀ X, ∀ a ∈ G X, a ∈ heads rules)

include hG hleast hheads

/-- From a lower bound that two least models in a row do not take away from, the alternation ends in
the least set that they give back. A round that does not end it adds a head. -/
theorem alternate_spec {n : Nat} {lower : AtomSet} (hn : missing rules lower < n)
    (hgrows : lower ≤ G (G lower)) (hbound : ∀ X, X = G (G X) → lower ≤ X) :
    ∃ w, alternate base defined rules n lower = .ok w ∧ IsLeast {X | X = G (G X)} w.certain ∧
      w.possible = G w.certain := by
  induction n generalizing lower with
  | zero => exact absurd hn (Nat.not_lt_zero _)
  | succ n ih =>
      simp only [alternate, hleast, Except.ok_bind]
      by_cases hend : G (G lower) = lower
      · rw [if_pos hend]
        exact ⟨⟨lower, G lower⟩, rfl, ⟨hend.symm, hbound⟩, rfl⟩
      · rw [if_neg hend]
        apply ih
        · have hnew : ∃ a ∈ G (G lower), a ∉ lower := by
            by_contra hnone
            push Not at hnone
            exact hend (le_antisymm hnone hgrows)
          obtain ⟨a, ha, hlower⟩ := hnew
          have hlt := missing_lt hgrows (hheads _ a ha) hlower ha
          omega
        · exact hG (hG hgrows)
        · intro X hX
          rw [hX]
          exact hG (hG (hbound X hX))

theorem wellFoundedModel_of_antitone :
    ∃ w, wellFoundedModel base defined rules = .ok w ∧ IsLeast {X | X = G (G X)} w.certain ∧
      w.possible = G w.certain := by
  refine alternate_spec hG hleast hheads ?_ (AtomSet.empty_le _) fun X _ => AtomSet.empty_le X
  calc missing rules ∅ ≤ rules.length := missing_le rules ∅
    _ < 2 ^ rules.length := Nat.lt_two_pow_self
    _ < alternationBound rules := Nat.lt_succ_self _

end Alternation

/-- What comes after the least set given back by two least models in a row is the greatest one. -/
theorem isGreatest_of_isLeast {G : AtomSet → AtomSet} (hG : Antitone G) {X : AtomSet}
    (hX : IsLeast {X | X = G (G X)} X) : IsGreatest {X | X = G (G X)} (G X) := by
  constructor
  · exact congrArg G hX.1
  · intro Y hY
    have hGY : G Y ∈ {X | X = G (G X)} := congrArg G hY
    calc Y = G (G Y) := hY
      _ ≤ G X := hG (hX.2 hGY)

/-- Over a structure on which no body fails to have a truth value, rules for predicates with literal
heads and no defined symbol inside an aggregate have a well-founded model. Let `G` give, for each
set that the negative occurrences are read from, the least set closed under the rules. Then the
certain atoms are the least set and the possible ones the greatest set that `G` after `G` gives
back. -/
theorem wellFoundedModel_alternates (hhead : ∀ r ∈ rules, ∃ t, r.headTuple? = some t)
    (hpredicate : ∀ r ∈ rules, base.isFunction r.head = false)
    (haggregate : ∀ r ∈ rules, ∀ p ∈ r.body.aggregateSymbols, p ∉ headSymbols rules)
    (heval :
      ∀ r ∈ rules, ∀ X Y, ∃ x,
        evalFormula (stage base (headSymbols rules) X Y) true r.body = .ok x) :
    ∃ G : AtomSet → AtomSet,
      (∀ X, IsLeast {Z | ClosedUnder base (headSymbols rules) rules X Z} (G X)) ∧
      ∃ w, wellFoundedModel base (headSymbols rules) rules = .ok w ∧
        IsLeast {X | X = G (G X)} w.certain ∧ w.possible = G w.certain ∧
        IsGreatest {X | X = G (G X)} w.possible ∧ w.certain ≤ w.possible := by
  have h : Admissible base (headSymbols rules) rules :=
    { head := hhead
      predicate := by simpa [headSymbols] using hpredicate
      aggregate := haggregate
      evaluates := heval }
  obtain ⟨G, hG, hmodel, hleast⟩ := h.exists_least
  obtain ⟨w, hw, hcertain, hpossible⟩ :=
    wellFoundedModel_of_antitone hG hmodel fun X _ ha => mem_heads_of_least (hleast X) ha
  have hgreatest := isGreatest_of_isLeast hG hcertain
  rw [← hpossible] at hgreatest
  exact ⟨G, hleast, w, hw, hcertain, hpossible, hgreatest, hcertain.2 hgreatest.1⟩

/-- Positions of a game, in which nothing is recorded about which of them are won. -/
def game : Structure where
  vocabulary := ⟨[⟨"position", []⟩], [⟨"won", [0], none⟩]⟩
  tables := [.range 1 4]
  facts := ∅

/-- A position is won if there is a move to one that is not. -/
def move (source target : Int) : Rule :=
  ⟨[], 0, [.element (.int source)], .atom false 0 [.element (.int target)]⟩

/-- The first position is won, the second lost, and the other two, between which the players may go
back and forth, are undecided. -/
theorem wellFoundedModel_alternates_moves : ∃ G : AtomSet → AtomSet,
    (∀ X, IsLeast {Z | ClosedUnder game [0] [move 1 2, move 3 4, move 4 3] X Z} (G X)) ∧
    ∃ w, wellFoundedModel game [0] [move 1 2, move 3 4, move 4 3] = .ok w ∧
      IsLeast {X | X = G (G X)} w.certain ∧ w.possible = G w.certain ∧
      IsGreatest {X | X = G (G X)} w.possible ∧ w.certain ≤ w.possible := by
  refine wellFoundedModel_alternates ?_ ?_ ?_ ?_
  · simp [move, Rule.headTuple?, Term.element?]
  · decide
  · simp [move, Formula.aggregateSymbols, Term.aggregateSymbols, Term.aggregateSymbolsList]
  · simp only [List.forall_mem_cons]
    exact ⟨fun _ _ => ⟨_, rfl⟩, fun _ _ => ⟨_, rfl⟩, fun _ _ => ⟨_, rfl⟩, by simp⟩

example : (wellFoundedModel game [0] [move 1 2, move 3 4, move 4 3]).toOption.map
    (fun w => (w.certain.toList, w.undefined)) =
      some ([⟨0, [.int 1]⟩], [⟨0, [.int 3]⟩, ⟨0, [.int 4]⟩]) := by
  decide +kernel

end ModelExpansion
