import ModelExpansion.Proofs.WellFounded.Supported

/-! # The bounds of a well-founded model
Least models that are found shrink as the set that is fixed grows, whether or not other stages can
be evaluated. So each lower bound of an alternation is below its upper one, and whatever is certain
is possible, unless an aggregate counts what the rules define. -/

namespace ModelExpansion

variable {base : Structure} {defined : List SymbolId} {rules : List Rule}

/-- A round of an alternation gives an upper bound and the next lower one, and ends the alternation
if the lower bound has not changed. -/
theorem alternate_succ_eq_ok {n : Nat} {lower : AtomSet} {w : WellFounded}
    (h : alternate base defined rules (n + 1) lower = .ok w) :
    ∃ upper next, leastModel base defined rules lower = .ok upper ∧
      leastModel base defined rules upper = .ok next ∧
      (next = lower ∧ w = ⟨lower, upper⟩ ∨ alternate base defined rules n next = .ok w) := by
  rw [alternate, Except.bind_eq_ok] at h
  obtain ⟨upper, hupper, h⟩ := h
  rw [Except.bind_eq_ok] at h
  obtain ⟨next, hnext, h⟩ := h
  refine ⟨upper, next, hupper, hnext, ?_⟩
  split at h
  · next hsettled => exact .inl ⟨hsettled, (Except.ok.inj h).symm⟩
  · exact .inr h

/-- Whatever the bodies of the rules are, the two bounds are derived from each other. -/
theorem leastModel_of_alternate {n : Nat} {lower : AtomSet} {w : WellFounded}
    (h : alternate base defined rules n lower = .ok w) :
    leastModel base defined rules w.certain = .ok w.possible ∧
      leastModel base defined rules w.possible = .ok w.certain := by
  induction n generalizing lower with
  | zero => cases h
  | succ n ih =>
      obtain ⟨upper, next, hupper, hnext, ⟨rfl, rfl⟩ | h⟩ := alternate_succ_eq_ok h
      · exact ⟨hupper, hnext⟩
      · exact ih h

/-! ## Rules that count nothing defined -/

section Predicates

variable (hpredicate : ∀ p ∈ defined, base.isFunction p = false)
  (haggregate : ∀ r ∈ rules, ∀ p ∈ r.body.aggregateSymbols, p ∉ defined)

include hpredicate haggregate

/-- What a rule gives is in every exhausted set that reads more at positive occurrences and less at
negative ones. -/
theorem Exhausted.mem_of_gives {X X' Y Z : AtomSet} (h : Exhausted base defined rules Y Z)
    (hX : X ≤ Z) (hY : Y ≤ X')
    {r : Rule} (hr : r ∈ rules) {a : Atom}
    (hgives : r.Gives (stage base defined X X') a) : a ∈ Z := by
  obtain ⟨b, hb, hmem | ⟨x, hx, hno⟩⟩ := h r hr
  · cases hb.symm.trans hgives.1
    exact hmem
  · have hgrows :=
      evalFormula_grows (stage_below hpredicate hX hY) r.body (haggregate r hr) hgives.2 hx
    exact absurd (Truth.eq_yes_of_yes_le hgrows) hno

theorem leastModel_antitone {X X' Z Z' : AtomSet} (hX : X ≤ X')
    (hZ : leastModel base defined rules X = .ok Z)
    (hZ' : leastModel base defined rules X' = .ok Z') : Z' ≤ Z := by
  have hexhausted : Exhausted base defined rules X Z :=
    (leastModel_eq_ok (P := fun _ => True) (fun _ _ _ _ => trivial) trivial hZ).1
  refine (leastModel_eq_ok (P := (· ≤ Z)) (fun W new hW hnew a ha => ?_) (AtomSet.empty_le Z) hZ').2
  rcases AtomSet.mem_insertMany.mp ha with ha | ha
  · exact hW a ha
  · obtain ⟨r, hr, hgives⟩ := hnew a ha
    exact hexhausted.mem_of_gives hpredicate haggregate hW hX hr hgives

/-- A lower bound that is below its upper one is followed by another such lower bound. -/
theorem alternate_le {n : Nat} {lower : AtomSet} {w : WellFounded}
    (hlower : ∀ upper, leastModel base defined rules lower = .ok upper → lower ≤ upper)
    (h : alternate base defined rules n lower = .ok w) : w.certain ≤ w.possible := by
  induction n generalizing lower with
  | zero => cases h
  | succ n ih =>
      obtain ⟨upper, next, hupper, hnext, ⟨rfl, rfl⟩ | h⟩ := alternate_succ_eq_ok h
      · exact hlower upper hupper
      · have hbelow := leastModel_antitone hpredicate haggregate (hlower upper hupper) hupper hnext
        exact ih (fun upper' hupper' =>
          leastModel_antitone hpredicate haggregate hbelow hupper' hnext) h

theorem certain_le_possible {w : WellFounded} (h : wellFoundedModel base defined rules = .ok w) :
    w.certain ≤ w.possible :=
  alternate_le hpredicate haggregate (fun _ _ => AtomSet.empty_le _) h

/-- A well-founded model is total if nothing is undefined in it, that is, if what is possible is
certain. -/
theorem isTotal_iff_of_wellFoundedModel {w : WellFounded}
    (h : wellFoundedModel base defined rules = .ok w) :
    (w.isTotal = true ↔ w.undefined = []) ∧ (w.undefined = [] ↔ w.certain = w.possible) := by
  have hle := certain_le_possible hpredicate haggregate h
  have htotal := WellFounded.isTotal_iff_undefined_eq_nil hle
  exact ⟨htotal, htotal.symm.trans (WellFounded.isTotal_iff hle)⟩

end Predicates

/-! ## Aggregates over defined atoms -/

/-- The left lamp comes on if the count of the right one is not zero, and the right one if it is
off. -/
def crossing : List Rule :=
  [⟨[], 0, [],
    (Formula.compare (.aggregate .card (.enumerated [(.pred 1 [], .element (.int 1))])) .eq
      (.element (.int 0))).negate⟩,
    ⟨[], 1, [], .atom false 1 []⟩]

/-- A negated count of defined atoms grows with the set that is fixed. The two bounds then may have
as many atoms as each other and none in common: the model passes for total, and one of its possible
atoms is not certain. -/
theorem total_with_undefined :
    ∃ w, wellFoundedModel lamps [0, 1] crossing = .ok w ∧ w.isTotal = true ∧
    w.certain.toList = [⟨0, []⟩] ∧ w.possible.toList = [⟨1, []⟩] ∧ w.undefined = [⟨1, []⟩] := by
  let left : AtomSet := .ofList ([⟨0, []⟩] : List Atom)
  let right : AtomSet := .ofList ([⟨1, []⟩] : List Atom)
  refine ⟨⟨left, right⟩, ?_, rfl, ?_, ?_, ?_⟩
  all_goals decide +kernel

end ModelExpansion
