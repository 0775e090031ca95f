import ModelExpansion.Evaluation

/-! # Evaluation does not enumerate
Evaluation looks at the elements of a sort only for the value of a function. Where that does not
fail on an infinite domain, no formula and no term does. -/

namespace ModelExpansion

/-- A computation that does not fail on an infinite domain; it may fail for other reasons. -/
def Finitary {α : Type} (x : Except Failure α) : Prop := ∀ sort, x ≠ .error (.infiniteDomain sort)

namespace Finitary

variable {α β : Type} {x : Except Failure α} {f : α → Except Failure β}

theorem ok (a : α) : Finitary (.ok a) := fun _ h => by cases h

theorem pure (a : α) : Finitary (Pure.pure a) := .ok a

theorem throw {failure : Failure} (h : ∀ sort, failure ≠ .infiniteDomain sort) :
    Finitary (MonadExcept.throw failure : Except Failure α) :=
  fun sort hsort => h sort (Except.error.inj hsort)

/-- A failure stays what it is whatever the computation was to give. -/
theorem error {failure : Failure} (h : Finitary (.error failure : Except Failure α)) :
    Finitary (.error failure : Except Failure β) :=
  fun sort hsort => h sort (congrArg Except.error (Except.error.inj hsort))

theorem bind (hx : Finitary x) (hf : ∀ a, x = .ok a → Finitary (f a)) : Finitary (x >>= f) := by
  cases x with
  | error failure => exact hx.error
  | ok a => exact hf a rfl

theorem map (hx : Finitary x) (g : α → β) : Finitary (do return g (← x)) :=
  hx.bind fun a _ => .pure (g a)

theorem mapM {xs : List α} (hf : ∀ a ∈ xs, Finitary (f a)) : Finitary (xs.mapM f) := by
  induction xs with
  | nil => exact .pure []
  | cons a xs ih =>
      obtain ⟨ha, hxs⟩ := List.forall_mem_cons.mp hf
      rw [List.mapM_cons]
      exact ha.bind fun b _ => (ih hxs).map (b :: ·)

theorem allM {test : α → Except Failure Bool} {xs : List α} (htest : ∀ a ∈ xs, Finitary (test a)) :
    Finitary (xs.allM test) := by
  induction xs with
  | nil => exact .pure true
  | cons a xs ih =>
      obtain ⟨ha, hxs⟩ := List.forall_mem_cons.mp htest
      rw [List.allM_cons]
      refine ha.bind fun b _ => ?_
      cases b with
      | false => exact .pure false
      | true => exact ih hxs

end Finitary

theorem finitary_checkChain (terms : List Term) (comparators : List Comparator) :
    Finitary (checkChain terms comparators) := by
  rw [checkChain]
  split
  · exact .ok ()
  · exact .throw (by simp)

/-- A source that does not fail on an infinite domain when it is asked for the value of a
function. -/
def Valuation.Finitary (v : Valuation) : Prop := ∀ f t, ModelExpansion.Finitary (v.function f t)

variable {v : Valuation}

mutual

theorem finitary_evalFormula (hv : v.Finitary) :
    ∀ (f : Formula) (positive : Bool), Finitary (evalFormula v positive f)
  | .atom sign p args, positive => by
      rw [evalFormula]
      refine (finitary_evalArgs hv args _).bind fun values _ => ?_
      cases values with
      | known t => exact .pure _
      | undefined => exact .pure _
      | unknown => exact .pure _
  | .junction sign conjunctive children, positive => by
      rw [evalFormula]
      exact (finitary_evalChildren hv children _ conjunctive _).map _
  | .quantified _ _ _ _, positive => by
      rw [evalFormula]
      exact .throw (by simp)
  | .equivalence sign left right, positive => by
      rw [evalFormula]
      exact (finitary_evalFormula hv left _).bind fun _ _ =>
        (finitary_evalFormula hv right _).bind fun _ _ =>
        (finitary_evalFormula hv left _).bind fun _ _ => (finitary_evalFormula hv right _).map _
  | .comparison sign terms comparators, positive => by
      rw [evalFormula]
      exact (finitary_checkChain terms comparators).bind fun _ _ =>
        (finitary_evalTerms hv terms _).map _

theorem finitary_evalChildren (hv : v.Finitary) :
    ∀ (fs : List Formula) (positive conjunctive : Bool)
    (acc : Truth), Finitary (evalChildren v positive conjunctive acc fs)
  | [], positive, conjunctive, acc => by
      rw [evalChildren]
      exact .pure acc
  | f :: fs, positive, conjunctive, acc => by
      rw [evalChildren]
      refine (finitary_evalFormula hv f positive).bind fun x _ => ?_
      generalize (if conjunctive then acc.and x else acc.or x) = next
      by_cases hnext : next = .ofBool !conjunctive
      · rw [if_pos hnext]
        exact .pure next
      · rw [if_neg hnext]
        exact finitary_evalChildren hv fs positive conjunctive next

theorem finitary_evalTerm (hv : v.Finitary) :
    ∀ (t : Term) (positive : Bool), Finitary (evalTerm v positive t)
  | .var x, positive => by
      rw [evalTerm]
      exact .throw (by simp)
  | .element e, positive => by
      rw [evalTerm]
      exact .pure _
  | .apply f args, positive => by
      rw [evalTerm]
      refine (finitary_evalArgs hv args positive).bind fun values _ => ?_
      cases values with
      | undefined => exact .pure _
      | unknown => exact .pure _
      | known t =>
          refine (hv f t).bind fun value _ => ?_
          cases value with
          | none => exact .pure _
          | some e => exact .pure _
  | .aggregate kind set, positive => by
      rw [evalTerm]
      exact finitary_evalSet hv set positive kind

theorem finitary_evalTerms (hv : v.Finitary) :
    ∀ (ts : List Term) (positive : Bool), Finitary (evalTerms v positive ts)
  | [], positive => by
      rw [evalTerms]
      exact .pure []
  | t :: ts, positive => by
      rw [evalTerms]
      exact (finitary_evalTerm hv t positive).bind fun value _ =>
        (finitary_evalTerms hv ts positive).map _

theorem finitary_evalArgs (hv : v.Finitary) :
    ∀ (ts : List Term) (positive : Bool), Finitary (evalArgs v positive ts)
  | [], positive => by
      rw [evalArgs]
      exact .pure _
  | t :: ts, positive => by
      rw [evalArgs]
      refine (finitary_evalTerm hv t positive).bind fun value _ => ?_
      cases value with
      | undefined => exact .pure _
      | known e =>
          refine (finitary_evalArgs hv ts positive).bind fun rest _ => ?_
          cases rest with
          | known es => exact .pure _
          | undefined => exact .pure _
          | unknown => exact .pure _
      | unknown =>
          refine (finitary_evalArgs hv ts positive).bind fun rest _ => ?_
          cases rest with
          | known es => exact .pure _
          | undefined => exact .pure _
          | unknown => exact .pure _

theorem finitary_evalSet (hv : v.Finitary) : ∀ (set : SetExpr) (positive : Bool) (kind : Aggregate),
    Finitary (evalSet v positive kind set)
  | .enumerated members, positive, kind => by
      rw [evalSet]
      exact finitary_evalMembers hv members positive kind _ _
  | .comprehension _ _ _, positive, kind => by
      rw [evalSet]
      exact .throw (by simp)

theorem finitary_evalMembers (hv : v.Finitary) :
    ∀ (ms : List Member) (positive : Bool) (kind : Aggregate)
    (acc : Option Int) (unknown : Bool), Finitary (evalMembers v positive kind acc unknown ms)
  | [], positive, kind, acc, unknown => by
      rw [evalMembers]
      exact .pure _
  | (condition, weight) :: ms, positive, kind, acc, unknown => by
      have hrest : ∀ acc unknown, Finitary (evalMembers v positive kind acc unknown ms) :=
        finitary_evalMembers hv ms positive kind
      rw [evalMembers]
      refine (finitary_evalFormula hv condition positive).bind fun truth _ => ?_
      cases truth with
      | no => exact hrest _ _
      | unknown => exact hrest _ _
      | yes =>
          dsimp only
          split
          · refine (finitary_evalTerm hv weight positive).bind fun value _ => ?_
            cases value with
            | undefined => exact .pure _
            | unknown => exact hrest _ _
            | known e =>
                cases e with
                | int w => exact hrest _ _
                | name s => exact .throw (by simp [Aggregate.badWeight])
          · exact hrest _ _

end

end ModelExpansion
