import ModelExpansion.Proofs.Writing

/-! # Fixing a value of a function
The candidates of the result table are written one after the other. A success decides the whole
graph at the arguments and nothing else, but it leaves the function with the given value only if
that is in the result table. A failure keeps what was written before it. -/

namespace ModelExpansion

namespace Structure

variable {S S' : Structure} {f : SymbolId} {args : Tuple} {v : Element} {values : List Element}

/-! ## Writing the candidates -/

/-- The given candidates are recorded, one of them as true and the others as false, and nothing else
is. -/
structure Fixes (S : Structure) (f : SymbolId) (args : Tuple) (v : Element) (values : List Element)
    (S' : Structure) :
    Prop where
  vocabulary : S'.vocabulary = S.vocabulary
  tables : S'.tables = S.tables
  stored : ∀ d ∈ values, S'.stored f (args ++ [d]) = .ofBool (d == v)
  others : ∀ a : Atom, (∀ d ∈ values, a ≠ ⟨f, args ++ [d]⟩) → S'.facts[a]? = S.facts[a]?

namespace Fixes

theorem nil (S : Structure) (f : SymbolId) (args : Tuple) (v : Element) :
    S.Fixes f args v [] S where
  vocabulary := rfl
  tables := rfl
  stored _ hd := absurd hd List.not_mem_nil
  others _ _ := rfl

theorem cons {S₁ : Structure} {d : Element} {c : Bool}
    (hset : S.setValue f (args ++ [d]) (d == v) = .ok (S₁, c))
    (hrest : S₁.Fixes f args v values S') : S.Fixes f args v (d :: values) S' where
  vocabulary := hrest.vocabulary.trans (refines_setValue hset).1.vocabulary
  tables := hrest.tables.trans (refines_setValue hset).1.tables
  stored e he := by
    by_cases hmem : e ∈ values
    · exact hrest.stored e hmem
    · obtain rfl : e = d := (List.mem_cons.mp he).resolve_right hmem
      have hkept : S'.facts[(⟨f, args ++ [e]⟩ : Atom)]? = S₁.facts[(⟨f, args ++ [e]⟩ : Atom)]? :=
        hrest.others _ fun e' he' heq => by
          obtain rfl : e = e' := by simpa using heq
          exact hmem he'
      rw [stored_eq_ofBool_iff, hkept]
      exact (refines_setValue hset).2
  others a ha := by
    obtain ⟨hd, hvalues⟩ := List.forall_mem_cons.mp ha
    rw [hrest.others a hvalues, facts_setValue hset, if_neg hd]

end Fixes

theorem fixes_setGraph (h : S.setGraph f args v values = (S', .ok ())) :
    S.Fixes f args v values S' := by
  induction values generalizing S with
  | nil =>
      cases h
      exact .nil _ f args v
  | cons d values ih =>
      rw [setGraph] at h
      split at h
      · next hset => exact .cons hset (ih h)
      · cases h

theorem setGraph_error {failure : Failure} (h : S.setGraph f args v values = (S', .error failure)) :
    ∃ done d rest, values = done ++ d :: rest ∧ S.Fixes f args v done S' ∧
      S'.setValue f (args ++ [d]) (d == v) = .error failure := by
  induction values generalizing S with
  | nil => cases h
  | cons d values ih =>
      rw [setGraph] at h
      split at h
      · next hset =>
        obtain ⟨done, e, rest, rfl, hdone, hfailed⟩ := ih h
        exact ⟨d :: done, e, rest, rfl, .cons hset hdone, hfailed⟩
      · next hset =>
        cases h
        exact ⟨[], d, values, rfl, .nil _ f args v, hset⟩

/-- A write succeeds exactly if the tuple fits the tables and is not recorded the other way. -/
theorem exists_setValue_iff {p : SymbolId} {t : Tuple} {b : Bool} :
    (∃ S' c, S.setValue p t b = .ok (S', c)) ↔ S.InTables ⟨p, t⟩ ∧ S.stored p t ≠ .ofBool !b := by
  constructor
  · rintro ⟨S', c, hset⟩
    obtain ⟨hrefines, hwritten⟩ := refines_setValue hset
    refine ⟨(Except.bind_eq_ok.mp hset).choose_spec.1, fun hopposite => ?_⟩
    have hkept := hrefines.keeps (stored_eq_ofBool_iff.mp hopposite)
    exact (Bool.eq_not_self _).mp (Option.some.inj (hwritten.symm.trans hkept))
  · rintro ⟨ht, hopposite⟩
    refine exists_setValue ht fun w hw => ?_
    exact Bool.not_eq_not.mp fun heq => hopposite (stored_eq_ofBool_iff.mpr (heq ▸ hw))

/-- Recording the candidates succeeds exactly if each of them fits the tables and none is recorded
the other way. -/
theorem exists_setGraph_iff : (∃ S', S.setGraph f args v values = (S', .ok ())) ↔
    ∀ d ∈ values, S.InTables ⟨f, args ++ [d]⟩ ∧ S.stored f (args ++ [d]) ≠ .ofBool !(d == v) := by
  induction values generalizing S with
  | nil => exact iff_of_true ⟨S, rfl⟩ fun d hd => absurd hd List.not_mem_nil
  | cons d values ih =>
      rw [List.forall_mem_cons, setGraph, ← exists_setValue_iff]
      cases hset : S.setValue f (args ++ [d]) (d == v) with
      | error failure =>
          constructor
          · rintro ⟨S', h⟩
            cases h
          · rintro ⟨⟨S', c, h⟩, -⟩
            cases h
      | ok result =>
          obtain ⟨S₁, c⟩ := result
          refine ih.trans ((and_iff_right ⟨S₁, c, rfl⟩).symm.trans (and_congr_right fun _ => ?_))
          refine forall₂_congr fun e _ => and_congr ?_ ?_
          · exact inTables_congr (refines_setValue hset).1.vocabulary
              (refines_setValue hset).1.tables
          · rw [stored_setValue hset]
            split
            · next heq =>
              obtain rfl : e = d := by simpa using heq.2
              refine iff_of_true (fun hsame => ?_) (exists_setValue_iff.mp ⟨S₁, c, hset⟩).2
              exact (Bool.eq_not_self _).mp (Truth.ofBool_injective hsame)
            · exact Iff.rfl

/-! ## Success -/

/-- With the whole result table written, the function has the given value if it is in the table, and
no value otherwise. -/
theorem Fixes.functionValue (h : S.Fixes f args v values S')
    (hvalues : S.resultDomain f = .ok values) :
    S'.functionValue f args = .ok (if v ∈ values then some v else none) := by
  have hdomain : S'.resultDomain f = .ok values := by
    rw [← hvalues, resultDomain, resultDomain, h.vocabulary, domain_congr h.vocabulary h.tables]
  have hnodup : values.Nodup := by
    obtain ⟨_, result, -, -, rfl⟩ := exists_result_of_resultDomain hvalues
    exact S.nodup_elements result
  rw [Structure.functionValue, hdomain, Except.ok_bind, Except.pure_eq_ok]
  split
  · next hv =>
    refine determined?_of_excluded hnodup hv ?_ fun d hd hdv => ?_
    · rw [h.stored v hv, beq_self_eq_true]
      exact Truth.noConfusion
    · rw [h.stored d hd, beq_eq_false_iff_ne.mpr hdv]
      rfl
  · next hv =>
    have hno : ∀ d ∈ values, S'.stored f (args ++ [d]) = .no := fun d hd => by
      have hdv : d ≠ v := fun heq => hv (heq ▸ hd)
      rw [h.stored d hd, beq_eq_false_iff_ne.mpr hdv]
      rfl
    refine Option.eq_none_iff_forall_ne_some.mpr fun k hk => ?_
    rcases determined?_cases hk with hyes | ⟨hunknown, -⟩
    · cases hyes.symm.trans (hno k (determined?_mem hk))
    · cases hunknown.symm.trans (hno k (determined?_mem hk))

/-- Fixing a value that succeeds decides the graph at the arguments and nothing else. The function
has the value afterwards exactly if it is in the result table. -/
theorem setFunction_fixes (h : S.setFunction f args v = (S', .ok ())) :
    S.Fixes f args v (S.results f) S' ∧
    (S'.functionValue f args = .ok (some v) ↔ v ∈ S.results f) := by
  rw [setFunction] at h
  split at h
  · next values hvalues =>
    have hfixes := fixes_setGraph h
    have hresults : S.results f = values := by
      rw [results, hvalues]
      rfl
    rw [hresults, hfixes.functionValue hvalues]
    refine ⟨hfixes, ?_⟩
    split
    · next hv => exact iff_of_true rfl hv
    · next hv => exact iff_of_false (fun heq => by cases heq) hv
  · cases h

/-- Fixing a value succeeds exactly if the result table can be enumerated and no candidate is
refused. -/
theorem exists_setFunction_iff : (∃ S', S.setFunction f args v = (S', .ok ())) ↔ ∃ values,
    S.resultDomain f = .ok values ∧
      ∀ d ∈ values, S.InTables ⟨f, args ++ [d]⟩ ∧ S.stored f (args ++ [d]) ≠ .ofBool !(d == v) := by
  rw [setFunction]
  cases S.resultDomain f with
  | error failure =>
      constructor
      · rintro ⟨S', h⟩
        cases h
      · rintro ⟨values, h, -⟩
        cases h
  | ok values =>
      refine exists_setGraph_iff.trans ⟨fun h => ⟨values, rfl, h⟩, ?_⟩
      rintro ⟨_, heq, h⟩
      cases heq
      exact h

/-! ## Failure -/

/-- Fixing a value that fails has written the candidates up to the one that was refused, and nothing
else. -/
theorem setFunction_error {failure : Failure} (h : S.setFunction f args v = (S', .error failure)) :
    (S.resultDomain f = .error failure ∧ S' = S) ∨ ∃ done d rest,
      S.resultDomain f = .ok (done ++ d :: rest) ∧
      S.Fixes f args v done S' ∧ S'.setValue f (args ++ [d]) (d == v) = .error failure := by
  rw [setFunction] at h
  split at h
  · next values hvalues =>
    obtain ⟨done, d, rest, rfl, hdone, hfailed⟩ := setGraph_error h
    exact .inr ⟨done, d, rest, hvalues, hdone, hfailed⟩
  · next hfailed =>
    cases h
    exact .inl ⟨hfailed, rfl⟩

/-! ## A value outside the result table, and a write that fails half-way -/

/-- A coin of which only is known that it does not show tails. -/
def notTails : Structure where
  vocabulary := coin.vocabulary
  tables := coin.tables
  facts := .ofList [((⟨0, [.name "tails"]⟩ : Atom), false)]

/-- Fixing a value that is not in the result table succeeds and excludes every value. -/
theorem setFunction_outside : (notTails.setFunction 0 [] (.name "edge")).2 = .ok () ∧
    notTails.functionValue 0 [] = .ok (some (.name "heads")) ∧
    (notTails.setFunction 0 [] (.name "edge")).1.functionValue 0 [] = .ok none := by
  decide +kernel

/-- Fixing a value that is excluded fails, but only after the other value was excluded too: the
function has a value before the call and none afterwards. -/
theorem setFunction_partial :
    (notTails.setFunction 0 [] (.name "tails")).2 = .error (.inconsistent "shows" "(tails)") ∧
    notTails.stored 0 [.name "heads"] = .unknown ∧
    (notTails.setFunction 0 [] (.name "tails")).1.stored 0 [.name "heads"] = .no ∧
    (notTails.setFunction 0 [] (.name "tails")).1.functionValue 0 [] = .ok none := by
  decide +kernel

end Structure

end ModelExpansion
