import ModelExpansion.Proofs.Calculation.Runs
import ModelExpansion.Proofs.Interchange.TotalStructures

/-! # What a calculation leaves
Each tuple of a calculated symbol is recorded as the solution of its definition has it. So
predicates are two-valued afterwards. Recording looks at one tuple after the other and never at an
application as a whole: where the solution gives an application no value, the function is not
two-valued, and several values of one application stay. -/

namespace ModelExpansion

/-! ## Symbols of which everything is recorded -/

theorem allM_eq_ok {ε α : Type} {test : α → Except ε Bool} {holds : α → Bool} {xs : List α}
    (h : ∀ x ∈ xs, test x = .ok (holds x)) : xs.allM test = .ok (xs.all holds) := by
  induction xs with
  | nil => rfl
  | cons x xs ih =>
      obtain ⟨hx, hxs⟩ := List.forall_mem_cons.mp h
      rw [List.allM_cons, hx, Except.ok_bind, List.all_cons]
      cases holds x with
      | true => exact ih hxs
      | false => rfl

/-- Among values that are all decided, one is determined exactly if one is true. -/
theorem isSome_determined?_iff {values : List Element} {truth : Element → Truth}
    (h : ∀ v ∈ values, truth v ≠ .unknown) :
    (determined? values truth).isSome = true ↔ ∃ v ∈ values, truth v = .yes := by
  rw [Option.isSome_iff_exists]
  constructor
  · rintro ⟨k, hk⟩
    have hmem := determined?_mem hk
    exact ⟨k, hmem, (determined?_cases hk).resolve_right fun hopen => h k hmem hopen.1⟩
  · rintro ⟨v, hv, hyes⟩
    rw [determined?]
    cases hfind : values.find? fun v => truth v == .yes with
    | some k => exact ⟨k, rfl⟩
    | none => exact absurd (beq_iff_eq.mpr hyes) (List.find?_eq_none.mp hfind v hv)

namespace Structure

variable {S : Structure} {p f : SymbolId} {s : Symbol}

/-- The tuples of a symbol can be enumerated, and each of them is recorded. -/
structure Decided (S : Structure) (p : SymbolId) : Prop where
  enumerable : ∃ domains, S.graphDomains p = .ok domains
  recorded : ∀ t, S.InTables ⟨p, t⟩ → ∃ b, S.facts[(⟨p, t⟩ : Atom)]? = some b

theorem Decided.isTwoValued_of_predicate (h : S.Decided p) (hpredicate : S.isFunction p = false) :
    S.isTwoValued p = .ok true :=
  (isTwoValued_eq_ok_true_iff hpredicate).mpr ⟨h.enumerable, h.recorded⟩

/-- The tables of a function's graph are those of the arguments and that of the results. -/
theorem exists_of_graphDomains {result : SortId} (hs : S.vocabulary.symbols[f]? = some s)
    (hresult : s.result = some result) {domains : List (List Element)}
    (h : S.graphDomains f = .ok domains) :
    ∃ ds values, S.domains s.args = .ok ds ∧ S.domain result = .ok values ∧
      domains = ds ++ [values] := by
  rw [graphDomains, Vocabulary.symbol_eq_ok_iff.mpr hs, Except.ok_bind, Structure.domains,
    Symbol.graphSorts, hresult]
    at h
  simp only [Option.toList_some, List.mapM_append, List.mapM_cons, List.mapM_nil, Except.bind_eq_ok,
    Except.pure_eq_ok] at h
  obtain ⟨ds, hds, _, ⟨values, hvalues, _, rfl, rfl⟩, rfl⟩ := h
  exact ⟨ds, values, hds, hvalues, rfl⟩

/-- A function of which everything is recorded is two-valued exactly if each application has some
true value. -/
theorem Decided.isTwoValued_of_function (h : S.Decided f) (hs : S.vocabulary.symbols[f]? = some s)
    (hfunction : s.isFunction = true) : ∃ b, S.isTwoValued f = .ok b ∧ (b = true ↔
      ∀ args, List.Forall₂ S.Has s.args args → ∃ v, S.InTables ⟨f, args ++ [v]⟩ ∧
      S.stored f (args ++ [v]) = .yes) := by
  obtain ⟨result, hresult⟩ := Option.isSome_iff_exists.mp hfunction
  obtain ⟨domains, hdomains⟩ := h.enumerable
  obtain ⟨ds, values, hds, hvalues, rfl⟩ := exists_of_graphDomains hs hresult hdomains
  have hin : ∀ {args v}, S.InTables ⟨f, args ++ [v]⟩ ↔ args ∈ product ds ∧ v ∈ values :=
    fun {args v} => by
    rw [inTables_iff_mem_product hdomains, mem_product_append_singleton]
  have hargs : ∀ {args}, List.Forall₂ S.Has s.args args ↔ args ∈ product ds := fun {args} => by
    rw [mem_product, ← forall₂_has_iff (forall₂_of_mapM_eq_ok hds)]
  have hvalue : ∀ args ∈ product ds,
      (return (← S.functionValue f args).isSome : Except Failure Bool) =
      .ok (determined? values fun v => S.stored f (args ++ [v])).isSome := fun args _ => by
    rw [functionValue, resultDomain, resultSort_eq_ok_iff.mpr ⟨s, hs, hresult⟩,
      Except.ok_bind, hvalues]
    rfl
  have htwo : S.isTwoValued f =
      .ok ((product ds).all fun args =>
        (determined? values fun v => S.stored f (args ++ [v])).isSome) := by
    rw [isTwoValued, Vocabulary.symbol_eq_ok_iff.mpr hs, Except.ok_bind, if_pos hfunction, hds,
      Except.ok_bind, allTuplesM_eq, allM_eq_ok hvalue]
  refine ⟨_, htwo, ?_⟩
  rw [List.all_eq_true]
  refine forall_congr' fun args => ?_
  rw [hargs]
  refine forall_congr' fun ht => ?_
  rw [isSome_determined?_iff fun v hv => ?_]
  · simp only [hin, ht, true_and]
  · obtain ⟨b, hb⟩ := h.recorded _ (hin.mpr ⟨ht, hv⟩)
    rw [stored_eq_ofBool_iff.mpr hb]
    exact Truth.ofBool_ne_unknown b

end Structure

/-! ## Calculated symbols -/

namespace Task

variable {K : Task} {S S' S₁ : Structure} {atoms : AtomSet} {p : SymbolId}

/-- The task had a solution at some point after the start, and this is what is recorded in the
end. -/
structure Obtained (K : Task) (S S' : Structure) (atoms : AtomSet) : Prop where
  solves : ∃ S₁, S.Refines S₁ ∧ S₁.Refines S' ∧ K.Solves S₁ (.inl atoms)
  reflects : S'.Reflects atoms K.heads

theorem Obtained.mono (h : K.Obtained S S' atoms) (hS : S'.Refines S₁) : K.Obtained S S₁ atoms where
  solves := by
    obtain ⟨S₂, hbefore, hafter, hsolves⟩ := h.solves
    exact ⟨S₂, hbefore, hafter.trans hS, hsolves⟩
  reflects := h.reflects.mono hS

theorem Obtained.decided (h : K.Obtained S S' atoms) (hp : p ∈ K.heads) : S'.Decided p where
  enumerable := by
    obtain ⟨S₁, -, hafter, hsolves⟩ := h.solves
    obtain ⟨domains, hdomains⟩ := (isCalculable_eq_ok_true_iff.mp hsolves.calculable).2 p hp
    exact ⟨domains, by rwa [Structure.graphDomains_congr hafter.vocabulary
      (Structure.domain_congr hafter.vocabulary hafter.tables)]⟩
  recorded t ht := ⟨_, h.reflects p hp t ht⟩

theorem obtained_of_calculated (hS : S.Refines S₁) (h : K.calculate S₁ = (S', .ok .calculated)) :
    ∃ atoms, K.Obtained S S' atoms := by
  have hS' := refines_calculate h
  cases calculate_outcome h with
  | calculated hsolves hrecord =>
    exact ⟨_, ⟨S₁, hS, hS', hsolves⟩, (recorded_recordAtoms hrecord).1⟩

end Task

namespace Theory

variable {T : Theory} {S S' : Structure} {c : Calculated} {i : Nat ⊕ Nat} {K : Task}

theorem Calculates.obtained (h : T.Calculates (S, .none) (S', c)) :
    S.Refines S' ∧ ∀ i K, T.task? i = some K → c.Has i → ∃ atoms, K.Obtained S S' atoms := by
  refine h.invariant (I := fun S' c => S.Refines S' ∧ ∀ i K, T.task? i = some K → c.Has i →
    ∃ atoms, K.Obtained S S' atoms) ⟨.refl S, fun i _ _ hi =>
      absurd hi (Calculated.not_has_none i)⟩ ?_
  rintro S₁ c i K S₂ ⟨hS₁, hobtained⟩ hK - hcalculate
  have hS₂ := Task.refines_calculate hcalculate
  refine ⟨hS₁.trans hS₂, fun j L hL hj => ?_⟩
  rcases Calculated.has_add.mp hj with hj | rfl
  · obtain ⟨atoms, hatoms⟩ := hobtained j L hL hj
    exact ⟨atoms, hatoms.mono hS₂⟩
  · cases hK.symm.trans hL
    exact Task.obtained_of_calculated hS₁ hcalculate

/-- After a calculation each tuple of a calculated symbol is recorded as some solution of its
definition has it. So the predicates are two-valued, and a function is exactly if the solution gives
each application at least one value. -/
theorem obtained_of_calculate (h : calculate T S = (S', .ok (.consistent c)))
    (hK : T.task? i = some K) (hi : c.Has i) : ∃ atoms, K.Obtained S S' atoms ∧ ∀ p ∈ K.heads,
      (S'.isFunction p = false → S'.isTwoValued p = .ok true) ∧
      ∀ s, S'.vocabulary.symbols[p]? = some s → s.isFunction = true →
      ∃ b, S'.isTwoValued p = .ok b ∧ (b = true ↔
        ∀ args, List.Forall₂ S'.Has s.args args → ∃ v, S'.InTables ⟨p, args ++ [v]⟩ ∧
          atoms.contains ⟨p, args ++ [v]⟩ = true) := by
  cases calculate_ends h with
  | idle run _ =>
      obtain ⟨atoms, hobtained⟩ := run.obtained.2 i K hK hi
      refine ⟨atoms, hobtained, fun p hp => ?_⟩
      have hdecided := hobtained.decided hp
      refine ⟨hdecided.isTwoValued_of_predicate, fun s hs hfunction => ?_⟩
      obtain ⟨b, htwo, hb⟩ := hdecided.isTwoValued_of_function hs hfunction
      refine ⟨b, htwo,
        hb.trans (forall₂_congr fun args _ => exists_congr fun v => and_congr_right fun hin => ?_)⟩
      rw [show Truth.yes = .ofBool true from rfl, Structure.stored_eq_ofBool_iff,
        hobtained.reflects p hp _ hin, Option.some_inj]

end Theory

/-- Two sides, of which a choice is one. -/
def fork : Structure :=
  ⟨⟨[⟨"side", []⟩], [⟨"choice", [], some 0⟩]⟩, [.ofList [.name "left", .name "right"]], ∅⟩

/-- A choice that no rule makes. -/
def unmade : Definition := ⟨[⟨[], 0, [.element (.name "left")], .disj []⟩]⟩

/-- A choice of both sides. -/
def torn : Definition :=
  ⟨[⟨[], 0, [.element (.name "left")], .conj []⟩, ⟨[], 0, [.element (.name "right")], .conj []⟩]⟩

/-- A definition that leaves a function without a value, or with two of them, is calculated all the
same. -/
theorem calculate_fork : ∃ none both : Structure,
    calculate ⟨[unmade], [], []⟩ fork = (none, .ok (.consistent ⟨[0], []⟩)) ∧
    none.isTwoValued 0 = .ok false ∧
    calculate ⟨[torn], [], []⟩ fork = (both, .ok (.consistent ⟨[0], []⟩)) ∧
    both.isTwoValued 0 = .ok true ∧
    both.stored 0 [.name "left"] = .yes ∧ both.stored 0 [.name "right"] = .yes := by
  let record (b : Bool) : Structure :=
    { fork with
      facts :=
      .ofList ([(⟨0, [.name "left"]⟩, b), (⟨0, [.name "right"]⟩, b)] : List (Atom × Bool)) }
  exact ⟨record false, record true,
    by decide +kernel, by decide +kernel, by decide +kernel, by decide +kernel,
    by decide +kernel, by decide +kernel⟩

end ModelExpansion
