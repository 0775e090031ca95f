import ModelExpansion.Proofs.Interchange.Orbits
import ModelExpansion.Proofs.WellFounded.Completion

/-! # Breaking symmetry among total structures
A total structure need not record the whole graph of a function: the value of a function is
recorded, or all other values are excluded. This is invariant under exchanging two elements of the
same tables. In a set of total structures that is closed under swaps, each one is therefore led to
one in which the evaluation of the formulas that break symmetry gives true. -/

namespace ModelExpansion

/-! ## Values of functions -/

/-- A determined value is true, or it alone is not false. -/
theorem determined?_cases {values : List Element} {truth : Element → Truth} {k : Element}
    (h : determined? values truth = some k) :
    truth k = .yes ∨ truth k = .unknown ∧ ∀ v ∈ values, v ≠ k → truth v = .no := by
  rw [determined?] at h
  split at h
  · rename_i v hv
    cases h
    have hyes := List.find?_some hv
    exact .inl (by simpa using hyes)
  · rename_i hnone
    split at h
    · rename_i v hv
      cases h
      have hmem : ∀ w, w ∈ values.filter (fun v => truth v == .unknown) ↔ w = k := by simp [hv]
      simp only [List.mem_filter, beq_iff_eq] at hmem
      refine .inr ⟨((hmem k).mpr rfl).2, fun v hv hne => ?_⟩
      cases htruth : truth v with
      | yes => exact absurd (beq_iff_eq.mpr htruth) (List.find?_eq_none.mp hnone v hv)
      | no => rfl
      | unknown => exact absurd ((hmem v).mp ⟨hv, htruth⟩) hne
    · cases h

namespace Structure

def holds (M : Structure) (a : Atom) : Bool := M.value a.symbol a.tuple == .yes

/-- Whether what is recorded leaves a function no other value. -/
def Forced (M : Structure) (f : SymbolId) (t : Tuple) (v : Element) : Prop :=
  M.stored f (t ++ [v]) = .yes ∨ ∀ w ∈ M.results f, w ≠ v → M.stored f (t ++ [w]) = .no

/-- A total structure over the same vocabulary and tables that keeps every fact and gives every
function application one value. -/
structure TotalExtension (S M : Structure) : Prop where
  vocabulary : M.vocabulary = S.vocabulary
  tables : M.tables = S.tables
  keeps : ∀ {a : Atom} {v}, S.facts[a]? = some v → M.facts[a]? = some v
  total : M.isTotal = .ok true
  functional : ∀ f s result, S.vocabulary.symbols[f]? = some s → s.result = some result →
    ∀ t ∈ product (s.args.map S.elements), ∃! v, v ∈ S.elements result ∧ M.value f (t ++ [v]) = .yes

section Values

variable {S M : Structure} {f : SymbolId} {s : Symbol} {t : Tuple} {k v : Element}

theorem determined?_of_functionValue (h : M.functionValue f t = .ok (some k)) :
    determined? (M.results f) (fun v => M.stored f (t ++ [v])) = some k := by
  rw [functionValue, Except.bind_eq_ok] at h
  obtain ⟨values, hvalues, h⟩ := h
  rw [Except.pure_eq_ok] at h
  rw [results, hvalues]
  exact h

theorem mem_results_of_functionValue (h : M.functionValue f t = .ok (some k)) : k ∈ M.results f :=
  determined?_mem (determined?_of_functionValue h)

theorem graphValue_append (h : M.functionValue f t = .ok (some k)) (v : Element) :
    M.graphValue f (t ++ [v]) = .ofBool (k == v) := by
  have hlast : (t ++ [v]).getLast? = some v := by simp
  rw [graphValue, hlast, List.dropLast_concat]
  dsimp only
  rw [h]

theorem exists_functionValue (h : M.graphValue f (t ++ [v]) ≠ .unknown) :
    ∃ k, M.functionValue f t = .ok (some k) := by
  have hlast : (t ++ [v]).getLast? = some v := by simp
  rw [graphValue, hlast, List.dropLast_concat] at h
  dsimp only at h
  split at h
  · rename_i k hk
    exact ⟨k, hk⟩
  · exact absurd rfl h

theorem stored_eq_ofBool_iff {b : Bool} :
    M.stored f t = .ofBool b ↔ M.facts[(⟨f, t⟩ : Atom)]? = some b := by
  rw [stored]
  cases M.facts[(⟨f, t⟩ : Atom)]? with
  | none => cases b <;> simp [Truth.ofOption, Truth.ofBool]
  | some known => exact Truth.ofBool_injective.eq_iff.trans (by simp)

theorem value_eq_stored (h : M.isFunction f = false) (t : Tuple) : M.value f t = M.stored f t := by
  rw [value, h]
  cases M.stored f t <;> rfl

/-- Of a function, what is not recorded has the truth of the graph. -/
theorem value_eq_graphValue (hfunction : M.isFunction f = true)
    (hstored : M.stored f t = .unknown) :
    M.value f t = M.graphValue f t := by
  rw [value, hstored, hfunction]
  rfl

/-- A known truth that is not recorded follows from the value of a function at the same
arguments. -/
theorem exists_functionValue_of_value (hstored : M.stored f t = .unknown)
    (hknown : M.value f t ≠ .unknown) :
    M.isFunction f = true ∧ ∃ args v k, t = args ++ [v] ∧
    M.functionValue f args = .ok (some k) := by
  cases hfunction : M.isFunction f with
  | false => exact absurd ((value_eq_stored hfunction t).trans hstored) hknown
  | true =>
      rw [value_eq_graphValue hfunction hstored] at hknown
      refine ⟨rfl, ?_⟩
      rcases List.eq_nil_or_concat' t with rfl | ⟨args, v, rfl⟩
      · exact absurd rfl hknown
      · obtain ⟨k, hk⟩ := exists_functionValue hknown
        exact ⟨args, v, k, rfl, hk⟩

theorem forced_of_value (hfunction : M.isFunction f = true)
    (h : M.value f (t ++ [v]) = .yes) : M.Forced f t v := by
  cases hstored : M.stored f (t ++ [v]) with
  | yes => exact .inl hstored
  | no => cases h.symm.trans (value_of_stored (b := false) hstored)
  | unknown =>
      rw [value_eq_graphValue hfunction hstored] at h
      obtain ⟨k, hk⟩ := exists_functionValue (fun hunknown => by rw [hunknown] at h; cases h)
      rw [graphValue_append hk] at h
      obtain rfl : k = v := beq_iff_eq.mp (Truth.ofBool_injective h)
      rcases determined?_cases (determined?_of_functionValue hk) with hyes | ⟨-, hothers⟩
      · exact .inl hyes
      · exact .inr hothers

theorem value_of_functionValue (hfunction : M.isFunction f = true)
    (h : M.functionValue f t = .ok (some k)) :
    M.value f (t ++ [k]) = .yes := by
  rcases determined?_cases (determined?_of_functionValue h) with hyes | ⟨hunknown, -⟩
  · exact value_of_stored (b := true) hyes
  · rw [value_eq_graphValue hfunction hunknown, graphValue_append h, beq_self_eq_true]
    rfl

/-- Where a function has a value, what is forced is the value. -/
theorem value_of_forced (hfunction : M.isFunction f = true) (h : M.functionValue f t = .ok (some k))
    (hv : M.Forced f t v) : M.value f (t ++ [v]) = .yes := by
  rcases hv with hyes | hothers
  · exact value_of_stored (b := true) hyes
  · by_cases hkv : k = v
    · rw [← hkv]
      exact value_of_functionValue hfunction h
    · have hno := hothers k (mem_results_of_functionValue h) hkv
      rcases determined?_cases (determined?_of_functionValue h) with hyes | ⟨hunknown, -⟩
      · cases hno.symm.trans hyes
      · cases hno.symm.trans hunknown

/-- An atom of a function has arguments in the tables and a value among the results. -/
theorem exists_of_isFunction {atoms : List Atom} (hatoms : Encoder.atomsOf S = .ok atoms) {a : Atom}
    (ha : S.InTables a) (hfunction : S.isFunction a.symbol = true) :
    ∃ s result t v, S.vocabulary.symbols[a.symbol]? = some s ∧ s.result = some result ∧
      a = ⟨a.symbol, t ++ [v]⟩ ∧
      t ∈ product (s.args.map S.elements) ∧ v ∈ S.elements result := by
  obtain ⟨s, result, hs, hresult⟩ := exists_symbol_of_isFunction hfunction
  obtain ⟨t, v, htuple⟩ := ha.exists_eq_append (Vocabulary.symbol_eq_ok_iff.mpr hs)
    (by rw [Symbol.isFunction, hresult]; rfl)
  have heq : a = ⟨a.symbol, t ++ [v]⟩ := by rw [← htuple]
  rw [heq, Encoder.inTables_append_iff hatoms hs hresult] at ha
  exact ⟨s, result, t, v, hs, hresult, heq, ha⟩

end Values

/-! ## Total extensions -/

namespace TotalExtension

variable {S M : Structure} {atoms : List Atom} {f : SymbolId} {s : Symbol}
    {result : SortId} {t : Tuple}
  {v : Element} (h : S.TotalExtension M) (hatoms : Encoder.atomsOf S = .ok atoms)
include h

theorem stored {p : SymbolId} {t : Tuple} {b : Bool} (hb : S.stored p t = .ofBool b) :
    M.stored p t = .ofBool b :=
  stored_eq_ofBool_iff.mpr (h.keeps (stored_eq_ofBool_iff.mp hb))

theorem isFunction (p : SymbolId) : M.isFunction p = S.isFunction p := by
  rw [Structure.isFunction, Structure.isFunction, h.vocabulary]

theorem isFunction_of_result (hs : S.vocabulary.symbols[f]? = some s)
    (hresult : s.result = some result) :
    M.isFunction f = true := by
  rw [h.isFunction, isFunction_of_symbol hs, Symbol.isFunction, hresult]
  rfl

theorem results_eq (hs : S.vocabulary.symbols[f]? = some s) (hresult : s.result = some result) :
    M.results f = S.elements result := by
  rw [results_congr h.vocabulary h.tables, results_eq_elements hs hresult]

theorem exists_functionValue (hs : S.vocabulary.symbols[f]? = some s)
    (hresult : s.result = some result)
    (ht : t ∈ product (s.args.map S.elements)) : ∃ k, M.functionValue f t = .ok (some k) := by
  have hs' : M.vocabulary.symbols[f]? = some s := by rwa [h.vocabulary]
  have htwo := allM_eq_ok_true_iff.mp h.total f (Vocabulary.mem_symbolIds hs')
  rw [isTwoValued, Vocabulary.symbol_eq_ok_iff.mpr hs', Except.ok_bind, Symbol.isFunction, hresult,
    Option.isSome_some, if_pos rfl, Except.bind_eq_ok] at htwo
  obtain ⟨domains, hdomains, htwo⟩ := htwo
  rw [allTuplesM_eq, allM_eq_ok_true_iff] at htwo
  rw [domains_eq_map hdomains, elements_congr h.vocabulary h.tables] at htwo
  have hsome := htwo t ht
  rw [Except.bind_eq_ok] at hsome
  obtain ⟨k?, hk, hsome⟩ := hsome
  rw [Except.pure_eq_ok] at hsome
  obtain ⟨k, rfl⟩ := Option.isSome_iff_exists.mp hsome
  exact ⟨k, hk⟩

theorem value_eq_yes_iff (hs : S.vocabulary.symbols[f]? = some s) (hresult : s.result = some result)
    (ht : t ∈ product (s.args.map S.elements)) : M.value f (t ++ [v]) = .yes ↔ M.Forced f t v := by
  obtain ⟨k, hk⟩ := h.exists_functionValue hs hresult ht
  have hfunction := h.isFunction_of_result hs hresult
  exact ⟨forced_of_value hfunction, value_of_forced hfunction hk⟩

theorem value_eq_yes_iff_eq (hs : S.vocabulary.symbols[f]? = some s)
    (hresult : s.result = some result)
    (ht : t ∈ product (s.args.map S.elements)) {k : Element}
    (hk : M.functionValue f t = .ok (some k))
    (hv : v ∈ S.elements result) : M.value f (t ++ [v]) = .yes ↔ k = v := by
  have hyes := value_of_functionValue (h.isFunction_of_result hs hresult) hk
  have hmem := mem_results_of_functionValue hk
  rw [h.results_eq hs hresult] at hmem
  constructor
  · intro hvalue
    exact (h.functional f s result hs hresult t ht).unique ⟨hmem, hyes⟩ ⟨hv, hvalue⟩
  · rintro rfl
    exact hyes

include hatoms

theorem value_eq {a : Atom} (ha : S.InTables a) :
    M.value a.symbol a.tuple = .ofBool (M.holds a) := by
  have hknown : ∃ b, M.value a.symbol a.tuple = .ofBool b := by
    cases hfunction : S.isFunction a.symbol with
    | false =>
        rw [← h.isFunction] at hfunction
        exact (exists_value_of_isTotal h.total hfunction
          ((inTables_congr h.vocabulary h.tables).mpr ha)).2
    | true =>
        obtain ⟨s, result, t, v, hs, hresult, heq, ht, -⟩ :=
          Structure.exists_of_isFunction hatoms ha hfunction
        obtain ⟨k, hk⟩ := h.exists_functionValue hs hresult ht
        cases hstored : M.stored a.symbol a.tuple with
        | yes => exact ⟨true, value_of_stored hstored⟩
        | no => exact ⟨false, value_of_stored hstored⟩
        | unknown =>
            rw [value_eq_graphValue (h.isFunction_of_result hs hresult) hstored]
            refine ⟨k == v, ?_⟩
            rw [congrArg Atom.tuple heq, graphValue_append hk]
  obtain ⟨b, hb⟩ := hknown
  rw [holds, hb]
  cases b <;> rfl

omit hatoms in
/-- What is known to be the value of a function stays so. -/
theorem value_eq_yes (hs : S.vocabulary.symbols[f]? = some s) (hresult : s.result = some result)
    (ht : t ∈ product (s.args.map S.elements)) (hv : S.value f (t ++ [v]) = .yes) :
    M.value f (t ++ [v]) = .yes := by
  have hfunction := h.isFunction_of_result hs hresult
  rw [h.isFunction] at hfunction
  refine (h.value_eq_yes_iff hs hresult ht).mpr ?_
  refine (forced_of_value hfunction hv).imp (h.stored (b := true)) fun hothers u hu hne => ?_
  rw [results_congr h.vocabulary h.tables] at hu
  exact h.stored (b := false) (hothers u hu hne)

/-- What a structure knows of an atom is its truth in every total extension. -/
theorem holds_eq_of_value {a : Atom} (ha : S.InTables a) {b : Bool}
    (hb : S.value a.symbol a.tuple = .ofBool b) :
    M.holds a = b := by
  suffices hvalue : M.value a.symbol a.tuple = .ofBool b by
    rw [holds, hvalue]
    cases b <;> rfl
  cases hfunction : S.isFunction a.symbol with
  | false =>
      rw [value_eq_stored hfunction] at hb
      exact value_of_stored (h.stored hb)
  | true =>
      obtain ⟨s, result, t, v, hs, hresult, heq, ht, hv⟩ :=
        Structure.exists_of_isFunction hatoms ha hfunction
      rw [congrArg Atom.tuple heq] at hb ⊢
      cases b with
      | true => exact h.value_eq_yes hs hresult ht hb
      | false =>
          cases hstored : S.stored a.symbol (t ++ [v]) with
          | yes => cases hb.symm.trans (value_of_stored (b := true) hstored)
          | no => exact value_of_stored (h.stored (b := false) hstored)
          | unknown =>
              rw [value_eq_graphValue hfunction hstored] at hb
              obtain ⟨k, hk⟩ :=
                Structure.exists_functionValue (fun hunknown => by rw [hunknown] at hb; cases hb)
              rw [graphValue_append hk] at hb
              have hne : v ≠ k := fun hvk => by rw [hvk, beq_self_eq_true] at hb; cases hb
              have hkres := mem_results_of_functionValue hk
              rw [results_eq_elements hs hresult] at hkres
              have hunique := h.functional a.symbol s result hs hresult t ht
              have hvalue := h.value_eq hatoms ha
              rw [congrArg Atom.tuple heq] at hvalue
              cases hholds : M.holds a with
              | false => rwa [hholds] at hvalue
              | true =>
                  rw [hholds] at hvalue
                  have hyes := h.value_eq_yes hs hresult ht (value_of_functionValue hfunction hk)
                  exact absurd (hunique.unique ⟨hv, hvalue⟩ ⟨hkres, hyes⟩) hne

end TotalExtension

/-! ## Swaps -/

variable {S M : Structure} {a b : Element}

theorem SameTables.mem_elements (h : S.SameTables a b) {sort : SortId} {e : Element}
    (he : e ∈ S.elements sort) :
    swapElement a b e ∈ S.elements sort := by
  rw [elements] at he ⊢
  cases hdomain : S.domain sort with
  | error failure =>
      rw [hdomain] at he
      cases he
  | ok es =>
      rw [hdomain] at he
      exact (has_iff_mem hdomain).mp (h.has_swapElement ((has_iff_mem hdomain).mpr he))

theorem stored_swap (M : Structure) (a b : Element) (p : SymbolId) (t : Tuple) :
    (M.swap a b).stored p t = M.stored p (swapTuple a b t) := by
  rw [stored, getElem?_facts_swap, swapAtom, stored]

theorem swapTuple_append (a b : Element) (t : Tuple) (v : Element) :
    swapTuple a b (t ++ [v]) = swapTuple a b t ++ [swapElement a b v] := by
  rw [swapTuple, List.map_append, List.map_singleton, swapTuple]

/-- What is forced after a swap is the image of what was forced before. -/
theorem forced_swap_iff {f : SymbolId}
    (hresults : ∀ w ∈ M.results f, swapElement a b w ∈ M.results f) {t : Tuple}
    {v : Element} :
    (M.swap a b).Forced f t v ↔ M.Forced f (swapTuple a b t) (swapElement a b v) := by
  have hsame : (M.swap a b).results f = M.results f := congrFun (results_congr rfl rfl) f
  simp only [Forced, stored_swap, swapTuple_append, hsame]
  refine or_congr Iff.rfl ⟨fun hothers w hw hne => ?_, fun hothers w hw hne => ?_⟩
  · have hno := hothers _ (hresults w hw) fun heq => hne (by rw [← heq, swapElement_swapElement])
    rwa [swapElement_swapElement] at hno
  · exact hothers _ (hresults w hw) fun heq =>
      hne (Function.LeftInverse.injective swapElement_swapElement heq)

/-- Where two elements of the same tables have changed places, each atom has the truth of its
image. -/
theorem TotalExtension.holds_swap {atoms : List Atom} (hatoms : Encoder.atomsOf S = .ok atoms)
    (h : S.TotalExtension M) (hswap : S.TotalExtension (M.swap a b))
    (hab : S.SameTables a b) {x : Atom}
    (hx : S.InTables x) : (M.swap a b).holds x = M.holds (swapAtom a b x) := by
  cases hfunction : S.isFunction x.symbol with
  | false =>
      rw [holds, value_eq_stored ((hswap.isFunction _).trans hfunction), stored_swap,
        holds, swapAtom, value_eq_stored ((h.isFunction _).trans hfunction)]
  | true =>
      obtain ⟨s, result, t, v, hs, hresult, heq, ht, -⟩ := exists_of_isFunction hatoms hx hfunction
      have himage := hab.inTables_swapAtom hx
      rw [heq, swapAtom, swapTuple_append, Encoder.inTables_append_iff hatoms hs hresult] at himage
      have hresults : ∀ w ∈ M.results x.symbol, swapElement a b w ∈ M.results x.symbol := by
        rw [h.results_eq hs hresult]
        exact fun w hw => hab.mem_elements hw
      rw [heq, holds, holds, swapAtom, swapTuple_append, Bool.eq_iff_iff, beq_iff_eq, beq_iff_eq,
        hswap.value_eq_yes_iff hs hresult ht, h.value_eq_yes_iff hs hresult himage.1,
        forced_swap_iff hresults]

end Structure

/-! ## Evaluation -/

section Evaluation

variable {v : Valuation}

/-- The negation of a formula is the opposite of what the formula is at an occurrence of the other
polarity. -/
theorem evalFormula_negate {f : Formula} {positive : Bool} {x : Truth}
    (h : evalFormula v (!positive) f = .ok x) :
    evalFormula v positive f.negate = .ok x.not := by
  have hpolarity : ∀ sign, (positive == !sign) = ((!positive) == sign) := by
    intro sign
    cases positive <;> cases sign <;> rfl
  have hsign : ∀ (x : Truth) sign, x.withSign (!sign) = (x.withSign sign).not := by
    intro x sign
    cases x <;> cases sign <;> rfl
  rw [Formula.negate]
  cases f with
  | atom sign p args =>
      rw [evalFormula, Except.bind_eq_ok] at h
      obtain ⟨a, ha, h⟩ := h
      simp only [Formula.withSign, Formula.sign, evalFormula, hpolarity, ha, Except.ok_bind]
      cases a <;> cases h
      · exact congrArg Except.ok (hsign _ sign)
      · exact congrArg Except.ok (hsign _ sign)
      · rfl
  | junction sign conjunctive children =>
      rw [evalFormula, Except.bind_eq_ok] at h
      obtain ⟨y, hy, h⟩ := h
      cases h
      simp only [Formula.withSign, Formula.sign, evalFormula, hpolarity, hy, Except.ok_bind, hsign]
      rfl
  | quantified sign universal vars body =>
      rw [evalFormula] at h
      cases h
  | equivalence sign left right =>
      simp only [evalFormula, Except.bind_eq_ok] at h
      obtain ⟨l, hl, r, hr, nl, hnl, nr, hnr, h⟩ := h
      cases h
      simp only [Formula.withSign, Formula.sign, evalFormula, hpolarity, hl, hr, hnl, hnr,
        Except.ok_bind, hsign]
      rfl
  | comparison sign terms comparators =>
      simp only [evalFormula, Except.bind_eq_ok] at h
      obtain ⟨u, hchain, xs, hxs, h⟩ := h
      cases h
      simp only [Formula.withSign, Formula.sign, evalFormula, hpolarity, hchain, hxs,
        Except.ok_bind, hsign]
      rfl

def Valuation.Evaluates (v : Valuation) (f : Formula) (b : Bool) : Prop :=
  ∀ positive, evalFormula v positive f = .ok (.ofBool b)

theorem evalChildren_eq_any {fs : List Formula} {bs : List Bool}
    (h : List.Forall₂ v.Evaluates fs bs)
    (positive : Bool) : evalChildren v positive false .no fs = .ok (.ofBool (bs.any id)) := by
  induction h with
  | nil => rw [evalChildren]; rfl
  | @cons f b fs bs hb _ ih =>
      rw [evalChildren, hb positive, Except.ok_bind]
      cases b with
      | true => rfl
      | false => exact ih

theorem evaluates_disj {fs : List Formula} {bs : List Bool} (h : List.Forall₂ v.Evaluates fs bs) :
    v.Evaluates (.disj fs) (bs.any id) := by
  intro positive
  have hchildren := evalChildren_eq_any h (positive == true)
  rw [Formula.disj, evalFormula, Truth.ofBool, hchildren]
  rfl

theorem evaluates_iff {f g : Formula} {b c : Bool} (hb : v.Evaluates f b) (hc : v.Evaluates g c) :
    v.Evaluates (.iff f g) (b == c) := by
  intro positive
  rw [Formula.iff]
  simp only [evalFormula, hb _, hc _, Except.ok_bind]
  cases b <;> cases c <;> rfl

theorem evalTerm_element (positive : Bool) (e : Element) :
    evalTerm v positive (.element e) = .ok (.known e) := by
  rw [evalTerm]
  rfl

theorem evalArgs_elements (positive : Bool) (t : Tuple) :
    evalArgs v positive (t.map Term.element) = .ok (.known t) := by
  induction t with
  | nil => rw [List.map_nil, evalArgs]; rfl
  | cons e t ih =>
      rw [List.map_cons, evalArgs, evalTerm_element, Except.ok_bind]
      dsimp only
      rw [ih]
      rfl

end Evaluation

section Reading

variable {S M : Structure} {atoms : List Atom} (hatoms : Encoder.atomsOf S = .ok atoms)
    (h : S.TotalExtension M)
include hatoms h

theorem evaluates_atomFormula {a : Atom} (ha : S.InTables a) {f : Formula}
    (hf : atomFormula S.vocabulary a = .ok f) : M.valuation.Evaluates f (M.holds a) := by
  intro positive
  rw [atomFormula, Except.bind_eq_ok] at hf
  obtain ⟨s, hs, hf⟩ := hf
  have hsymbol := Vocabulary.symbol_eq_ok_iff.mp hs
  cases hfunction : s.isFunction with
  | false =>
      rw [hfunction] at hf
      cases hf
      have hvalue : M.valuation.atomAt (positive == true) a.symbol a.tuple = .ofBool (M.holds a) :=
        h.value_eq hatoms ha
      rw [Formula.pred, evalFormula, evalArgs_elements, Except.ok_bind]
      exact congrArg _ hvalue
  | true =>
      obtain ⟨s', result, t, e, hs', hresult, heq, ht, he⟩ :=
        Structure.exists_of_isFunction hatoms ha
        ((Structure.isFunction_of_symbol hsymbol).trans hfunction)
      obtain ⟨p, u⟩ := a
      cases heq
      have hlast : (t ++ [e]).getLast? = some e := by simp
      simp only [hfunction, hlast, List.dropLast_concat] at hf
      cases hf
      obtain ⟨k, hk⟩ := h.exists_functionValue hs' hresult ht
      have happ : evalTerm M.valuation (positive == true) (.apply p (t.map Term.element)) =
          .ok (.known k) := by
        rw [evalTerm, evalArgs_elements, Except.ok_bind]
        dsimp only
        rw [show M.valuation.function p t = .ok (some k) from hk]
        rfl
      have hholds : M.holds ⟨p, t ++ [e]⟩ = Comparator.eq.holds k e := by
        rw [Bool.eq_iff_iff, Comparator.holds_eq_iff, Structure.holds, beq_iff_eq]
        exact h.value_eq_yes_iff_eq hs' hresult ht hk he
      have hlinks : linksTruth [.known k, .known e] [.eq] = .ofBool (Comparator.eq.holds k e) := by
        rw [linksTruth, Comparator.linkTruth]
        cases Comparator.eq.holds k e <;> rfl
      rw [hholds, Formula.compare, evalFormula, evalTerms, happ, evalTerms,
        evalTerm_element, evalTerms]
      exact congrArg Except.ok hlinks

theorem reading_evaluates : Reading S M.holds M.valuation.Evaluates where
  unique hb hc := Truth.ofBool_injective (Except.ok.inj ((hb true).symm.trans (hc true)))
  negate hb positive := by
    rw [evalFormula_negate (hb (!positive)), Truth.not_ofBool]
  iff := evaluates_iff
  disj := evaluates_disj
  atom ha hf := evaluates_atomFormula hatoms h ha hf

end Reading

/-! ## Orbits of total structures -/

/-- Where each sort has a finite table and the symbols range over declared sorts, the atoms can be
listed. -/
theorem exists_atomsOf {S : Structure} (hlength : S.tables.length = S.vocabulary.sorts.length)
    (hfinite : ∀ t ∈ S.tables, t.isFinite = true)
    (hdeclared : ∀ s ∈ S.vocabulary.symbols, ∀ sort ∈ s.graphSorts, sort ∈ S.vocabulary.sortIds) :
    ∃ atoms, Encoder.atomsOf S = .ok atoms := by
  have hdomain : ∀ sort ∈ S.vocabulary.sortIds, ∃ es, S.domain sort = .ok es := by
    intro sort hsort
    rw [Vocabulary.sortIds, List.mem_range, Vocabulary.numSorts, ← hlength] at hsort
    have htable := List.getElem?_eq_getElem hsort
    have ht := hfinite _ (List.getElem_mem hsort)
    rw [Structure.domain, Structure.table, htable, Except.ok_bind]
    cases hcases : S.tables[sort] with
    | finite elements => exact ⟨elements.toList, rfl⟩
    | infinite =>
        rw [hcases] at ht
        cases ht
  have hdomains : ∀ p ∈ S.vocabulary.symbolIds, ∃ pd : SymbolId × List (List Element),
      (do return (p, ← S.graphDomains p)) = Except.ok pd := by
    intro p hp
    rw [Vocabulary.symbolIds, List.mem_range, Vocabulary.numSymbols] at hp
    have hs := Vocabulary.symbol_eq_ok_iff.mpr (List.getElem?_eq_getElem hp)
    obtain ⟨ds, hds⟩ := exists_mapM_eq_ok (f := S.domain) fun sort hsort =>
      hdomain sort (hdeclared _ (List.getElem_mem hp) sort hsort)
    refine ⟨(p, ds), ?_⟩
    rw [Structure.graphDomains, hs, Except.ok_bind, Structure.domains, hds]
    rfl
  obtain ⟨pds, hpds⟩ := exists_mapM_eq_ok hdomains
  exact ⟨_, by rw [Encoder.atomsOf, hpds]; rfl⟩

/-- In a set of total structures over finite tables that is closed under exchanging two consecutive
elements of an interchangeable set, swaps lead from each one to one in which all formulas that break
symmetry are true. -/
theorem breakingFormulas_cover {S : Structure}
    (hlength : S.tables.length = S.vocabulary.sorts.length)
    (hfinite : ∀ t ∈ S.tables, t.isFinite = true)
    (hdeclared : ∀ s ∈ S.vocabulary.symbols, ∀ sort ∈ s.graphSorts, sort ∈ S.vocabulary.sortIds)
    (T : Theory) (limit : Nat) {K : Set Structure} (hK : ∀ M ∈ K, S.TotalExtension M)
    (hclosed : ∀ M ∈ K, ∀ J ∈ interchanges S T, ∀ ab ∈ J.swaps, M.swap ab.1 ab.2 ∈ K)
    {M : Structure} (hM : M ∈ K) :
    ∃ M' ∈ K, Relation.ReflTransGen (Swapped S T) M M' ∧ ∀ J ∈ interchanges S T,
      ∃ fs, J.breakingFormulas S limit = .ok fs ∧ ∀ f ∈ fs,
        evalFormula M'.valuation true f = .ok .yes := by
  obtain ⟨atoms, hatoms⟩ := exists_atomsOf hlength hfinite hdeclared
  have hexchanges : Exchanges S T Structure.holds K := by
    refine ⟨fun M hM M' hM' x hx hknown => ?_, fun M hM J hJ ab hab x hx => ?_, ?_⟩
    · obtain ⟨b, hb⟩ := Truth.exists_eq_ofBool hknown
      rw [(hK M hM).holds_eq_of_value hatoms hx hb, (hK M' hM').holds_eq_of_value hatoms hx hb]
    · exact (hK M hM).holds_swap hatoms (hK _ (hclosed M hM J hJ ab hab))
        (sameTables_of_mem_swaps hJ hab) hx
    · rintro M hM _ ⟨J, hJ, ab, hab, rfl⟩
      exact hclosed M hM J hJ ab hab
  obtain ⟨M', hM', hreach, hleads⟩ := hexchanges.exists_leading hatoms hlength limit hM
  refine ⟨M', hM', hreach, fun J hJ => ?_⟩
  obtain ⟨fs, hfs⟩ := exists_breakingFormulas hatoms hJ limit
  have hreads :=
    ((reading_evaluates hatoms (hK M' hM')).forall_breakingFormulas hatoms hJ hfs).mpr (hleads J hJ)
  exact ⟨fs, hfs, fun f hf => hreads f hf true⟩

/-- Two persons, each of whom votes for one of them. -/
def election : Structure where
  vocabulary := ⟨[⟨"person", []⟩], [⟨"vote", [0], some 0⟩]⟩
  tables := [.range 1 2]
  facts := ∅

/-- Both vote for the first one. -/
def landslide : Structure :=
  { election with
    facts :=
      .ofList
        ([(⟨0, [.int 1, .int 1]⟩, true), (⟨0, [.int 1, .int 2]⟩, false),
          (⟨0, [.int 2, .int 1]⟩, true)] :
      List (Atom × Bool)) }

theorem totalExtension_election {M : Structure}
    (hM : M ∈ [landslide, landslide.swap (.int 1) (.int 2)]) :
    election.TotalExtension M := by
  have hvalues : ∀ M ∈ [landslide, landslide.swap (.int 1) (.int 2)], M.isTotal = .ok true ∧
      ∀ t ∈ product [[.int 1, .int 2]], ∃ v ∈ [Element.int 1, .int 2], M.value 0 (t ++ [v]) = .yes ∧
        ∀ w ∈ [Element.int 1, .int 2], M.value 0 (t ++ [w]) = .yes → w = v := by decide +kernel
  obtain ⟨htotal, hvalue⟩ := hvalues M hM
  have hsame : M.vocabulary = election.vocabulary ∧ M.tables = election.tables := by
    rcases List.mem_pair.mp hM with rfl | rfl <;> exact ⟨rfl, rfl⟩
  refine ⟨hsame.1, hsame.2, fun hv => by simp [election] at hv, htotal, ?_⟩
  intro f s result hs hresult t ht
  cases f with
  | succ f => cases hs
  | zero =>
      cases hs
      cases hresult
      obtain ⟨v, hv, hyes, hunique⟩ := hvalue t ht
      exact ⟨v, ⟨hv, hyes⟩, fun w ⟨hw, hw'⟩ => hunique w hw hw'⟩

/-- Exchanging the persons is the only symmetry. -/
theorem interchanges_election :
    interchanges election ⟨[], [], []⟩ = [⟨[.int 1, .int 2], [0], [0]⟩] := by
  have hancestors : election.vocabulary.ancestors 0 = .ofList [0] := by
    simp [Vocabulary.ancestors, reach, election, Vocabulary.sortIds, Vocabulary.numSorts,
      Vocabulary.parents]
  have hdescendants : election.vocabulary.descendants 0 =
      .ofList ([0].filter fun t => (election.vocabulary.ancestors t).contains 0) := rfl
  rw [List.filter_singleton, hancestors] at hdescendants
  have hcandidates :
      candidates election (Theory.arithmeticSorts ⟨[], [], []⟩ election.vocabulary) 0 =
      [.int 1, .int 2] := by
    rw [candidates, hancestors, hdescendants]
    decide +kernel
  change ([0].flatMap fun sort =>
    interchangeGroups election _ (candidates election _ sort)).eraseDups.map
    (Interchange.ofGroup election) = _
  rw [List.flatMap_singleton, hcandidates]
  decide +kernel

/-- The persons are interchangeable and four formulas break the symmetry. Exchanging the persons
leads from the vote for the first one to one in which all four are true. -/
theorem exists_election_leader :
    ∃ J fs, interchanges election ⟨[], [], []⟩ = [J] ∧ J.elements = [.int 1, .int 2] ∧
      J.breakingFormulas election 0 = .ok fs ∧ fs.length = 4 ∧
      ∃ M' ∈ {M | M ∈ [landslide, landslide.swap (.int 1) (.int 2)]},
        Relation.ReflTransGen (Swapped election ⟨[], [], []⟩) landslide M' ∧
          ∀ f ∈ fs, evalFormula M'.valuation true f = .ok .yes := by
  have hbreaking :
      ((Interchange.breakingFormulas ⟨[.int 1, .int 2], [0], [0]⟩ election 0).toOption.any
      fun fs => fs.length == 4) = true := by decide +kernel
  obtain ⟨fs, hfs, hlength⟩ := (Option.any_eq_true ..).mp hbreaking
  have hswap : ∀ M ∈ [landslide, landslide.swap (.int 1) (.int 2)],
      M.swap (.int 1) (.int 2) ∈ [landslide, landslide.swap (.int 1) (.int 2)] := by decide +kernel
  obtain ⟨M', hM', hreach, htrue⟩ :=
    breakingFormulas_cover rfl (by decide) (by decide) ⟨[], [], []⟩ 0
    (K := {M | M ∈ [landslide, landslide.swap (.int 1) (.int 2)]})
    (fun M hM => totalExtension_election hM) (fun M hM I hI ab hab => by
      rw [interchanges_election, List.mem_singleton] at hI
      subst hI
      obtain rfl := List.mem_singleton.mp hab
      exact hswap M hM) List.mem_cons_self
  rw [interchanges_election, List.forall_mem_singleton] at htrue
  obtain ⟨fs', hfs', htrue⟩ := htrue
  cases (Except.toOption_eq_some_iff.mp hfs).symm.trans hfs'
  exact ⟨_, fs, interchanges_election, rfl, hfs', beq_iff_eq.mp hlength, M', hM', hreach, htrue⟩

end ModelExpansion
