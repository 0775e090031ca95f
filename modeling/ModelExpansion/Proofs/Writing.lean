import ModelExpansion.Proofs.Evaluation.Precision

/-! # Writing into a structure
No write takes back what was recorded before, whether it succeeds or fails. The truth of a
function's graph may also follow from other tuples, and a write that goes against such a truth is
not refused: the write is compared with the record only. As long as no write goes against the truth
of the tuple it is about, every known truth stays. -/

namespace ModelExpansion

/-- A call that writes into a structure. -/
inductive Write where
  /-- Makes a tuple of a symbol certainly true or certainly false. -/
  | value (symbol : SymbolId) (tuple : Tuple) (value : Bool)
  /-- Fixes the value of a function. -/
  | function (f : SymbolId) (args : Tuple) (value : Element)

namespace Structure

variable {S S' : Structure} {p : SymbolId} {t : Tuple} {b c : Bool}

/-- The structure after a write, which may have failed. -/
def write (S : Structure) : Write → Structure
  | .value p t b =>
    match S.setValue p t b with
    | .ok (S', _) => S'
    | .error _ => S
  | .function f args v => (S.setFunction f args v).1

/-- The structure after several writes. -/
def writeAll (S : Structure) (writes : List Write) : Structure := writes.foldl write S

/-! ## Records -/

theorem refines_setGraph_fst (S : Structure) (f : SymbolId) (args : Tuple) (v : Element)
    (values : List Element) :
    S.Refines (S.setGraph f args v values).1 := by
  induction values generalizing S with
  | nil => exact .refl S
  | cons d values ih =>
      rw [setGraph]
      cases hset : S.setValue f (args ++ [d]) (d == v) with
      | error failure => exact .refl S
      | ok result => exact (refines_setValue hset).1.trans (ih result.1)

/-- A write only adds to the record, whether it succeeds or fails. -/
theorem refines_write (S : Structure) (w : Write) : S.Refines (S.write w) := by
  cases w with
  | value p t b =>
      rw [write]
      cases hset : S.setValue p t b with
      | error failure => exact .refl S
      | ok result => exact (refines_setValue hset).1
  | function f args v =>
      rw [write, setFunction]
      cases S.resultDomain f with
      | error failure => exact .refl S
      | ok values => exact S.refines_setGraph_fst f args v values

theorem refines_writeAll (S : Structure) (writes : List Write) : S.Refines (S.writeAll writes) := by
  induction writes generalizing S with
  | nil => exact .refl S
  | cons w writes ih => exact (S.refines_write w).trans (ih _)

theorem Refines.stored (h : S.Refines S') (hstored : S.stored p t = .ofBool b) :
    S'.stored p t = .ofBool b :=
  stored_eq_ofBool_iff.mpr (h.keeps (stored_eq_ofBool_iff.mp hstored))

/-- What is recorded keeps its truth under all writes, of predicates and of functions. -/
theorem value_writeAll_of_stored (hstored : S.stored p t = .ofBool b) (writes : List Write) :
    (S.writeAll writes).value p t = .ofBool b :=
  value_of_stored ((S.refines_writeAll writes).stored hstored)

/-- A known truth of a predicate stays under all writes. -/
theorem value_writeAll_of_predicate (hpredicate : S.isFunction p = false)
    (hvalue : S.value p t = .ofBool b)
    (writes : List Write) : (S.writeAll writes).value p t = .ofBool b :=
  value_writeAll_of_stored ((value_eq_stored hpredicate t).symm.trans hvalue) writes

/-- The opposite of what is recorded is refused, and nothing changes. -/
theorem write_opposite (ht : S.InTables ⟨p, t⟩) (hstored : S.stored p t = .ofBool b) :
    S.setValue p t (!b) = .error (.inconsistent (S.vocabulary.symbolName p) t.text) ∧
      S.write (.value p t !b) = S := by
  have hrefused : S.setValue p t (!b) =
      .error (.inconsistent (S.vocabulary.symbolName p) t.text) := by
    rw [setValue, show S.checkTuple p t = .ok () from
      ht, Except.ok_bind, stored_eq_ofBool_iff.mp hstored]
    exact if_neg (by cases b <;> decide)
  exact ⟨hrefused, by rw [write, hrefused]⟩

/-! ## What follows from the record -/

/-- Deciding one more value the way the determined value says leaves that one determined. -/
theorem determined?_decide {values : List Element} {truth truth' : Element → Truth} {k d : Element}
    (hnodup : values.Nodup) (h : determined? values truth = some k) (hopen : truth d = .unknown)
    (hd : truth' d = .ofBool (k == d)) (hothers : ∀ v, v ≠ d → truth' v = truth v) :
    determined? values truth' = some k := by
  have hmem := determined?_mem h
  rcases determined?_cases h with hyes | ⟨hunknown, hno⟩
  · have hkd : k ≠ d := fun heq => by rw [heq, hopen] at hyes; cases hyes
    have hsame : (fun v => truth' v == .yes) = fun v => truth v == .yes := by
      funext v
      by_cases hv : v = d
      · rw [hv, hd, hopen, beq_eq_false_iff_ne.mpr hkd]
        rfl
      · rw [hothers v hv]
    rw [determined?] at h ⊢
    rw [hsame]
    cases hfind : values.find? (fun v => truth v == .yes) with
    | some v => rwa [hfind] at h
    | none => exact absurd (beq_iff_eq.mpr hyes) (List.find?_eq_none.mp hfind k hmem)
  · refine determined?_of_excluded hnodup hmem ?_ fun v hv hvk => ?_
    · by_cases hkd : k = d
      · rw [hkd, hd, hkd, beq_self_eq_true]
        exact Truth.noConfusion
      · rw [hothers k hkd, hunknown]
        exact Truth.noConfusion
    · have hvd : v ≠ d := fun heq => by have := hno v hv hvk; rw [heq, hopen] at this; cases this
      rw [hothers v hvd, hno v hv hvk]

theorem stored_setValue (h : S.setValue p t b = .ok (S', c)) (q : SymbolId) (u : Tuple) :
    S'.stored q u = if q = p ∧ u = t then .ofBool b else S.stored q u := by
  rw [stored, facts_setValue h, stored]
  by_cases heq : q = p ∧ u = t
  · rw [if_pos (by rw [heq.1, heq.2]), if_pos heq]
    rfl
  · rw [if_neg (fun ha => heq (by cases ha; exact ⟨rfl, rfl⟩)), if_neg heq]

/-- A write that succeeds is about a tuple of which nothing is recorded, or changes nothing. -/
theorem stored_eq_unknown_of_setValue (h : S.setValue p t b = .ok (S', c)) :
    S.stored p t = .unknown ∨ S' = S := by
  rw [setValue, Except.bind_eq_ok] at h
  obtain ⟨_, -, h⟩ := h
  split at h
  · next hnone => exact .inl (by rw [stored, hnone]; rfl)
  · split at h <;> cases h
    exact .inr rfl

/-- A write that does not go against the truth of its tuple leaves the known values of functions. -/
theorem functionValue_setValue (h : S.setValue p t b = .ok (S', c))
    (hagrees : S.value p t ≠ .ofBool !b)
    {f : SymbolId} {args : Tuple} {k : Element} (hk : S.functionValue f args = .ok (some k)) :
    S'.functionValue f args = .ok (some k) := by
  rcases stored_eq_unknown_of_setValue h with hopen | rfl
  swap
  · exact hk
  have hrefines := (refines_setValue h).1
  obtain ⟨s, result, hs, hresult, hdomain, hdetermined⟩ := functionValue_eq_ok_iff.mp hk
  refine functionValue_eq_ok_iff.mpr ⟨s, result, by rwa [hrefines.vocabulary], hresult, ?_, ?_⟩
  · rwa [domain_congr hrefines.vocabulary hrefines.tables,
      elements_congr hrefines.vocabulary hrefines.tables]
  rw [elements_congr hrefines.vocabulary hrefines.tables]
  by_cases hgraph : ∃ d, f = p ∧ args ++ [d] = t
  · obtain ⟨d, rfl, rfl⟩ := hgraph
    refine determined?_decide (S.nodup_elements result) hdetermined hopen ?_ fun v hv => ?_
    · have hfunction : S.isFunction f = true := by
        rw [isFunction_of_symbol hs, Symbol.isFunction, hresult]
        rfl
      rw [value_eq_graphValue hfunction hopen, graphValue_append hk] at hagrees
      rw [stored_setValue h, if_pos ⟨rfl, rfl⟩, ← Bool.not_eq_not.mp fun heq =>
        hagrees (congrArg _ heq)]
    · rw [stored_setValue h, if_neg fun heq => hv (by simpa using heq.2)]
  · have hsame : ∀ v, S'.stored f (args ++ [v]) = S.stored f (args ++ [v]) := fun v => by
      rw [stored_setValue h, if_neg fun heq => hgraph ⟨v, heq⟩]
    rwa [funext hsame]

/-- A write that does not go against the truth of its tuple leaves every known truth. -/
theorem value_setValue (h : S.setValue p t b = .ok (S', c)) (hagrees : S.value p t ≠ .ofBool !b)
    {q : SymbolId}
    {u : Tuple} {known : Bool} (hvalue : S.value q u = .ofBool known) :
    S'.value q u = .ofBool known := by
  have hrefines := (refines_setValue h).1
  by_cases hstored : S.stored q u = .unknown
  swap
  · obtain ⟨recorded, hrecorded⟩ := Truth.exists_eq_ofBool hstored
    rw [value_of_stored hrecorded] at hvalue
    exact value_of_stored (hrefines.stored (hrecorded.trans hvalue))
  by_cases hsame : q = p ∧ u = t
  · obtain ⟨rfl, rfl⟩ := hsame
    rw [hvalue] at hagrees
    rw [Bool.not_eq_not.mp fun heq => hagrees (congrArg _ heq)]
    exact value_of_stored (stored_eq_ofBool_iff.mpr (refines_setValue h).2)
  · have hstored' : S'.stored q u = .unknown := by rw [stored_setValue h, if_neg hsame, hstored]
    obtain ⟨hfunction, args, v, k, rfl, hk⟩ :=
      exists_functionValue_of_value hstored (hvalue ▸ Truth.ofBool_ne_unknown _)
    have hfunction' : S'.isFunction q = true := by rwa [isFunction_congr hrefines.vocabulary]
    rw [← hvalue, value_eq_graphValue hfunction hstored, value_eq_graphValue hfunction' hstored',
      graphValue_append hk, graphValue_append (functionValue_setValue h hagrees hk)]

/-! ## Writes that agree -/

/-- A write that does not go against the truth of what it is about. Fixing a function decides the
whole graph at the arguments, so the value has to be one of the results, and the truth of no tuple
of the graph may exclude it. -/
def Agrees (S : Structure) : Write → Prop
  | .value p t b => S.value p t ≠ .ofBool !b
  | .function f args v =>
    v ∈ S.results f ∧ ∀ d ∈ S.results f, S.value f (args ++ [d]) ≠ .ofBool !(d == v)

def AllAgree (S : Structure) : List Write → Prop
  | [] => True
  | w :: writes => S.Agrees w ∧ (S.write w).AllAgree writes

section Graph

variable {f : SymbolId} {args : Tuple} {v : Element}

/-- Nothing that is recorded speaks against a value of a function. -/
structure Allows (S : Structure) (f : SymbolId) (args : Tuple) (v : Element) : Prop where
  mem : v ∈ S.results f
  notFalse : S.stored f (args ++ [v]) ≠ .no
  others : ∀ d ∈ S.results f, d ≠ v → S.stored f (args ++ [d]) ≠ .yes

theorem Agrees.allows (h : S.Agrees (.function f args v)) : S.Allows f args v where
  mem := h.1
  notFalse hno := h.2 v h.1 (by rw [value_of_stored (b := false) hno, beq_self_eq_true]; rfl)
  others d hd hdv hyes :=
    h.2 d hd (by rw [value_of_stored (b := true) hyes, beq_eq_false_iff_ne.mpr hdv]; rfl)

/-- The truth of the graph does not speak against such a value either. -/
theorem Allows.value_ne (h : S.Allows f args v) {d : Element} (hd : d ∈ S.results f) :
    S.value f (args ++ [d]) ≠ .ofBool !(d == v) := by
  intro hvalue
  by_cases hstored : S.stored f (args ++ [d]) = .unknown
  · obtain ⟨hfunction, args', d', k, heq, hk⟩ :=
      exists_functionValue_of_value hstored (hvalue ▸ Truth.ofBool_ne_unknown _)
    obtain ⟨rfl, hlast⟩ := List.append_inj' heq rfl
    rw [value_eq_graphValue hfunction hstored, graphValue_append hk] at hvalue
    have hkv : k ≠ v := by
      rintro rfl
      have hbool := Truth.ofBool_injective hvalue
      rw [BEq.comm] at hbool
      cases hdk : d == k <;> rw [hdk] at hbool <;> cases hbool
    rcases determined?_cases (determined?_of_functionValue hk) with hyes | ⟨-, hno⟩
    · exact h.others k (mem_results_of_functionValue hk) hkv hyes
    · exact h.notFalse (hno v h.mem (Ne.symm hkv))
  · obtain ⟨recorded, hrecorded⟩ := Truth.exists_eq_ofBool hstored
    rw [value_of_stored hrecorded] at hvalue
    rw [hvalue] at hrecorded
    by_cases hdv : d = v
    · rw [hdv, beq_self_eq_true] at hrecorded
      exact h.notFalse hrecorded
    · rw [beq_eq_false_iff_ne.mpr hdv] at hrecorded
      exact h.others d hd hdv hrecorded

/-- Recording one tuple of the graph as the value says leaves the value possible. -/
theorem Allows.setValue {d : Element} (h : S.Allows f args v)
    (hset : S.setValue f (args ++ [d]) (d == v) = .ok (S', c)) : S'.Allows f args v := by
  have hrefines := (refines_setValue hset).1
  have hresults := results_congr hrefines.vocabulary hrefines.tables
  refine ⟨by rw [hresults]; exact h.mem, fun hno => ?_, fun e he hev hyes => ?_⟩
  · rw [stored_setValue hset] at hno
    split at hno
    · next heq =>
      obtain rfl : v = d := by simpa using heq.2
      rw [beq_self_eq_true] at hno
      cases hno
    · exact h.notFalse hno
  · rw [stored_setValue hset] at hyes
    split at hyes
    · next heq =>
      obtain rfl : e = d := by simpa using heq.2
      rw [beq_eq_false_iff_ne.mpr hev] at hyes
      cases hyes
    · rw [hresults] at he
      exact h.others e he hev hyes

/-- Fixing a possible value of a function leaves every known truth, also where it fails half-way. -/
theorem value_setGraph {values : List Element} (h : S.Allows f args v)
    (hvalues : ∀ d ∈ values, d ∈ S.results f)
    {q : SymbolId} {u : Tuple} {known : Bool} (hvalue : S.value q u = .ofBool known) :
    (S.setGraph f args v values).1.value q u = .ofBool known := by
  induction values generalizing S with
  | nil => exact hvalue
  | cons d values ih =>
      obtain ⟨hd, hvalues⟩ := List.forall_mem_cons.mp hvalues
      rw [setGraph]
      cases hset : S.setValue f (args ++ [d]) (d == v) with
      | error failure => exact hvalue
      | ok result =>
          have hrefines := (refines_setValue hset).1
          refine ih (h.setValue hset) (fun e he => ?_) (value_setValue hset (h.value_ne hd) hvalue)
          rw [results_congr hrefines.vocabulary hrefines.tables]
          exact hvalues e he

end Graph

theorem value_write {w : Write} (hagrees : S.Agrees w) {q : SymbolId} {u : Tuple} {known : Bool}
    (hvalue : S.value q u = .ofBool known) : (S.write w).value q u = .ofBool known := by
  cases w with
  | value p t b =>
      rw [write]
      cases hset : S.setValue p t b with
      | error failure => exact hvalue
      | ok result => exact value_setValue hset hagrees hvalue
  | function f args v =>
      rw [write, setFunction]
      cases hresults : S.resultDomain f with
      | error failure => exact hvalue
      | ok values =>
          refine value_setGraph (Agrees.allows hagrees) (fun d hd => ?_) hvalue
          rw [results, hresults]
          exact hd

/-- As long as every write agrees with what is known when it is made, every known truth stays, of
predicates and of functions. -/
theorem value_writeAll {writes : List Write} (hagree : S.AllAgree writes) {q : SymbolId} {u : Tuple}
    {known : Bool}
    (hvalue : S.value q u = .ofBool known) : (S.writeAll writes).value q u = .ofBool known := by
  induction writes generalizing S with
  | nil => exact hvalue
  | cons w writes ih => exact ih hagree.2 (value_write hagree.1 hvalue)

/-! ## Writes that do not -/

/-- A coin that shows heads. That it does not show tails is not recorded, but follows. -/
def coin : Structure where
  vocabulary := ⟨[⟨"side", []⟩], [⟨"shows", [], some 0⟩]⟩
  tables := [.ofList [.name "heads", .name "tails"]]
  facts := .ofList [((⟨0, [.name "heads"]⟩ : Atom), true)]

/-- What only follows from the value of a function is not protected: the opposite is recorded
without an error, and the known truth of the tuple changes. -/
theorem value_write_implied : coin.value 0 [.name "tails"] = .no ∧
    (coin.setValue 0 [.name "tails"] true).toOption.isSome = true ∧
    (coin.write (.value 0 [.name "tails"] true)).value 0 [.name "tails"] = .yes := by
  decide +kernel

end Structure

end ModelExpansion
