import ModelExpansion.Proofs.Interchange.TotalStructures

/-! # What is known stays known
Where more atoms are decided, a formula or a term that already had a value keeps it. Evaluation may
end earlier then, since children and members are skipped once the value is settled, but never with
another value. -/

namespace ModelExpansion

/-! ## Values that are kept -/

/-- The second value is the first one, unless that one is not known. -/
def Kept {α : Type} (unknown x x' : α) : Prop := x ≠ unknown → x' = x

theorem Kept.refl {α : Type} (unknown x : α) : Kept unknown x x := fun _ => rfl

theorem kept_unknown {α : Type} (unknown x' : α) : Kept unknown unknown x' := fun h => absurd rfl h

namespace Truth

variable {a a' b b' : Truth}

theorem kept_not (ha : Kept unknown a a') : Kept unknown a.not a'.not := by
  cases a <;> simp_all [Kept, Truth.not]

theorem kept_withSign {sign : Bool} (ha : Kept unknown a a') :
    Kept unknown (a.withSign sign) (a'.withSign sign) := by
  cases sign
  · exact kept_not ha
  · exact ha

theorem kept_and (ha : Kept unknown a a') (hb : Kept unknown b b') :
    Kept unknown (a.and b) (a'.and b') := by
  cases a <;> cases b <;> cases a' <;> simp_all [Kept, Truth.and]

theorem kept_or (ha : Kept unknown a a') (hb : Kept unknown b b') :
    Kept unknown (a.or b) (a'.or b') := by
  cases a <;> cases b <;> cases a' <;> simp_all [Kept, Truth.or]

theorem kept_join (conjunctive : Bool) (ha : Kept unknown a a') (hb : Kept unknown b b') :
    Kept unknown (a.join conjunctive b) (a'.join conjunctive b') := by
  cases conjunctive
  · exact kept_or ha hb
  · exact kept_and ha hb

/-- A junction that is not decided yet stays so or is decided. -/
theorem unknown_join (conjunctive : Bool) (b : Truth) :
    unknown.join conjunctive b = unknown ∨ unknown.join conjunctive b = .ofBool !conjunctive := by
  cases conjunctive <;> cases b <;> simp [join, Truth.and, Truth.or, ofBool]

end Truth

/-- A link with an undefined side does not hold, whatever the other side is. -/
theorem Comparator.kept_linkTruth (c : Comparator) {a a' b b' : TermValue} (ha : Kept .unknown a a')
    (hb : Kept .unknown b b') : Kept .unknown (c.linkTruth a b) (c.linkTruth a' b') := by
  cases a <;> cases b <;> cases a' <;> simp_all [Kept, linkTruth]

theorem kept_linksTruth {xs xs' : List TermValue} (h : List.Forall₂ (Kept .unknown) xs xs')
    (cs : List Comparator) : Kept .unknown (linksTruth xs cs) (linksTruth xs' cs) := by
  induction h generalizing cs with
  | nil => exact .refl _ _
  | cons ha hrest ih =>
      cases hrest with
      | nil => exact .refl _ _
      | cons hb hrest =>
          cases cs with
          | nil => exact .refl _ _
          | cons c cs => exact Truth.kept_and (c.kept_linkTruth ha hb) (ih cs)

/-! ## Sources that know more -/

/-- The second source agrees with the first one on what that one knows. -/
structure Valuation.Informs (v v' : Valuation) : Prop where
  atomAt : ∀ positive p t, Kept .unknown (v.atomAt positive p t) (v'.atomAt positive p t)
  function : ∀ {f t o o'}, v.function f t = .ok o → v'.function f t = .ok o' → Kept none o o'

/-- A junction that is not decided at some child ends undecided, or a later child decides it. -/
theorem evalChildren_of_unknown {v : Valuation} {positive conjunctive : Bool}
    {fs : List Formula} {y : Truth}
    (h : evalChildren v positive conjunctive .unknown fs = .ok y) :
    y = .unknown ∨ y = .ofBool !conjunctive := by
  induction fs with
  | nil =>
      rw [evalChildren, Except.pure_eq_ok] at h
      exact .inl h.symm
  | cons f fs ih =>
      obtain ⟨x, -, h⟩ := evalChildren_cons_eq_ok h
      split at h
      · exact .inr h
      · next hopen =>
          rw [(Truth.unknown_join conjunctive x).resolve_right hopen] at h
          exact ih h

/-! ## Reading one member of a set -/

/-- What a member does to the value of an aggregate. -/
inductive Gain where
  | absent
  | added (weight : Int)
  | undecided
  /-- The member is there and has no weight. -/
  | undefined

/-- What the member with a condition and a weight does to the value of an aggregate. -/
def gain (v : Valuation) (positive : Bool) (kind : Aggregate) (condition : Formula)
    (weight : Term) :
    Except Failure Gain := do
  match ← evalFormula v positive condition with
  | .no => return .absent
  | .unknown => return .undecided
  | .yes =>
    if kind.usesWeights then
      match ← evalTerm v positive weight with
      | .known (.int w) => return .added w
      | .known e => throw (kind.badWeight e)
      | .undefined => return .undefined
      | .unknown => return .undecided
    else return .added 0

/-- The value of an aggregate after one more member. -/
theorem evalMembers_cons (v : Valuation) (positive : Bool) (kind : Aggregate) (acc : Option Int)
    (unknown : Bool) (condition : Formula) (weight : Term) (ms : List Member) :
    evalMembers v positive kind acc unknown ((condition, weight) :: ms) =
      gain v positive kind condition weight >>= fun
        | .absent => evalMembers v positive kind acc unknown ms
        | .added w => evalMembers v positive kind (kind.combine acc w) unknown ms
        | .undecided => evalMembers v positive kind acc true ms
        | .undefined => .ok .undefined := by
  rw [evalMembers, gain]
  cases evalFormula v positive condition with
  | error e => rfl
  | ok c =>
      cases c with
      | no => rfl
      | unknown => rfl
      | yes =>
          simp only [Except.ok_bind]
          split
          · cases evalTerm v positive weight with
            | error e => rfl
            | ok w => rcases w with (_ | _) | _ | _ <;> rfl
          · rfl

/-- An aggregate with a member that is not decided has no known value. It may still turn out
undefined. -/
theorem evalMembers_of_unknown {v : Valuation} {positive : Bool} {kind : Aggregate}
    {acc : Option Int}
    {ms : List Member} {x : TermValue} (h : evalMembers v positive kind acc true ms = .ok x) :
    x = .unknown ∨ x = .undefined := by
  induction ms generalizing acc with
  | nil =>
      rw [evalMembers, Except.pure_eq_ok] at h
      exact .inl h.symm
  | cons m ms ih =>
      rw [evalMembers_cons, Except.bind_eq_ok] at h
      obtain ⟨g, -, h⟩ := h
      cases g with
      | absent | added _ | undecided => exact ih h
      | undefined => exact .inr (Except.ok.inj h).symm

/-- What is known of a member is kept when its condition and its weight keep their values. -/
theorem kept_gain {v v' : Valuation} {positive : Bool} {kind : Aggregate} {condition : Formula}
    {weight : Term} (hcondition : ∀ {c c'}, evalFormula v positive condition = .ok c →
      evalFormula v' positive condition = .ok c' → Kept .unknown c c')
    (hweight : ∀ {w w'}, evalTerm v positive weight = .ok w → evalTerm v' positive weight = .ok w' →
      Kept .unknown w w') {g g' : Gain} (h : gain v positive kind condition weight = .ok g)
    (h' : gain v' positive kind condition weight = .ok g') : Kept .undecided g g' := by
  rw [gain, Except.bind_eq_ok] at h h'
  obtain ⟨c, hc, h⟩ := h
  obtain ⟨c', hc', h'⟩ := h'
  have hcc := hcondition hc hc'
  cases c with
  | unknown =>
      cases h
      exact kept_unknown _ _
  | no =>
      obtain rfl := hcc (by simp)
      cases h
      cases h'
      exact .refl _ _
  | yes =>
      obtain rfl := hcc (by simp)
      dsimp only at h h'
      by_cases hkind : kind.usesWeights = true
      · rw [if_pos hkind, Except.bind_eq_ok] at h h'
        obtain ⟨w, hw, h⟩ := h
        obtain ⟨w', hw', h'⟩ := h'
        have hww := hweight hw hw'
        cases w with
        | unknown =>
            cases h
            exact kept_unknown _ _
        | known _ | undefined =>
            obtain rfl := hww (by simp)
            obtain rfl := Except.ok.inj (h.symm.trans h')
            exact .refl _ _
      · rw [if_neg hkind, Except.pure_eq_ok] at h h'
        rw [← h, ← h']
        exact .refl _ _

section Informs

variable {v v' : Valuation}

mutual

theorem evalFormula_kept (hv : v.Informs v') : ∀ (f : Formula) {positive : Bool} {x x' : Truth},
    evalFormula v positive f = .ok x → evalFormula v' positive f = .ok x' → Kept .unknown x x'
  | .atom sign p args, positive, x, x', h, h' => by
      rw [evalFormula, Except.bind_eq_ok] at h h'
      obtain ⟨a, ha, h⟩ := h
      obtain ⟨a', ha', h'⟩ := h'
      have hargs := evalArgs_kept hv args ha ha'
      cases a with
      | known t =>
          obtain rfl := hargs (by simp)
          cases h
          cases h'
          exact Truth.kept_withSign (hv.atomAt _ p t)
      | undefined =>
          obtain rfl := hargs (by simp)
          cases h
          cases h'
          exact .refl _ _
      | unknown =>
          cases h
          exact kept_unknown _ _
  | .junction sign conjunctive children, positive, x, x', h, h' => by
      rw [evalFormula, Except.bind_eq_ok] at h h'
      obtain ⟨y, hy, h⟩ := h
      obtain ⟨y', hy', h'⟩ := h'
      cases h
      cases h'
      exact Truth.kept_withSign (evalChildren_kept hv children (.refl _ _) hy hy')
  | .quantified _ _ _ _, positive, x, x', h, h' => by
      rw [evalFormula] at h
      cases h
  | .equivalence sign left right, positive, x, x', h, h' => by
      simp only [evalFormula, Except.bind_eq_ok] at h h'
      obtain ⟨l, hl, r, hr, nl, hnl, nr, hnr, h⟩ := h
      obtain ⟨l', hl', r', hr', nl', hnl', nr', hnr', h'⟩ := h'
      cases h
      cases h'
      have both :=
        Truth.kept_and (evalFormula_kept hv left hl hl') (evalFormula_kept hv right hr hr')
      have neither := Truth.kept_and (Truth.kept_not (evalFormula_kept hv left hnl hnl'))
        (Truth.kept_not (evalFormula_kept hv right hnr hnr'))
      exact Truth.kept_withSign (Truth.kept_or both neither)
  | .comparison sign terms comparators, positive, x, x', h, h' => by
      simp only [evalFormula, Except.bind_eq_ok] at h h'
      obtain ⟨-, -, ys, hys, h⟩ := h
      obtain ⟨-, -, ys', hys', h'⟩ := h'
      cases h
      cases h'
      exact Truth.kept_withSign (kept_linksTruth (evalTerms_kept hv terms hys hys') comparators)

theorem evalChildren_kept (hv : v.Informs v') : ∀ (fs : List Formula) {positive conjunctive : Bool}
    {acc acc' y y' : Truth}, Kept .unknown acc acc' →
    evalChildren v positive conjunctive acc fs = .ok y →
    evalChildren v' positive conjunctive acc' fs = .ok y' → Kept .unknown y y'
  | [], positive, conjunctive, acc, acc', y, y', hacc, h, h' => by
      rw [evalChildren, Except.pure_eq_ok] at h h'
      rwa [← h, ← h']
  | f :: fs, positive, conjunctive, acc, acc', y, y', hacc, h, h' => by
      obtain ⟨x, hx, h⟩ := evalChildren_cons_eq_ok h
      obtain ⟨x', hx', h'⟩ := evalChildren_cons_eq_ok h'
      have hjoin := Truth.kept_join conjunctive hacc (evalFormula_kept hv f hx hx')
      split at h
      · next hdecided =>
          have hknown : acc.join conjunctive x ≠ .unknown := by
            rw [hdecided]
            cases conjunctive <;> simp [Truth.ofBool]
          rw [if_pos (by rw [hjoin hknown, hdecided])] at h'
          rw [h, h']
          exact .refl _ _
      · next hopen =>
          split at h'
          · next hdecided =>
              -- The second source decides the junction here, so to the first one it is open.
              have hunknown : acc.join conjunctive x = .unknown := by
                by_contra hknown
                exact hopen ((hjoin hknown).symm.trans hdecided)
              rw [hunknown] at h
              rcases evalChildren_of_unknown h with rfl | rfl
              · exact kept_unknown _ _
              · rw [h']
                exact .refl _ _
          · exact evalChildren_kept hv fs hjoin h h'

theorem evalTerm_kept (hv : v.Informs v') : ∀ (t : Term) {positive : Bool} {x x' : TermValue},
    evalTerm v positive t = .ok x → evalTerm v' positive t = .ok x' → Kept .unknown x x'
  | .var _, positive, x, x', h, h' => by
      rw [evalTerm] at h
      cases h
  | .element _, positive, x, x', h, h' => by
      rw [evalTerm, Except.pure_eq_ok] at h h'
      rw [← h, ← h']
      exact .refl _ _
  | .apply f args, positive, x, x', h, h' => by
      rw [evalTerm, Except.bind_eq_ok] at h h'
      obtain ⟨a, ha, h⟩ := h
      obtain ⟨a', ha', h'⟩ := h'
      have hargs := evalArgs_kept hv args ha ha'
      cases a with
      | known t =>
          obtain rfl := hargs (by simp)
          rw [Except.bind_eq_ok] at h h'
          obtain ⟨o, ho, h⟩ := h
          obtain ⟨o', ho', h'⟩ := h'
          have hvalue := hv.function ho ho'
          cases o with
          | none =>
              cases h
              exact kept_unknown _ _
          | some e =>
              obtain rfl := hvalue (by simp)
              cases h
              cases h'
              exact .refl _ _
      | undefined =>
          obtain rfl := hargs (by simp)
          cases h
          cases h'
          exact .refl _ _
      | unknown =>
          cases h
          exact kept_unknown _ _
  | .aggregate kind set, positive, x, x', h, h' => by
      rw [evalTerm] at h h'
      exact evalSet_kept hv kind set h h'

theorem evalTerms_kept (hv : v.Informs v') :
    ∀ (ts : List Term) {positive : Bool} {xs xs' : List TermValue},
    evalTerms v positive ts = .ok xs → evalTerms v' positive ts = .ok xs' →
    List.Forall₂ (Kept .unknown) xs xs'
  | [], positive, xs, xs', h, h' => by
      rw [evalTerms, Except.pure_eq_ok] at h h'
      rw [← h, ← h']
      exact .nil
  | t :: ts, positive, xs, xs', h, h' => by
      simp only [evalTerms, Except.bind_eq_ok] at h h'
      obtain ⟨x, hx, ys, hys, h⟩ := h
      obtain ⟨x', hx', ys', hys', h'⟩ := h'
      cases h
      cases h'
      exact .cons (evalTerm_kept hv t hx hx') (evalTerms_kept hv ts hys hys')

theorem evalArgs_kept (hv : v.Informs v') : ∀ (ts : List Term) {positive : Bool} {a a' : ArgValues},
    evalArgs v positive ts = .ok a → evalArgs v' positive ts = .ok a' → Kept .unknown a a'
  | [], positive, a, a', h, h' => by
      rw [evalArgs, Except.pure_eq_ok] at h h'
      rw [← h, ← h']
      exact .refl _ _
  | t :: ts, positive, a, a', h, h' => by
      rw [evalArgs, Except.bind_eq_ok] at h h'
      obtain ⟨x, hx, h⟩ := h
      obtain ⟨x', hx', h'⟩ := h'
      have hterm := evalTerm_kept hv t hx hx'
      cases x with
      | undefined =>
          obtain rfl := hterm (by simp)
          cases h
          cases h'
          exact .refl _ _
      | known e =>
          obtain rfl := hterm (by simp)
          rw [Except.bind_eq_ok] at h h'
          obtain ⟨b, hb, h⟩ := h
          obtain ⟨b', hb', h'⟩ := h'
          have hrest := evalArgs_kept hv ts hb hb'
          cases b with
          | unknown =>
              cases h
              exact kept_unknown _ _
          | known _ | undefined =>
              obtain rfl := hrest (by simp)
              cases h
              cases h'
              exact .refl _ _
      | unknown =>
          rw [Except.bind_eq_ok] at h
          obtain ⟨b, hb, h⟩ := h
          cases b with
          | known _ | unknown =>
              cases h
              exact kept_unknown _ _
          | undefined =>
              cases h
              cases x' with
              | undefined =>
                  cases h'
                  exact .refl _ _
              | known _ | unknown =>
                  rw [Except.bind_eq_ok] at h'
                  obtain ⟨b', hb', h'⟩ := h'
                  obtain rfl := evalArgs_kept hv ts hb hb' (by simp)
                  cases h'
                  exact .refl _ _

theorem evalSet_kept (hv : v.Informs v') : ∀ (kind : Aggregate) (set : SetExpr) {positive : Bool}
    {x x' : TermValue}, evalSet v positive kind set = .ok x →
    evalSet v' positive kind set = .ok x' →
    Kept .unknown x x'
  | kind, .enumerated members, positive, x, x', h, h' => by
      rw [evalSet] at h h'
      exact evalMembers_kept hv kind members (fun _ => ⟨rfl, rfl⟩) h h'
  | kind, .comprehension _ _ _, positive, x, x', h, h' => by
      rw [evalSet] at h
      cases h

/-- As long as the first source has decided every member, both have the same value so far. -/
theorem evalMembers_kept (hv : v.Informs v') :
    ∀ (kind : Aggregate) (ms : List Member) {positive : Bool}
    {acc acc' : Option Int} {unknown unknown' : Bool} {x x' : TermValue},
    (unknown = false → acc' = acc ∧ unknown' = false) →
    evalMembers v positive kind acc unknown ms = .ok x →
    evalMembers v' positive kind acc' unknown' ms = .ok x' → Kept .unknown x x'
  | kind, [], positive, acc, acc', unknown, unknown', x, x', hacc, h, h' => by
      rw [evalMembers, Except.pure_eq_ok] at h h'
      cases unknown with
      | true =>
          rw [← h]
          exact kept_unknown _ _
      | false =>
          obtain ⟨rfl, rfl⟩ := hacc rfl
          rw [← h, ← h']
          exact .refl _ _
  | kind, (condition, weight) :: ms, positive, acc, acc', unknown, unknown', x, x',
    hacc, h, h' => by
      rw [evalMembers_cons, Except.bind_eq_ok] at h h'
      obtain ⟨g, hg, h⟩ := h
      obtain ⟨g', hg', h'⟩ := h'
      have hgain := kept_gain (evalFormula_kept hv condition) (evalTerm_kept hv weight) hg hg'
      cases g with
      | absent =>
          obtain rfl := hgain (by simp)
          exact evalMembers_kept hv kind ms hacc h h'
      | added w =>
          obtain rfl := hgain (by simp)
          refine evalMembers_kept hv kind ms (fun hknown => ?_) h h'
          obtain ⟨rfl, hknown'⟩ := hacc hknown
          exact ⟨rfl, hknown'⟩
      | undefined =>
          obtain rfl := hgain (by simp)
          obtain rfl := Except.ok.inj (h.symm.trans h')
          exact .refl _ _
      | undecided =>
          cases g' with
          | absent | added _ | undecided => exact evalMembers_kept hv kind ms (by simp) h h'
          | undefined =>
              rcases evalMembers_of_unknown h with rfl | rfl
              · exact kept_unknown _ _
              · obtain rfl := Except.ok.inj h'
                exact .refl _ _

end

end Informs

/-! ## Structures that know more -/

/-- A value that is true while no other one is. -/
theorem determined?_of_yes {values : List Element} {truth : Element → Truth} {k : Element}
    (hk : k ∈ values) (hyes : truth k = .yes) (hunique : ∀ v ∈ values, truth v = .yes → v = k) :
    determined? values truth = some k := by
  have hsome : (values.find? fun v => truth v == .yes).isSome = true :=
    List.find?_isSome.mpr ⟨k, hk, beq_iff_eq.mpr hyes⟩
  obtain ⟨v, hv⟩ := Option.isSome_iff_exists.mp hsome
  have htrue : truth v = .yes := by simpa using List.find?_some hv
  rw [determined?, hv, hunique v (List.mem_of_find?_eq_some hv) htrue]

/-- A value that is not false while all others are. -/
theorem determined?_of_excluded {values : List Element} {truth : Element → Truth} {k : Element}
    (hnodup : values.Nodup) (hk : k ∈ values) (hopen : truth k ≠ .no)
    (hothers : ∀ v ∈ values, v ≠ k → truth v = .no) : determined? values truth = some k := by
  have hsame : ∀ v ∈ values, truth v ≠ .no → v = k :=
    fun v hv hne => by_contra fun hvk => hne (hothers v hv hvk)
  cases htruth : truth k with
  | no => exact absurd htruth hopen
  | yes => exact determined?_of_yes hk htruth fun v hv hyes => hsame v hv (by simp [hyes])
  | unknown =>
      have hnone : values.find? (fun v => truth v == .yes) = none := by
        rw [List.find?_eq_none]
        intro v hv hyes
        rw [beq_iff_eq] at hyes
        rw [hsame v hv (by simp [hyes]), htruth] at hyes
        cases hyes
      have hfilter : values.filter (fun v => truth v == .unknown) = [k] := by
        have hcongr : values.filter (fun v => truth v == .unknown) = values.filter (· == k) := by
          refine List.filter_congr fun v hv => ?_
          rw [Bool.eq_iff_iff, beq_iff_eq, beq_iff_eq]
          exact ⟨fun hunknown => hsame v hv (by simp [hunknown]), fun hvk => hvk ▸ htruth⟩
        rw [hcongr, List.filter_beq, List.count_eq_one_of_mem hnodup hk, List.replicate_one]
      rw [determined?, hnone, hfilter]

namespace Structure

/-- A structure that keeps the facts of another one and records nothing outside the tables. It
leaves each application of a function at least one value and makes at most one true. -/
structure Coherent (S T : Structure) : Prop where
  vocabulary : T.vocabulary = S.vocabulary
  tables : T.tables = S.tables
  keeps : ∀ {a : Atom} {v}, S.facts[a]? = some v → T.facts[a]? = some v
  inTables : ∀ {a : Atom} {v}, T.facts[a]? = some v → T.InTables a
  unique : ∀ {f s result t v w}, T.vocabulary.symbols[f]? = some s → s.result = some result →
    List.Forall₂ T.Has s.args t → T.stored f (t ++ [v]) = .yes →
    T.stored f (t ++ [w]) = .yes → v = w
  possible : ∀ {f s result t}, T.vocabulary.symbols[f]? = some s → s.result = some result →
    List.Forall₂ T.Has s.args t → ∃ v, T.Has result v ∧ T.stored f (t ++ [v]) ≠ .no

/-- What is recorded of a function has arguments and a value in the tables. -/
theorem has_of_stored {T : Structure} (hT : ∀ {a : Atom} {v}, T.facts[a]? = some v → T.InTables a)
    {f : SymbolId}
    {s : Symbol} {result : SortId} (hs : T.vocabulary.symbols[f]? = some s)
    (hresult : s.result = some result)
    {t : Tuple} {v : Element} (h : T.stored f (t ++ [v]) ≠ .unknown) :
    List.Forall₂ T.Has s.args t ∧ T.Has result v := by
  cases hfact : T.facts[(⟨f, t ++ [v]⟩ : Atom)]? with
  | none =>
      rw [stored, hfact] at h
      exact absurd rfl h
  | some b =>
      obtain ⟨s', hs', hhas⟩ := inTables_iff.mp (hT hfact)
      rw [Vocabulary.symbol_eq_ok_iff, hs] at hs'
      cases hs'
      rw [Symbol.graphSorts, hresult, ← List.forall₂_reverse_iff] at hhas
      have hsplit : T.Has result v ∧ List.Forall₂ T.Has s.args t := by simpa using hhas
      exact hsplit.symm

/-- A function with finitely many possible values is determined by what is recorded of them. -/
theorem functionValue_eq_ok_iff {T : Structure} {f : SymbolId} {t : Tuple} {o : Option Element} :
    T.functionValue f t = .ok o ↔ ∃ s result, T.vocabulary.symbols[f]? = some s ∧
    s.result = some result ∧
      T.domain result = .ok (T.elements result) ∧
      determined? (T.elements result) (fun v => T.stored f (t ++ [v])) = o := by
  rw [functionValue, resultDomain]
  constructor
  · intro h
    simp only [Except.bind_eq_ok, Except.pure_eq_ok, resultSort_eq_ok_iff] at h
    obtain ⟨values, ⟨result, ⟨s, hs, hresult⟩, hdomain⟩, h⟩ := h
    obtain rfl := elements_of_domain hdomain
    exact ⟨s, result, hs, hresult, hdomain, h⟩
  · rintro ⟨s, result, hs, hresult, hdomain, h⟩
    rw [resultSort_eq_ok_iff.mpr ⟨s, hs, hresult⟩, Except.ok_bind, hdomain, Except.ok_bind, h]
    rfl

namespace Coherent

variable {S T : Structure} (h : S.Coherent T)
include h

theorem kept_stored (p : SymbolId) (t : Tuple) : Kept .unknown (S.stored p t) (T.stored p t) := by
  intro hknown
  cases hfact : S.facts[(⟨p, t⟩ : Atom)]? with
  | none =>
      rw [stored, hfact] at hknown
      exact absurd rfl hknown
  | some v => rw [stored, stored, hfact, h.keeps hfact]

/-- What is not recorded afterwards was not recorded before. -/
theorem stored_eq_of_unknown {p : SymbolId} {t : Tuple} (ht : T.stored p t = .unknown) :
    S.stored p t = T.stored p t := by
  by_contra hne
  have hknown : S.stored p t ≠ .unknown := fun hunknown => hne (hunknown.trans ht.symm)
  exact hne (h.kept_stored p t hknown).symm

theorem kept_functionValue {f : SymbolId} {t : Tuple} {k : Element}
    (hk : S.functionValue f t = .ok (some k)) :
    T.functionValue f t = .ok (some k) := by
  obtain ⟨s, result, hs, hresult, hdomain, hk⟩ := functionValue_eq_ok_iff.mp hk
  rw [← h.vocabulary] at hs
  rw [← domain_congr h.vocabulary h.tables] at hdomain
  rw [← elements_congr h.vocabulary h.tables] at hdomain hk
  refine functionValue_eq_ok_iff.mpr ⟨s, result, hs, hresult, hdomain, ?_⟩
  by_cases ht : List.Forall₂ T.Has s.args t
  · rcases determined?_cases hk with hyes | ⟨-, hothers⟩
    · have hyes' := (h.kept_stored _ _ (by simp [hyes])).trans hyes
      exact determined?_of_yes (determined?_mem hk) hyes' fun v _ hv =>
        h.unique hs hresult ht hv hyes'
    · have hothers' : ∀ v ∈ T.elements result, v ≠ k → T.stored f (t ++ [v]) = .no :=
        fun v hv hne =>
        (h.kept_stored _ _ (by simp [hothers v hv hne])).trans (hothers v hv hne)
      obtain ⟨v, hv, hopen⟩ := h.possible hs hresult ht
      have hmem := (has_iff_mem hdomain).mp hv
      obtain rfl : v = k := by_contra fun hne => hopen (hothers' v hmem hne)
      exact determined?_of_excluded (T.nodup_elements result) hmem hopen hothers'
  · have hsame : ∀ v, S.stored f (t ++ [v]) = T.stored f (t ++ [v]) := fun v =>
      h.stored_eq_of_unknown (by_contra fun hknown =>
        ht (has_of_stored h.inTables hs hresult hknown).1)
    rwa [funext hsame] at hk

theorem value_of_kept {f : SymbolId} {t : Tuple} {k : Element}
    (hk : S.functionValue f t = .ok (some k))
    (v : Element) : T.value f (t ++ [v]) = .ofBool (k == v) := by
  have hkept := h.kept_functionValue hk
  obtain ⟨s, result, hs, hresult, hdomain, hdetermined⟩ := functionValue_eq_ok_iff.mp hkept
  have hfunction : T.isFunction f = true := by
    rw [isFunction_of_symbol hs, Symbol.isFunction, hresult]; rfl
  cases hstored : T.stored f (t ++ [v]) with
  | unknown => rw [value_eq_graphValue hfunction hstored, graphValue_append hkept]
  | yes =>
      have hknown : T.stored f (t ++ [v]) ≠ .unknown := by simp [hstored]
      obtain ⟨ht, hv⟩ := has_of_stored h.inTables hs hresult hknown
      have heq : k = v := by
        rcases determined?_cases hdetermined with hyes | ⟨-, hothers⟩
        · exact h.unique hs hresult ht hyes hstored
        · by_contra hne
          cases hstored.symm.trans (hothers v ((has_iff_mem hdomain).mp hv) (Ne.symm hne))
      rw [value_of_stored (b := true) hstored, heq, beq_self_eq_true]
  | no =>
      have hne : k ≠ v := by
        rintro rfl
        rcases determined?_cases hdetermined with hyes | ⟨hunknown, -⟩
        · cases hstored.symm.trans hyes
        · cases hstored.symm.trans hunknown
      rw [value_of_stored (b := false) hstored, beq_eq_false_iff_ne.mpr hne]

theorem kept_value (p : SymbolId) (t : Tuple) : Kept .unknown (S.value p t) (T.value p t) := by
  intro hknown
  have hkept := h.kept_stored p t
  cases hstored : S.stored p t with
  | yes =>
      rw [value_of_stored (b := true) hstored]
      exact value_of_stored (b := true) ((hkept (by simp [hstored])).trans hstored)
  | no =>
      rw [value_of_stored (b := false) hstored]
      exact value_of_stored (b := false) ((hkept (by simp [hstored])).trans hstored)
  | unknown =>
      obtain ⟨hfunction, u, v, k, rfl, hk⟩ := exists_functionValue_of_value hstored hknown
      rw [value_eq_graphValue hfunction hstored, graphValue_append hk]
      exact h.value_of_kept hk v

theorem informs : S.valuation.Informs T.valuation where
  atomAt _ := h.kept_value
  function := by
    intro f t o o' ho ho' hsome
    obtain ⟨k, rfl⟩ := Option.ne_none_iff_exists'.mp hsome
    exact Except.ok.inj (ho'.symm.trans (h.kept_functionValue ho))

end Coherent

end Structure

/-- Over a structure that knows more, a ground formula that was true or false stays so, and a ground
term keeps its value or stays without one. -/
theorem eval_kept {S T : Structure} (h : S.Coherent T) (positive : Bool) :
    (∀ (f : Formula) (x x' : Truth), evalFormula S.valuation positive f = .ok x →
      evalFormula T.valuation positive f = .ok x' → x ≠ .unknown → x' = x) ∧
    (∀ (t : Term) (x x' : TermValue), evalTerm S.valuation positive t = .ok x →
      evalTerm T.valuation positive t = .ok x' → x ≠ .unknown → x' = x) :=
  ⟨fun f _ _ => evalFormula_kept h.informs f, fun t _ _ => evalTerm_kept h.informs t⟩

/-- Two lamps in a row, of which the second one is on. The lamp next to the first one is not the
first one. -/
def evening : Structure where
  vocabulary := ⟨[⟨"lamp", []⟩], [⟨"on", [0], none⟩, ⟨"next", [0], some 0⟩]⟩
  tables := [.range 1 2]
  facts := .ofList ([(⟨0, [.int 2]⟩, true), (⟨1, [.int 1, .int 1]⟩, false)] : List (Atom × Bool))

/-- Some more is known: the first lamp is off and it is next to the second one. -/
def night : Structure :=
  { evening with
    facts :=
      .ofList ([(⟨0, [.int 1]⟩, false), (⟨0, [.int 2]⟩, true), (⟨1, [.int 1, .int 1]⟩, false),
      (⟨1, [.int 2, .int 1]⟩, true)] : List (Atom × Bool)) }

/-- Of each lamp the next one is open, or it is the first one. -/
theorem night_next {f : SymbolId} {s : Symbol} {result : SortId} {t : Tuple}
    (hs : night.vocabulary.symbols[f]? = some s) (hresult : s.result = some result)
    (ht : List.Forall₂ night.Has s.args t) :
    f = 1 ∧ result = 0 ∧ (t = [.int 1] ∨ t = [.int 2]) := by
  match f, hs with
  | 0, hs =>
      cases hs
      cases hresult
  | 1, hs =>
      cases hs
      cases hresult
      have hdomains : List.Forall₂ (fun sort d => night.domain sort = .ok d) [0]
          [[.int 1, .int 2]] :=
        .cons (by decide +kernel) .nil
      have hmem := mem_product.mpr ((Structure.forall₂_has_iff hdomains).mp ht)
      have hproduct : product [[Element.int 1, .int 2]] = [[.int 1], [.int 2]] := rfl
      rw [hproduct] at hmem
      simpa using hmem
  | n + 2, hs => cases hs

theorem night_true {t : Tuple} (h : night.stored 1 t = .yes) : t = [.int 2, .int 1] := by
  have hfact : night.facts[(⟨1, t⟩ : Atom)]? = some true := by
    rw [← Truth.toOption_ofOption night.facts[(⟨1, t⟩ : Atom)]?]
    exact congrArg Truth.toOption h
  simpa using (getElem?_ofList_eq_some_iff (by decide)).mp hfact

theorem coherent_night : evening.Coherent night where
  vocabulary := rfl
  tables := rfl
  keeps := by
    intro a v hv
    have hmem := (getElem?_ofList_eq_some_iff (by decide)).mp hv
    simp only [List.mem_cons, List.not_mem_nil, or_false, Prod.mk.injEq] at hmem
    rcases hmem with ⟨rfl, rfl⟩ | ⟨rfl, rfl⟩ <;> decide +kernel
  inTables := by
    intro a v hv
    have hmem := (getElem?_ofList_eq_some_iff (by decide)).mp hv
    simp only [List.mem_cons, List.not_mem_nil, or_false, Prod.mk.injEq] at hmem
    rcases hmem with ⟨rfl, -⟩ | ⟨rfl, -⟩ | ⟨rfl, -⟩ | ⟨rfl, -⟩ <;> decide +kernel
  unique := by
    intro f s result t v w hs hresult ht hv hw
    obtain ⟨rfl, -, -⟩ := night_next hs hresult ht
    have hsame := (night_true hv).trans (night_true hw).symm
    simpa using hsame
  possible := by
    intro f s result t hs hresult ht
    obtain ⟨rfl, rfl, rfl | rfl⟩ := night_next hs hresult ht
    · exact ⟨.int 2, ⟨_, rfl, by decide +kernel⟩, by decide +kernel⟩
    · exact ⟨.int 1, ⟨_, rfl, by decide +kernel⟩, by decide +kernel⟩

/-- In the evening it is known already that the lamp next to the first one is on. -/
theorem eval_kept_lamps : evening.Coherent night ∧
    evalTerm evening.valuation true (.apply 1 [.element (.int 1)]) = .ok (.known (.int 2)) ∧
    evalTerm night.valuation true (.apply 1 [.element (.int 1)]) = .ok (.known (.int 2)) ∧
    evalFormula evening.valuation true (.pred 0 [.apply 1 [.element (.int 1)]]) = .ok .yes ∧
    evalFormula night.valuation true (.pred 0 [.apply 1 [.element (.int 1)]]) = .ok .yes := by
  have hterm : evalTerm evening.valuation true (.apply 1 [.element (.int 1)]) =
      .ok (.known (.int 2)) := by
    decide +kernel
  have hformula : evalFormula evening.valuation true (.pred 0 [.apply 1 [.element (.int 1)]]) =
      .ok .yes := by
    decide +kernel
  obtain ⟨x, hx⟩ : ∃ x, evalFormula night.valuation true
      (.pred 0 [.apply 1 [.element (.int 1)]]) = .ok x :=
    ⟨_, rfl⟩
  obtain ⟨y, hy⟩ : ∃ y, evalTerm night.valuation true (.apply 1 [.element (.int 1)]) = .ok y :=
    ⟨_, rfl⟩
  obtain ⟨hformulas, hterms⟩ := eval_kept coherent_night true
  obtain rfl := hformulas _ _ _ hformula hx (by simp)
  obtain rfl := hterms _ _ _ hterm hy (by simp)
  exact ⟨coherent_night, hterm, hy, hformula, hx⟩

end ModelExpansion
