import Mathlib.Data.Set.Basic
import ModelExpansion.Proofs.Encoding.Definitional
import ModelExpansion.Proofs.Expansion

/-! # Excluded models
The clause that excludes a model leaves out the atoms that are certain, also those of which nothing
is recorded and that only follow from what is. In no assignment that is left can these have another
value, so that a model takes its own assignment of the atoms away and no other. -/

namespace ModelExpansion

open ModelExpansion.Sat ModelExpansion.Encoder

variable {o : Options} {S : Structure} {T : Theory} {P : Prepared}

/-! ## Certain atoms -/

theorem factFormulas_of_prepare (h : prepare o T S = .ok (some P)) :
    ∃ facts, factFormulas P.base = .ok facts ∧ ∀ f ∈ facts, f ∈ P.theory.sentences := by
  obtain ⟨c, breaking, G, -, hG, htheory⟩ := prepare_eq_some h
  obtain ⟨-, -, ground, facts, -, hfacts, hsentences⟩ := groundTheory_eq_ok hG
  refine ⟨facts, hfacts, fun f hf => ?_⟩
  rw [htheory]
  exact List.mem_append_left _ (hsentences ▸ List.mem_append_right _ hf)

namespace Encoder

variable {e e' e₀ : Encoder} {α : Nat → Bool} {given : List (List Lit)} {m : Model}

/-- Adding a theory leaves only worlds in which its sentences are true. -/
theorem truth_of_addTheory (h : Sound e) (hrun : addTheory T e = (.ok (), e'))
    (hα : e'.solver.Admits α) :
    e.solver.Admits α ∧ ∀ f ∈ T.sentences, (e.world α).truth [] f = true := by
  obtain ⟨_, e₁, hsentences, hrun⟩ := Encoding.bind_eq_ok hrun
  have hc := asserts_assertFormulas T.sentences h e₁ hsentences
  obtain ⟨cs, hbuilds⟩ :
      Encoding.Proceeds (do addDefinitions T.definitions; addFixpoints T.fixpoints) e₁ :=
    .bind hc.sound (proceeds_addDefinitions T.definitions hc.sound) fun _ _ _ h₂ =>
      proceeds_addFixpoints T.fixpoints h₂
  rw [hrun] at hbuilds
  exact hc.restrict (hbuilds.admits hc.sound hα).1

/-- The worlds in which the facts are true keep the structure, wherever the facts are: the first
encoder has no variables for atoms outside the tables, so that these are false. -/
theorem Starts.keeps (h : Starts S e) {facts : List Formula} (hfacts : factFormulas S = .ok facts)
    (hα : e.solver.Admits α) (hall : ∀ f ∈ facts, (e.world α).truth [] f = true) :
    S.Keeps (e.world α) := by
  obtain ⟨atoms, hatoms⟩ := h.listed
  have hsingle := h.sound.single hα
  rw [world, h.base] at hsingle hall ⊢
  have hkeeps := keeps_iff hatoms hsingle (fun _ _ _ ha => h.base ▸ h.numbers.inTables ha) hfacts
  exact fun {a v} => hkeeps.mp hall

/-- In the worlds that keep the structure a certain atom has its value. -/
theorem Starts.value_eq (h : Starts S e) (hα : e.solver.Admits α)
    (hkeeps : S.Keeps (e.world α)) {v : Nat}
    (hv : e.isInput v = true) :
    ∃ a, e.atoms[v]? = some a ∧ S.value a.symbol a.tuple = .ofBool (α v) := by
  obtain ⟨atoms, hatoms⟩ := h.listed
  obtain ⟨a, b, ha, hb⟩ := h.numbers.exists_value hv
  have htables : S.InTables a :=
    h.base ▸ h.numbers.mem_iff.mp (Array.mem_toList_iff.mpr (Array.mem_of_getElem? ha))
  have hfunctional := h.functional hα
  rw [world, h.base] at hkeeps hfunctional
  rw [h.base] at hb
  have hatom : e.interpretation α a = α v := h.numbers.interpretation_eq ha
  refine ⟨a, ha, ?_⟩
  rw [← hatom, atom_eq_of_value hatoms hkeeps hfunctional htables hb]
  exact hb

theorem Starts.value_of_addTheory (h : Starts P.base e) (hprepare : prepare o T S = .ok (some P))
    (hrun : addTheory P.theory e = (.ok (), e')) (hα : e'.solver.Admits α) {v : Nat}
    (hv : e.isInput v = true) :
    ∃ a, e.atoms[v]? = some a ∧ P.base.value a.symbol a.tuple = .ofBool (α v) := by
  obtain ⟨facts, hfacts, hmem⟩ := factFormulas_of_prepare hprepare
  obtain ⟨hα, htrue⟩ := truth_of_addTheory h.sound hrun hα
  exact h.value_eq hα (h.keeps hfacts hα fun f hf => htrue f (hmem f hf)) hv

/-! ## One model -/

def assignment (e : Encoder) (m : Model) (i : Fin e.atoms.size) : Bool := m.value i

/-- The truth of the atoms in the assignments that satisfy some clauses. -/
def extendable (e : Encoder) (given : List (List Lit)) : Set (Fin e.atoms.size → Bool) :=
  {A | ∃ α : Nat → Bool, (∀ c ∈ given, Satisfies α c) ∧ ∀ i : Fin e.atoms.size, α i = A i}

theorem extendable_blockingClause
    (hcertain : ∀ α, (∀ c ∈ given, Satisfies α c) → ∀ v, e.isInput v = true → α v = m.value v) :
    e.extendable (given ++ [e.blockingClause m]) = e.extendable given \ {e.assignment m} := by
  ext A
  constructor
  · rintro ⟨α, hα, hA⟩
    obtain ⟨hα, hclause⟩ := List.forall_mem_append.mp hα
    obtain ⟨v, hv, -, hne⟩ := satisfies_blockingClause.mp (List.forall_mem_singleton.mp hclause)
    refine ⟨⟨α, hα, hA⟩, fun heq => hne ?_⟩
    exact (hA ⟨v, hv⟩).trans (congrFun heq ⟨v, hv⟩)
  · rintro ⟨⟨α, hα, hA⟩, hne⟩
    obtain ⟨i, hi⟩ := Function.ne_iff.mp hne
    rw [← hA i] at hi
    -- The two differ at an atom that the clause mentions: at the others there is no choice.
    have hinput : e.isInput i = false :=
      Bool.eq_false_of_not_eq_true fun hv => hi (hcertain α hα i hv)
    have hclause : Satisfies α (e.blockingClause m) :=
      satisfies_blockingClause.mpr ⟨i, i.2, hinput, hi⟩
    exact ⟨α, List.forall_mem_append.mpr ⟨hα, List.forall_mem_singleton.mpr hclause⟩, hA⟩

/-- What excluding a model takes away from the clauses that the solver of an encoder was handed. -/
structure Exclusive (S : Structure) (e : Encoder) (given : List (List Lit)) : Prop where
  /-- There is no choice at the certain atoms. -/
  certain : ∀ α : Nat → Bool, (∀ c ∈ given, Satisfies α c) → ∀ v, e.isInput v = true →
    ∃ a, e.atoms[v]? = some a ∧ S.value a.symbol a.tuple = .ofBool (α v)
  handed : ∀ m, Handed (e.block m).1 (given ++ [e.blockingClause m])
  excludes : ∀ m : Model, (∀ c ∈ given, Satisfies m.value c) →
    e.extendable (given ++ [e.blockingClause m]) = e.extendable given \ {e.assignment m}
  refused : ∀ m : Model, (e.block m).2 = false → e.extendable (given ++ [e.blockingClause m]) = ∅

theorem exclusive_of_certain (h : e.solver.Valid) (hgiven : Handed e given)
    (hcertain : ∀ α : Nat → Bool, (∀ c ∈ given, Satisfies α c) → ∀ v, e.isInput v = true →
      ∃ a, e.atoms[v]? = some a ∧ S.value a.symbol a.tuple = .ofBool (α v)) :
      Exclusive S e given where
  certain := hcertain
  handed m := hgiven.clause _
  excludes m hm := by
    refine extendable_blockingClause fun α hα v hv => ?_
    obtain ⟨a, ha, hvalue⟩ := hcertain α hα v hv
    obtain ⟨a', ha', hvalue'⟩ := hcertain m.value hm v hv
    cases ha.symm.trans ha'
    exact Truth.ofBool_injective (hvalue.symm.trans hvalue')
  refused m hm := by
    refine Set.eq_empty_of_forall_notMem ?_
    rintro A ⟨α, hα, -⟩
    exact h.not_admits_of_refused hm α ((hgiven.clause (e.blockingClause m)).admits_iff.mpr hα)

/-! ## The whole enumeration -/

/-- The models that an enumeration excludes, each with the encoder that it is excluded from. The
arguments are those of the enumeration. -/
def blockings (halt : Stats → Bool) (wanted : Nat) :
    Nat → (found : Nat) → Encoder → List (Encoder × Model)
  | 0, _, _ => []
  | count + 1, found, e =>
    if wanted ≠ 0 ∧ wanted ≤ found then []
    else
      match (e.solve halt).2, (e.solve halt).1.solver.model with
      | .sat, some m =>
        match (e.solve halt).1.candidate m with
        | .error _ => []
        | .ok (_, accepted) =>
          ((e.solve halt).1, m) ::
            if ((e.solve halt).1.block m).2 then
              blockings halt wanted count (if accepted then found + 1 else found)
                ((e.solve halt).1.block m).1
            else []
      | _, _ => []

variable {halt : Stats → Bool} {wanted count found : Nat}

/-- The enumeration in a monad, with the way in which a model is excluded left open. -/
def enumerateWith {n : Type → Type} [Monad n] (exclude : Encoder → Model → n (Encoder × Bool))
    (halt : Stats → Bool) (wanted : Nat) :
    Nat → (found : Nat) → Encoder → n (Encoder × Except Failure Found)
  | 0, _, e => return (e, .ok { Found.nothing with stopped := true })
  | count + 1, found, e =>
    if wanted ≠ 0 ∧ wanted ≤ found then return (e, .ok .nothing)
    else
      match e.solve halt with
      | (e, .unsat) => return (e, .ok .nothing)
      | (e, .unknown) => return (e, .ok { Found.nothing with stopped := true })
      | (e, .sat) =>
        match e.solver.model with
        | none => return (e, .error (.solver "satisfiable without a model"))
        | some m =>
          match e.candidate m with
          | .error failure => return (e, .error failure)
          | .ok (M, accepted) => do
            match ← exclude e m with
            | (e, false) => return (e, .ok (Found.nothing.add M accepted))
            | (e, true) =>
              let found := if accepted then found + 1 else found
              match ← enumerateWith exclude halt wanted count found e with
              | (e, .ok rest) => return (e, .ok (rest.add M accepted))
              | (e, .error failure) => return (e, .error failure)

/-- Whatever is done to report an exclusion, an enumeration that reports each of them reports the
models of this list, in this order and from these encoders, and no others. -/
theorem enumerateWith_block {n : Type → Type} [Monad n] [LawfulMonad n]
    (report : Encoder × Model → n PUnit) (e : Encoder) :
    enumerateWith (fun e m => do report (e, m); return e.block m) halt wanted count found e = do
      forM (e.blockings halt wanted count found) report
      return e.enumerateModels halt wanted count found := by
  have hnone : ∀ x : Encoder × Except Failure Found,
      (pure x : n _) = do forM [] report; return x := fun x => by
    rw [List.forM_nil, pure_bind]
  induction count generalizing e found with
  | zero => exact hnone _
  | succ count ih =>
      rw [enumerateWith, enumerateModels, blockings]
      by_cases hw : wanted ≠ 0 ∧ wanted ≤ found
      · rw [if_pos hw, if_pos hw, if_pos hw]
        exact hnone _
      rw [if_neg hw, if_neg hw, if_neg hw]
      rcases e.solve halt with ⟨e, _ | _ | _⟩
      · dsimp only
        rcases e.solver.model with _ | m
        · exact hnone _
        dsimp only
        rcases e.candidate m with failure | ⟨M, accepted⟩
        · exact hnone _
        dsimp only
        rw [List.forM_cons, bind_assoc, bind_assoc]
        refine bind_congr fun _ => ?_
        rw [pure_bind]
        rcases e.block m with ⟨e, _ | _⟩
        · exact hnone _
        dsimp only
        rw [ih, bind_assoc, if_pos rfl]
        refine bind_congr fun _ => ?_
        rw [pure_bind]
        rcases enumerateModels halt wanted count _ e with ⟨e, failure | rest⟩ <;> rfl
      · exact hnone _
      · exact hnone _

theorem admits_of_mem_blockings (h : Sound e) (hatoms : e.atoms.size ≤ e.solver.numVars)
    {x : Encoder × Model} (hx : x ∈ e.blockings halt wanted count found) :
    Relation.ReflTransGen Encoder.Call e x.1 ∧ x.1.solver.Admits x.2.value := by
  induction count generalizing e found with
  | zero => exact absurd hx List.not_mem_nil
  | succ count ih =>
      rw [blockings] at hx
      split at hx
      · exact absurd hx List.not_mem_nil
      split at hx
      · rename_i m hverdict hm
        split at hx
        · exact absurd hx List.not_mem_nil
        rename_i M accepted hc
        rcases List.mem_cons.mp hx with rfl | hx
        · obtain ⟨m', hm', hα⟩ := h.valid.model_of_sat hverdict
          cases hm.symm.trans hm'
          exact ⟨.single (.search halt), (h.valid.admits_solve halt).mpr hα⟩
        · split at hx
          · have hcalls : Relation.ReflTransGen Encoder.Call e ((e.solve halt).1.block m).1 :=
              .tail (.single (.search halt)) (.block m)
            obtain ⟨cs, hbuilds⟩ := builds_of_calls h hatoms hcalls
            obtain ⟨hlater, hα⟩ := ih (hbuilds.sound h) (hbuilds.atoms_le h hatoms) hx
            exact ⟨hcalls.trans hlater, hα⟩
          · exact absurd hx List.not_mem_nil
      · exact absurd hx List.not_mem_nil

end Encoder

/-- After the theory has been added, the certain atoms have their values in every assignment that
satisfies the clauses handed to the solver, whatever is asked, asserted or excluded later. So
excluding a model of these clauses takes its assignment of the atoms away and no other, and it is
refused only if none is left. The enumeration excludes models of the clauses. -/
theorem exclusive_enumeration {halt : Stats → Bool} {monitor : Monitor} {e₀ e₁ : Encoder}
    (hprepare : prepare o T S = .ok (some P))
    (hstart : Encoder.start P.base { config := o.solverConfig, monitor := monitor } = .ok e₀)
    (hadd : addTheory P.theory e₀ = (.ok (), e₁)) :
    (∀ e, Relation.ReflTransGen Encoder.Call e₁ e →
      (∃ given, Handed e given) ∧ ∀ given, Handed e given → Exclusive P.base e given) ∧
    ∀ x ∈ e₁.blockings halt o.models e₁.searchBound 0, Relation.ReflTransGen Encoder.Call e₁ x.1 ∧
      ∀ given, Handed x.1 given → ∀ c ∈ given, Satisfies x.2.value c := by
  have hstarts := starts_of_start hstart
  have hsound := hstarts.sound
  obtain ⟨cs₀, hbuilds₀⟩ := proceeds_addTheory P.theory hsound
  rw [hadd] at hbuilds₀
  have hsound₁ := hbuilds₀.sound hsound
  have hatoms₁ := hbuilds₀.atoms_le hsound (atoms_le_of_start hstart)
  refine ⟨fun e hcalls => ?_, fun x hx => ?_⟩
  · obtain ⟨cs, hbuilds⟩ := builds_of_calls hsound₁ hatoms₁ hcalls
    have hall := hbuilds₀.trans hbuilds
    refine ⟨exists_handed_of_builds hstart hall, fun given hgiven => ?_⟩
    refine exclusive_of_certain (hbuilds.sound hsound₁).valid hgiven fun α hα v hv => ?_
    obtain ⟨hα₁, -⟩ := hbuilds.admits hsound₁ (hgiven.admits_iff.mpr hα)
    rw [isInput, hall.shares.inputs] at hv
    rw [hall.atoms]
    exact hstarts.value_of_addTheory hprepare hadd hα₁ hv
  · obtain ⟨hcalls, hα⟩ := admits_of_mem_blockings hsound₁ hatoms₁ hx
    exact ⟨hcalls, fun given hgiven => hgiven.admits_iff.mp hα⟩

/-- A coin shows heads, and bets may lie on both sides. -/
def wager : Structure where
  vocabulary := ⟨[⟨"side", []⟩], [⟨"shown", [], some 0⟩, ⟨"bet", [0], none⟩]⟩
  tables := [.ofList [.name "heads", .name "tails"]]
  facts := .ofList ([(⟨0, [.name "heads"]⟩, true)] : List (Atom × Bool))

/-- That the coin does not show tails is certain although it is not recorded. The clauses that
exclude the bets do not mention it, and still none of the four is passed over. -/
theorem exclusive_enumeration_wager : ∃ P e₀ e₁ excluded,
    prepare { models := 0 } ⟨[], [], []⟩ wager = .ok (some P) ∧
    Encoder.start P.base { config := Options.solverConfig { models := 0 } } = .ok e₀ ∧
    addTheory P.theory e₀ = (.ok (), e₁) ∧ P.base.stored 0 [.name "tails"] = .unknown ∧
    e₁.isInput 1 = true ∧
    e₁.blockings (fun _ => false) 0 e₁.searchBound 0 = excluded ∧ excluded.length = 4 ∧
    ∀ x ∈ excluded, ∃ given, Handed x.1 given ∧ Exclusive P.base x.1 given ∧
    ∀ c ∈ given, Satisfies x.2.value c := by
  have hruns : (prepare { models := 0 } ⟨[], [], []⟩ wager).toOption.join.any (fun P =>
      yields (Encoder.start P.base { config := Options.solverConfig { models := 0 } })
        (addTheory P.theory) fun _ e₁ =>
        P.base.stored 0 [.name "tails"] == .unknown && e₁.isInput 1 &&
          (e₁.blockings (fun _ => false) 0 e₁.searchBound 0).length == 4) = true := by
          decide +kernel
  obtain ⟨P, hP, hruns⟩ := (Option.any_eq_true ..).mp hruns
  obtain ⟨e₀, e₁, ⟨⟩, hstart, hadd, htest⟩ := exists_of_yields hruns
  rw [Bool.and_eq_true, Bool.and_eq_true, beq_iff_eq, beq_iff_eq] at htest
  obtain ⟨⟨hstored, hinput⟩, hlength⟩ := htest
  have hprepare := Except.toOption_eq_some_iff.mp (Option.join_eq_some_iff.mp hP)
  obtain ⟨hexclusive, hexcluded⟩ :=
    @exclusive_enumeration _ _ _ P (fun _ => false) {} e₀ e₁ hprepare hstart hadd
  refine ⟨P, e₀, e₁, _, hprepare, hstart, hadd, hstored, hinput, rfl, hlength, fun x hx => ?_⟩
  obtain ⟨hcalls, hmodel⟩ := hexcluded x hx
  obtain ⟨⟨given, hgiven⟩, hall⟩ := hexclusive x.1 hcalls
  exact ⟨given, hgiven, hall given hgiven, hmodel given hgiven⟩

end ModelExpansion
