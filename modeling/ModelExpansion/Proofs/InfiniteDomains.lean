import ModelExpansion.Proofs.Encoding.Primitives
import ModelExpansion.Proofs.Expansion
import ModelExpansion.Proofs.FiniteTables

/-! # Infinite domains are met before the search
An expansion lists the atoms of the tables before anything is asserted. Once that has succeeded, all
tables are finite, and neither encoding nor decoding nor the check of a model can fail on an
infinite domain any more. -/

namespace ModelExpansion

open ModelExpansion.Sat ModelExpansion.Encoder

variable {S S' : Structure}

/-! ## Encoding -/

namespace Encoder

variable (e : Encoder)

theorem base_andGate (lits : List Lit) : (e.andGate lits).1.base = e.base := by
  cases h : e.gates[lits]? with
  | some g => rw [andGate_of_built h]
  | none =>
      rw [andGate_of_new h]
      exact e.base_newGate _

theorem base_and (lits : List Lit) : (e.and lits).1.base = e.base := by
  rw [and]
  split
  · rfl
  · split
    · rfl
    · rfl
    · split
      · rfl
      · exact e.base_andGate _

theorem base_iff (a b : Lit) : (e.iff a b).1.base = e.base := by
  rw [iff]
  split_ifs
  · rfl
  · rfl
  · rfl
  · rfl
  · rfl
  · rfl
  · exact e.base_newGate _

end Encoder

namespace Encoding

/-- A computation that leaves the structure of the encoder as it is and, where its tables are
finite, does not fail on an infinite domain. -/
def Tame {α : Type} (x : Encoding α) : Prop :=
  ∀ e : Encoder, e.base.FiniteTables → (x e).2.base = e.base ∧ Finitary (x e).1

variable {α β : Type} {x : Encoding α} {f : α → Encoding β}

theorem Tame.bind (hx : Tame x) (hf : ∀ a, Tame (f a)) : Tame (x >>= f) := by
  intro e h
  obtain ⟨hbase, hfinitary⟩ := hx e h
  rw [bind_eq]
  cases hrun : x e with
  | mk r e' =>
      rw [hrun] at hbase hfinitary
      cases r with
      | error failure => exact ⟨hbase, hfinitary.error⟩
      | ok a =>
          obtain ⟨hbase', hfinitary'⟩ := hf a e' (hbase ▸ h)
          exact ⟨hbase'.trans hbase, hfinitary'⟩

theorem Tame.read (g : Encoder → α) : Tame (Encoding.read g) := fun e _ => ⟨rfl, .ok (g e)⟩

theorem Tame.step {g : Encoder → Encoder × α} (hg : ∀ e, (g e).1.base = e.base) :
    Tame (Encoding.step g) :=
  fun e _ => ⟨hg e, .ok (g e).2⟩

/-- No primitive computation touches the structure, and those that enumerate domains do so for the
values or the tuples of a symbol. -/
theorem Composed.tame (hx : Composed x) : Tame x := by
  induction hx with
  | bind _ _ hx hf => exact hx.bind hf
  | lift hy => exact fun _ _ => ⟨rfl, hy⟩
  | and lits => exact .step fun e => e.base_and lits
  | or lits => exact .step fun e => e.base_and (lits.map Lit.negate)
  | iff a b => exact .step fun e => e.base_iff a b
  | clause lits => exact .step fun _ => rfl
  | truth => exact .read _
  | falsity => exact .read _
  | atomLit? p t => exact .read _
  | resultValues f => exact fun e h => ⟨rfl, h.finitary_resultDomain f⟩
  | tuples p => exact fun e h => ⟨rfl, h.finitary_tuples p⟩
  | keepDefinition D => exact .step fun _ => rfl
  | keepFixpoint F => exact .step fun _ => rfl

end Encoding

/-! ## Decoding -/

section Decode

theorem finitary_checkPositions (p : SymbolId) (n : Nat) (sorts : List SortId) (t : Tuple) :
    Finitary (S.checkPositions p n sorts t) := by
  induction sorts generalizing n t with
  | nil =>
      exact .pure ()
  | cons sort sorts ih =>
      cases t with
      | nil => exact .pure ()
      | cons v t =>
          rw [Structure.checkPositions]
          have htable : Finitary (S.table sort) := by
            rw [Structure.table]
            cases S.tables[sort]? with
            | none => exact .throw (by simp)
            | some table => exact .ok table
          refine htable.bind fun table _ => ?_
          split
          · exact ih (n + 1) t
          · exact .throw (by simp)

theorem finitary_checkTuple (p : SymbolId) (t : Tuple) : Finitary (S.checkTuple p t) := by
  refine (finitary_symbol S.vocabulary p).bind fun s _ => ?_
  dsimp only
  split
  · exact finitary_checkPositions p 0 _ t
  · exact .throw (by simp)

theorem finitary_setValue (p : SymbolId) (t : Tuple) (v : Bool) : Finitary (S.setValue p t v) := by
  refine (finitary_checkTuple p t).bind fun _ _ => ?_
  cases S.facts[(⟨p, t⟩ : Atom)]? with
  | none => exact .pure _
  | some known =>
      dsimp only
      split
      · exact .pure _
      · exact .throw (by simp)

theorem finitary_setGraph (f : SymbolId) (args : Tuple) (value : Element) (values : List Element) :
    Finitary (S.setGraph f args value values).2 := by
  induction values generalizing S with
  | nil => exact .ok ()
  | cons candidate values ih =>
      rw [Structure.setGraph]
      have hset := finitary_setValue (S := S) f (args ++ [candidate]) (candidate == value)
      cases hrun : S.setValue f (args ++ [candidate]) (candidate == value) with
      | error failure =>
          rw [hrun] at hset
          exact hset.error
      | ok recorded => exact ih

theorem Structure.FiniteTables.finitary_setFunction (h : S.FiniteTables) (f : SymbolId)
    (args : Tuple) (value : Element) : Finitary (S.setFunction f args value).2 := by
  have hvalues := h.finitary_resultDomain f
  rw [Structure.setFunction]
  cases hrun : S.resultDomain f with
  | error failure =>
      rw [hrun] at hvalues
      exact hvalues.error
  | ok values => exact finitary_setGraph f args value values

theorem Structure.FiniteTables.of_refines (h : S.FiniteTables)
    (hr : S.Refines S') : S'.FiniteTables :=
  h.congr hr.vocabulary hr.tables

theorem finitary_decodePredicates (m : Model) (numbered : List (Atom × Nat)) :
    Finitary (decodePredicates m S numbered) := by
  induction numbered generalizing S with
  | nil => exact .pure _
  | cons av numbered ih =>
      rw [decodePredicates]
      refine (finitary_symbol S.vocabulary av.1.symbol).bind fun s _ => ?_
      split
      · exact ih.map _
      · exact (finitary_setValue _ _ _).bind fun recorded _ => ih

theorem finitary_decodeFunctions (h : S.FiniteTables) (functions : List Atom) :
    Finitary (decodeFunctions S functions) := by
  induction functions generalizing S with
  | nil => exact .pure S
  | cons a functions ih =>
      rw [decodeFunctions]
      cases a.tuple.getLast? with
      | none => exact ih h
      | some value =>
          have hset := h.finitary_setFunction a.symbol a.tuple.dropLast value
          dsimp only
          cases hrun : S.setFunction a.symbol a.tuple.dropLast value with
          | mk S₁ outcome =>
              rw [hrun] at hset
              cases outcome with
              | error failure => exact hset.error
              | ok _ => exact ih (h.of_refines (Structure.refines_setFunction hrun).1)

end Decode

/-! ## Enumeration -/

namespace Encoder

variable {e : Encoder} {m : Model} {M : Structure}

theorem refines_decode (h : e.decode m = .ok M) : e.base.Refines M := by
  obtain ⟨⟨S, functions⟩, hpredicates, hfunctions⟩ := Except.bind_eq_ok.mp h
  exact (refines_decodePredicates hpredicates).1.trans (refines_decodeFunctions hfunctions).1

variable (h : e.base.FiniteTables)
include h

theorem finitary_decode (m : Model) : Finitary (e.decode m) :=
  (finitary_decodePredicates m _).bind fun _ hpredicates =>
    finitary_decodeFunctions (h.of_refines (refines_decodePredicates hpredicates).1) _

theorem finitary_accepts (hM : e.decode m = .ok M) : Finitary (e.accepts M) := by
  have hfinite := h.of_refines (refines_decode hM)
  refine (Finitary.allM fun D _ => hfinite.finitary_satisfiesDefinition D).bind fun accepted _ => ?_
  split
  · exact .allM fun F _ => hfinite.finitary_satisfiesFixpoint F
  · exact .pure false

theorem finitary_candidate (m : Model) : Finitary (e.candidate m) := by
  refine (finitary_decode h m).bind fun M hM => ?_
  split
  · exact (finitary_accepts h hM).map _
  · exact .pure _

/-- An enumeration fails where a candidate does, or because the solver gives no model. -/
theorem finitary_enumerateModels (halt : Stats → Bool) (wanted count found : Nat) :
    Finitary (e.enumerateModels halt wanted count found).2 := by
  fun_induction enumerateModels halt wanted count found e with
  | case1 | case2 | case3 | case4 | case7 | case8 => exact .ok _
  | case5 => exact .throw (by simp)
  | case6 _ _ e _ e₁ hsolve m _ failure hcandidate =>
      have hbase : e.base = e₁.base := congrArg (fun r => r.1.base) hsolve
      have hfinitary := finitary_candidate (hbase ▸ h) m
      rw [hcandidate] at hfinitary
      exact hfinitary.error
  | case9 _ _ e _ e₁ hsolve m _ _ _ _ e₂ hblock found e₃ failure hrest ih =>
      have hbase : e.base = e₁.base := congrArg (fun r => r.1.base) hsolve
      have hbase' : e₁.base = e₂.base := congrArg (fun r => r.1.base) hblock
      have hfinitary := ih (hbase' ▸ hbase ▸ h)
      rw [hrest] at hfinitary
      exact hfinitary.error

end Encoder

/-! ## The whole expansion -/

section Expand

variable {halt : Stats → Bool} {o : Options} {P : Prepared} {monitor monitor' : Monitor}
    {sort : String}

/-- A search that fails on an infinite domain fails when it lists the atoms, before it has a
solver. -/
theorem search_eq_infiniteDomain
    (h : search halt o P monitor = (monitor', .error (.infiniteDomain sort))) :
    monitor' = monitor ∧ atomsOf P.base = .error (.infiniteDomain sort) := by
  rcases search_eq_error h with ⟨hstart, rfl⟩ | ⟨e, hstart, hlater⟩
  · refine ⟨rfl, ?_⟩
    cases hatoms : atomsOf P.base with
    | error failure =>
        rw [Encoder.start, hatoms] at hstart
        cases hstart
        rfl
    | ok atoms =>
        obtain ⟨e, he⟩ := exists_start (.of_atomsOf hatoms) o.solverConfig monitor'
        cases he.symm.trans hstart
  · obtain ⟨atoms, hatoms⟩ := exists_atoms_of_start hstart
    have hfinite : e.base.FiniteTables := (starts_of_start hstart).base ▸ .of_atomsOf hatoms
    obtain ⟨hbase, hfinitary⟩ := (composed_addTheory P.theory).tame e hfinite
    rcases hlater with hadd | ⟨e₁, hadd, hfound⟩
    · exact absurd hadd (hfinitary sort)
    · rw [hadd] at hbase
      exact absurd hfound
        (finitary_enumerateModels (hbase ▸ hfinite) halt o.models e₁.searchBound 0 sort)

/-- An expansion that fails on an infinite domain fails when it prepares the theory or when it lists
the atoms. -/
theorem expand_eq_infiniteDomain {T : Theory}
    (h : expand halt o T S monitor = (monitor', .error (.infiniteDomain sort))) :
    monitor' = monitor ∧ (prepare o T S = .error (.infiniteDomain sort) ∨
      ∃ P, prepare o T S = .ok (some P) ∧ atomsOf P.base = .error (.infiniteDomain sort)) := by
  rw [expand] at h
  cases hprepare : prepare o T S with
  | error failure =>
      rw [hprepare] at h
      cases h
      exact ⟨rfl, .inl rfl⟩
  | ok prepared =>
      rw [hprepare] at h
      cases prepared with
      | none => cases h
      | some P =>
          dsimp only at h
          split at h
          · cases h
          · obtain ⟨hmonitor, hatoms⟩ := search_eq_infiniteDomain h
            exact ⟨hmonitor, .inr ⟨P, rfl, hatoms⟩⟩

end Expand

/-- An expansion that fails on an infinite domain has not recorded an event: it fails when it
prepares the theory or when it lists the atoms. Where the atoms can be listed there is an encoder,
and whatever is done with an encoder of that structure, neither encoding nor decoding nor the check
of a decoded model fails on an infinite domain. -/
theorem infiniteDomain_precedes_search (halt : Stats → Bool) (o : Options) (T : Theory)
    (S : Structure) (monitor : Monitor) :
    (∀ monitor' sort, expand halt o T S monitor = (monitor', .error (.infiniteDomain sort)) →
      monitor' = monitor ∧ (prepare o T S = .error (.infiniteDomain sort) ∨
        ∃ P, prepare o T S = .ok (some P) ∧ atomsOf P.base = .error (.infiniteDomain sort))) ∧
      ∀ base atoms, atomsOf base = .ok atoms →
        (∃ e, Encoder.start base (.fresh o.solverConfig monitor) = .ok e ∧ e.base = base) ∧
          ∀ e : Encoder, e.base = base →
            (∀ G, (addTheory G e).2.base = base ∧ Finitary (addTheory G e).1) ∧
            (∀ m, Finitary (e.decode m)) ∧
              (∀ m M, e.decode m = .ok M → Finitary (e.accepts M)) ∧
              ∀ halt wanted count found,
                Finitary (e.enumerateModels halt wanted count found).2 := by
  constructor
  · exact fun monitor' sort h => expand_eq_infiniteDomain h
  · intro base atoms hatoms
    have hfinite : base.FiniteTables := .of_atomsOf hatoms
    constructor
    · obtain ⟨e, hstart⟩ := exists_start hfinite o.solverConfig monitor
      exact ⟨e, hstart, (starts_of_start hstart).base⟩
    · rintro e rfl
      exact ⟨fun G => (composed_addTheory G).tame e hfinite, finitary_decode hfinite,
        fun m M hM => finitary_accepts hfinite hM, finitary_enumerateModels hfinite⟩

/-- A predicate over a sort with a given table, of which nothing is known. -/
def openOver (t : Table) : Structure where
  vocabulary := ⟨[⟨"s", []⟩], [⟨"p", [0], none⟩]⟩
  tables := [t]
  facts := ∅

/-- Over an infinite sort the expansion fails without an event. Over two elements there is an
encoder, which decodes a model and can check it. -/
theorem infiniteDomain_openOver :
    (∃ monitor', expand (fun _ => false) {} ⟨[], [], []⟩ (openOver .infinite) {} =
        (monitor', .error (.infiniteDomain "s")) ∧ monitor' = {}) ∧
      ∃ e m M, Encoder.start (openOver (.range 1 2)) (.fresh {} {}) = .ok e ∧ e.decode m = .ok M ∧
        Finitary (e.accepts M) := by
  have hfailure : (match (expand (fun _ => false) {} ⟨[], [], []⟩ (openOver .infinite) {}).2 with
      | .error failure => some failure
      | .ok _ => none) = some (.infiniteDomain "s") := by decide +kernel
  have hdecoded : ((Encoder.start (openOver (.range 1 2)) (.fresh {} {})).toOption.bind fun e =>
      (e.decode ⟨#[true, false]⟩).toOption).isSome = true := by decide +kernel
  obtain ⟨hexpand, hlater⟩ :=
    infiniteDomain_precedes_search (fun _ => false) {} ⟨[], [], []⟩ (openOver .infinite) {}
  constructor
  · cases hrun : expand (fun _ => false) {} ⟨[], [], []⟩ (openOver .infinite) {} with
    | mk monitor' outcome =>
        rw [hrun] at hfailure
        cases outcome with
        | ok E => cases hfailure
        | error failure =>
            cases hfailure
            exact ⟨monitor', rfl, (hexpand monitor' "s" hrun).1⟩
  · obtain ⟨M, hM⟩ := Option.isSome_iff_exists.mp hdecoded
    obtain ⟨e, he, hM⟩ := Option.bind_eq_some_iff.mp hM
    have hstart := Except.toOption_eq_some_iff.mp he
    have hdecode := Except.toOption_eq_some_iff.mp hM
    obtain ⟨atoms, hatoms⟩ := exists_atoms_of_start hstart
    obtain ⟨-, -, hcheck, -⟩ := (hlater _ atoms hatoms).2 e (starts_of_start hstart).base
    exact ⟨e, _, M, hstart, hdecode, hcheck _ M hdecode⟩

end ModelExpansion
