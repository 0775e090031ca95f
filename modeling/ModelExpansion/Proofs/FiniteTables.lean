import ModelExpansion.Proofs.Encoding.AtomTable
import ModelExpansion.Proofs.Evaluation.Finitary
import ModelExpansion.NestedFixpoint

/-! # Structures with finite tables
Whatever enumerates the domains of a declared symbol does not fail where the tables of all symbols
are finite. So the value of a definition is computed, and compared with a structure, without meeting
an infinite domain. -/

namespace ModelExpansion

variable {S S' base : Structure} {defined : List SymbolId}

theorem finitary_symbol (V : Vocabulary) (p : SymbolId) : Finitary (V.symbol p) := by
  rw [Vocabulary.symbol]
  cases V.symbols[p]? with
  | none => exact .throw (by simp)
  | some s => exact .ok s

theorem finitary_resultSort (V : Vocabulary) (f : SymbolId) : Finitary (V.resultSort f) := by
  rw [Vocabulary.resultSort]
  refine (finitary_symbol V f).bind fun s _ => ?_
  cases s.result with
  | none => exact .throw (by simp)
  | some sort => exact .pure sort

/-! ## Domains -/

namespace Structure.FiniteTables

/-- The atoms of a structure are listed only if its tables are finite. -/
theorem of_atomsOf {atoms : List Atom} (h : Encoder.atomsOf S = .ok atoms) : S.FiniteTables := by
  intro p s hs sort hsort
  obtain ⟨domains, hdomains, -⟩ := Encoder.forall₂_of_atomsOf_eq_ok h
  obtain ⟨pd, -, -, hds⟩ := exists_right_of_forall₂ hdomains (Vocabulary.mem_symbolIds hs)
  obtain ⟨s', hs', hds⟩ := Except.bind_eq_ok.mp hds
  cases hs.symm.trans (Vocabulary.symbol_eq_ok_iff.mp hs')
  obtain ⟨es, -, hes⟩ := exists_right_of_forall₂ (forall₂_of_mapM_eq_ok hds) hsort
  exact ⟨es, hes⟩

theorem congr (h : S.FiniteTables) (hvocabulary : S'.vocabulary = S.vocabulary)
    (htables : S'.tables = S.tables) :
    S'.FiniteTables := by
  rw [FiniteTables, hvocabulary, domain_congr hvocabulary htables]
  exact h

variable (h : S.FiniteTables)
include h

theorem finitary_graphDomains (p : SymbolId) : Finitary (S.graphDomains p) := by
  refine (finitary_symbol S.vocabulary p).bind fun s hs => .mapM fun sort hsort => ?_
  obtain ⟨es, hes⟩ := h p s (Vocabulary.symbol_eq_ok_iff.mp hs) sort hsort
  rw [hes]
  exact .ok es

theorem finitary_tuples (p : SymbolId) : Finitary (S.tuples p) :=
  (h.finitary_graphDomains p).map product

theorem finitary_domain {f : SymbolId} {result : SortId}
    (hresult : S.vocabulary.resultSort f = .ok result) :
    Finitary (S.domain result) := by
  obtain ⟨s, hs, hsort⟩ := resultSort_eq_ok_iff.mp hresult
  obtain ⟨es, hes⟩ := h f s hs result (by simp [Symbol.graphSorts, hsort])
  rw [hes]
  exact .ok es

theorem finitary_resultDomain (f : SymbolId) : Finitary (S.resultDomain f) :=
  (finitary_resultSort S.vocabulary f).bind fun _ hresult => h.finitary_domain hresult

theorem finitary_functionValue (f : SymbolId) (args : Tuple) : Finitary (S.functionValue f args) :=
  (h.finitary_resultDomain f).map _

/-- A stage reads the functions that are defined off their graphs, over the same domains. -/
theorem finitary_stage (defined : List SymbolId) (positive negative : AtomSet) :
    (stage S defined positive negative).Finitary := by
  intro f t
  by_cases hf : defined.contains f = true
  · simp only [stage, if_pos hf]
    exact (finitary_resultSort S.vocabulary f).bind fun _ hresult =>
      (h.finitary_domain hresult).map _
  · simp only [stage, if_neg hf]
    exact h.finitary_functionValue f t

theorem finitary_agreesOn (defined : List SymbolId) (atoms : AtomSet) :
    Finitary (S.agreesOn defined atoms) := by
  refine .allM fun p _ => (h.finitary_graphDomains p).bind fun domains _ => ?_
  rw [allTuplesM_eq]
  exact .allM fun t _ => .pure _

end Structure.FiniteTables

/-! ## Values of definitions -/

theorem finitary_headAtom (r : Rule) : Finitary r.headAtom := by
  rw [Rule.headAtom]
  cases r.headTuple? with
  | none => exact .throw (by simp)
  | some t => exact .ok _

section WellFounded

theorem finitary_derive {v : Valuation} (hv : v.Finitary) (current : AtomSet) (rules : List Rule) :
    Finitary (derive v current rules) := by
  induction rules with
  | nil => exact .pure []
  | cons r rs ih =>
      rw [derive]
      refine (finitary_headAtom r).bind fun head _ => ?_
      split
      · exact ih
      · exact (finitary_evalFormula hv r.body true).bind fun truth _ => ih.map _

variable (h : base.FiniteTables) (rules : List Rule)
include h

theorem finitary_closeUnder (fixed : AtomSet) (n : Nat) (current : AtomSet) :
    Finitary (closeUnder base defined fixed rules n current) := by
  induction n generalizing current with
  | zero => exact .pure current
  | succ n ih =>
      rw [closeUnder]
      refine (finitary_derive (h.finitary_stage _ _ _) current rules).bind fun new _ => ?_
      cases new with
      | nil => exact .pure current
      | cons a new => exact ih _

theorem finitary_alternate (n : Nat) (lower : AtomSet) :
    Finitary (alternate base defined rules n lower) := by
  induction n generalizing lower with
  | zero => exact .throw (by simp)
  | succ n ih =>
      rw [alternate]
      refine (finitary_closeUnder h rules lower _ _).bind fun upper _ => ?_
      refine (finitary_closeUnder h rules upper _ _).bind fun next _ => ?_
      split
      · exact .pure _
      · exact ih next

end WellFounded

section NestedFixpoint

theorem finitary_trueHeads {v : Valuation} (hv : v.Finitary) (rules : List Rule) :
    Finitary (trueHeads v rules) := by
  induction rules with
  | nil => exact .pure []
  | cons r rs ih =>
      rw [trueHeads]
      refine (finitary_evalFormula hv r.body true).bind fun truth _ => ?_
      split
      · exact (finitary_headAtom r).bind fun head _ => ih.map _
      · exact ih

theorem finitary_levelHeads (rules : List Rule) : Finitary (levelHeads rules) :=
  (Finitary.mapM fun r _ => finitary_headAtom r).map _

/-- The iteration of a level fails only where the levels inside it or its rules do. -/
theorem finitary_iterateLevel {inner : AtomSet → Except Failure FixpointValue}
    {derive : AtomSet → Except Failure AtomSet} (hinner : ∀ context, Finitary (inner context))
    (hderive : ∀ context, Finitary (derive context)) (outer heads : AtomSet) (n : Nat)
    (own : AtomSet) :
    Finitary (iterateLevel inner derive outer heads n own) := by
  induction n generalizing own with
  | zero =>
      rw [iterateLevel]
      cases heads.toList with
      | nil => exact .pure _
      | cons a heads => exact .pure _
  | succ n ih =>
      rw [iterateLevel]
      refine (hinner _).bind fun value _ => ?_
      cases value with
      | oscillating a => exact .pure _
      | converged context =>
          refine (hderive context).bind fun next _ => ?_
          split
          · exact .pure _
          · exact ih next

mutual

theorem finitary_solveLevel (h : base.FiniteTables) :
    ∀ (F : Fixpoint) (outer : AtomSet), Finitary (solveLevel base defined F outer)
  | .level least rules nested, outer => by
      rw [solveLevel]
      refine (finitary_levelHeads rules).bind fun heads _ => ?_
      refine finitary_iterateLevel (finitary_solveLevels h nested)
        (fun context => ?_) outer heads _ _
      exact (finitary_trueHeads (h.finitary_stage _ _ _) rules).map _

theorem finitary_solveLevels (h : base.FiniteTables) :
    ∀ (Fs : List Fixpoint) (context : AtomSet), Finitary (solveLevels base defined Fs context)
  | [], context => by
      rw [solveLevels]
      exact .pure _
  | F :: Fs, context => by
      rw [solveLevels]
      refine (finitary_solveLevel h F context).bind fun value _ => ?_
      cases value with
      | oscillating a => exact .pure _
      | converged atoms => exact finitary_solveLevels h Fs _

end

end NestedFixpoint

/-! ## Checking a structure against definitions -/

namespace Structure.FiniteTables

variable (h : S.FiniteTables)
include h

theorem finitary_satisfiesDefinition (D : Definition) : Finitary (S.satisfiesDefinition D) := by
  refine (finitary_alternate h D.rules _ _).bind fun w _ => ?_
  split
  · exact h.finitary_agreesOn _ _
  · exact .pure false

theorem finitary_satisfiesFixpoint (F : Fixpoint) : Finitary (S.satisfiesFixpoint F) := by
  refine (finitary_solveLevel h F ∅).bind fun value _ => ?_
  cases value with
  | oscillating a => exact .pure false
  | converged atoms => exact h.finitary_agreesOn _ _

end Structure.FiniteTables

end ModelExpansion
