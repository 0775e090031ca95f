import ModelExpansion.Proofs.Encoding.Completion
import ModelExpansion.Proofs.Encoding.Replay

/-! # Calls on an encoder
Whatever is asked of an encoder, and whether or not it succeeds, the encoder makes its steps. -/

namespace ModelExpansion

open ModelExpansion.Sat ModelExpansion.Encoder

namespace Encoding

def Proceeds {α : Type} (x : Encoding α) (e : Encoder) : Prop := ∃ cs, Builds e (x e).2 cs

variable {α β : Type} {e : Encoder} {x : Encoding α} {f : α → Encoding β}

theorem Replays.proceeds (hx : Replays x e) : Proceeds x e := by
  obtain ⟨cs, hbuilds, -⟩ := hx
  exact ⟨cs, hbuilds⟩

theorem Proceeds.pure (a : α) : Proceeds (Pure.pure a : Encoding α) e := ⟨[], .refl⟩

theorem Proceeds.bind (h : Sound e) (hx : Proceeds x e)
    (hf : ∀ a e', x e = (.ok a, e') → Sound e' → Proceeds (f a) e') : Proceeds (x >>= f) e := by
  obtain ⟨cs, hbuilds⟩ := hx
  rw [Proceeds, bind_eq]
  cases hrun : x e with
  | mk r e' =>
      rw [hrun] at hbuilds
      cases r with
      | error failure => exact ⟨cs, hbuilds⟩
      | ok a =>
          obtain ⟨cs', hbuilds'⟩ := hf a e' hrun (hbuilds.sound h)
          exact ⟨cs ++ cs', hbuilds.trans hbuilds'⟩

/-- What is encoded first gives what the rest needs. -/
theorem Proceeds.after {Q : Encoder → α → Prop} (h : Sound e) (hx : Replays x e)
    (hgives : Gives x e Q)
    (hf : ∀ a e', Grown e e' → Sound e' → Q e' a → Proceeds (f a) e') : Proceeds (x >>= f) e :=
  hx.proceeds.bind h fun a e' hrun h' => by
    obtain ⟨hgrown, hq⟩ := hgives a e' hrun
    exact hf a e' hgrown h' hq

theorem proceeds_clause {lits : List Lit} (hlits : ∀ l ∈ lits, l.var < e.solver.numVars) :
    Proceeds (Encoding.clause lits) e := ⟨[], .assertion .refl hlits⟩

end Encoding

open Encoding

/-! ## Assertions -/

theorem proceeds_literal (f : Formula) {e : Encoder} (h : Sound e) :
    Proceeds (do Encoding.clause [← encodeFormula f]) e := by
  refine .after h (replays_encodeFormula f h) (gives_encodeFormula f h) fun l e' _ _ hl =>
    proceeds_clause ?_
  exact List.forall_mem_singleton.mpr hl.var_lt

mutual

theorem proceeds_assertFormula :
    ∀ (f : Formula) {e : Encoder}, Sound e → Proceeds (assertFormula f) e
  | .junction true true children, e, h => by
      rw [assertFormula]
      exact proceeds_assertFormulas children h
  | .junction true false children, e, h => by
      rw [assertFormula]
      exact .after h (replays_encodeFormulas children h) (gives_encodeFormulas children h)
        fun lits e' _ _ hlits => proceeds_clause (var_lt_of_means hlits)
  | .junction false conjunctive children, e, h => by
      simp only [assertFormula]
      exact proceeds_literal _ h
  | .atom sign p args, e, h => by
      simp only [assertFormula]
      exact proceeds_literal _ h
  | .quantified sign universal vars body, e, h => by
      simp only [assertFormula]
      exact proceeds_literal _ h
  | .equivalence sign left right, e, h => by
      simp only [assertFormula]
      exact proceeds_literal _ h
  | .comparison sign terms comparators, e, h => by
      simp only [assertFormula]
      exact proceeds_literal _ h

theorem proceeds_assertFormulas :
    ∀ (fs : List Formula) {e : Encoder}, Sound e → Proceeds (assertFormulas fs) e
  | [], e, h => by
      rw [assertFormulas]
      exact .pure ()
  | f :: fs, e, h => by
      rw [assertFormulas]
      exact .bind h (proceeds_assertFormula f h) fun _ e' _ h' => proceeds_assertFormulas fs h'

end

/-! ## Definitions -/

section Completion

variable {e : Encoder}

theorem replays_encodeBodies (bodies : Bodies) (a : Atom) (h : Sound e) :
    Replays (encodeBodies bodies a) e := by
  rw [encodeBodies]
  cases bodies[a]? with
  | none => exact .read fun hreplica => hreplica.falsity
  | some formulas =>
      exact .bind (replays_encodeFormulas _ h) (gives_encodeFormulas _ h) fun lits e' _ h' hlits =>
        replays_or h' (var_lt_of_means hlits)

theorem proceeds_completeTuples (bodies : Bodies) (p : SymbolId) (ts : List Tuple) (h : Sound e) :
    Proceeds (completeTuples bodies p ts) e := by
  induction ts generalizing e with
  | nil => exact .pure ()
  | cons t ts ih =>
      rw [completeTuples]
      refine .after h (replays_atomLit? p t) (gives_atomLit? h p t) fun atom e₁ _ h₁ hatom => ?_
      cases atom with
      | none => exact ih h₁
      | some atom =>
          have hvar := (means_atomLit h₁ hatom.symm).var_lt
          refine .after h₁ (replays_encodeBodies bodies _ h₁) (gives_encodeBodies bodies _ h₁)
            fun body e₂ hg₂ h₂ hbody => ?_
          have hvar₂ := Nat.lt_of_lt_of_le hvar hg₂.numVars
          have hforward : ∀ l ∈ [atom.negate, body], l.var < e₂.solver.numVars := by
            rw [List.forall_mem_cons, List.forall_mem_singleton, Lit.var_negate]
            exact ⟨hvar₂, hbody.var_lt⟩
          refine .bind h₂ (proceeds_clause hforward) fun _ e₃ hrun h₃ => ?_
          have hnumVars : e₃.solver.numVars = e₂.solver.numVars := by
            cases hrun
            exact (adds_clause h₂.valid hforward).numVars
          have hback : ∀ l ∈ [atom, body.negate], l.var < e₃.solver.numVars := by
            rw [List.forall_mem_cons, List.forall_mem_singleton, Lit.var_negate, hnumVars]
            exact ⟨hvar₂, hbody.var_lt⟩
          exact .bind h₃ (proceeds_clause hback) fun _ e₄ _ h₄ => ih h₄

theorem proceeds_completeSymbols (bodies : Bodies) (ps : List SymbolId) (h : Sound e) :
    Proceeds (completeSymbols bodies ps) e := by
  induction ps generalizing e with
  | nil => exact .pure ()
  | cons p ps ih =>
      rw [completeSymbols]
      have hbase : Replays (Encoding.read Encoder.base) e := .read fun hreplica => hreplica.base
      refine .bind h hbase.proceeds fun S e₁ _ h₁ => ?_
      refine .bind h₁ (Replays.lift _).proceeds fun ts e₂ _ h₂ => ?_
      exact .bind h₂ (proceeds_completeTuples bodies p ts h₂) fun _ e₃ _ h₃ => ih h₃

theorem proceeds_addCompletion (rules : List Rule) (h : Sound e) :
    Proceeds (addCompletion rules) e :=
  .bind h (Replays.lift _).proceeds fun bodies _ _ h' => proceeds_completeSymbols bodies _ h'

theorem proceeds_addDefinition (D : Definition) (h : Sound e) : Proceeds (addDefinition D) e := by
  refine .bind h (proceeds_addCompletion D.rules h) fun _ e' _ _ => ?_
  split
  · exact ⟨[], .keep (e'.definitions ++ [D]) e'.fixpoints .refl⟩
  · exact .pure ()

theorem proceeds_addFixpoint (F : Fixpoint) (h : Sound e) : Proceeds (addFixpoint F) e := by
  refine .bind h (proceeds_addCompletion F.allRules h) fun _ e' _ _ => ?_
  exact ⟨[], .keep e'.definitions (e'.fixpoints ++ [F]) .refl⟩

theorem proceeds_addDefinitions (Ds : List Definition) (h : Sound e) :
    Proceeds (addDefinitions Ds) e := by
  induction Ds generalizing e with
  | nil => exact .pure ()
  | cons D Ds ih => exact .bind h (proceeds_addDefinition D h) fun _ e' _ h' => ih h'

theorem proceeds_addFixpoints (Fs : List Fixpoint) (h : Sound e) :
    Proceeds (addFixpoints Fs) e := by
  induction Fs generalizing e with
  | nil => exact .pure ()
  | cons F Fs ih => exact .bind h (proceeds_addFixpoint F h) fun _ e' _ h' => ih h'

theorem proceeds_addTheory (T : Theory) (h : Sound e) : Proceeds (addTheory T) e := by
  refine .bind h (proceeds_assertFormulas T.sentences h) fun _ e₁ _ h₁ => ?_
  exact .bind h₁ (proceeds_addDefinitions T.definitions h₁) fun _ e₂ _ h₂ =>
    proceeds_addFixpoints T.fixpoints h₂

end Completion

/-! ## Calls -/

namespace Encoder

/-- A call on an encoder, which leads to another one even if it fails. Literals that are handed in
have variables of the encoder. -/
inductive Call (e : Encoder) : Encoder → Prop where
  | encode (f : Formula) : Call e (encodeFormula f e).2
  | cases (t : Term) : Call e (encodeTerm t e).2
  | assert (f : Formula) : Call e (assertFormula f e).2
  | define (D : Definition) : Call e (addDefinition D e).2
  | fixpoint (F : Fixpoint) : Call e (addFixpoint F e).2
  | theory (T : Theory) : Call e (addTheory T e).2
  | and {lits : List Lit} (hlits : ∀ l ∈ lits, l.var < e.solver.numVars) : Call e (e.and lits).1
  | or {lits : List Lit} (hlits : ∀ l ∈ lits, l.var < e.solver.numVars) : Call e (e.or lits).1
  | iff {a b : Lit} (ha : a.var < e.solver.numVars) (hb : b.var < e.solver.numVars) :
      Call e (e.iff a b).1
  | block (m : Model) : Call e (e.block m).1
  | search (halt : Stats → Bool) : Call e (e.solve halt).1

variable {e₀ e e' : Encoder} {cs : List (List Lit)}

theorem var_lt_blockingClause (hatoms : e.atoms.size ≤ e.solver.numVars) (m : Model) :
    ∀ l ∈ e.blockingClause m, l.var < e.solver.numVars := by
  intro l hl
  obtain ⟨v, hv, rfl⟩ := List.mem_map.mp hl
  rw [Lit.var_signed]
  exact Nat.lt_of_lt_of_le (List.mem_range.mp (List.mem_filter.mp hv).1) hatoms

theorem builds_of_call (h : Sound e) (hatoms : e.atoms.size ≤ e.solver.numVars)
    (hcall : Call e e') :
    ∃ cs, Builds e e' cs := by
  cases hcall with
  | encode f => exact (replays_encodeFormula f h).proceeds
  | cases t => exact (replays_encodeTerm t h).proceeds
  | assert f => exact proceeds_assertFormula f h
  | define D => exact proceeds_addDefinition D h
  | fixpoint F => exact proceeds_addFixpoint F h
  | theory T => exact proceeds_addTheory T h
  | and hlits => exact (replays_and h hlits).proceeds
  | or hlits => exact (replays_or h hlits).proceeds
  | iff ha hb => exact (replays_iff h ha hb).proceeds
  | block m => exact ⟨[], .assertion .refl (var_lt_blockingClause hatoms m)⟩
  | search halt => exact ⟨[], .search halt .refl⟩

/-- Two encoders have the same variables for the same atoms of the same structure. -/
structure Shares (e e' : Encoder) : Prop where
  base : e'.base = e.base
  atoms : e'.atoms = e.atoms
  index : e'.index = e.index
  inputs : e'.inputs = e.inputs

theorem Shares.newGate (h : Shares e₀ e) (cs : List (List Lit)) :
    Shares e₀ (e.newGate.1.clauses cs) := by
  rw [clauses_eq]
  exact ⟨h.base, h.atoms, h.index, h.inputs⟩

theorem Builds.shares (h : Builds e e' cs) : Shares e e' := by
  induction h with
  | refl => exact ⟨rfl, rfl, rfl, rfl⟩
  | conjunction h hnew hlits ih =>
      rw [andGate_of_new hnew]
      exact { ih.newGate _ with }
  | reuse h hg ih =>
      rw [andGate_of_built hg]
      exact { ih with }
  | equivalence h ha hb ih => exact ih.newGate _
  | assertion h hc ih => exact { ih with }
  | keep Ds Fs h ih => exact { ih with }
  | search halt h ih => exact { ih with }

theorem Builds.atoms (h : Builds e e' cs) : e'.atoms = e.atoms := h.shares.atoms

/-- The variables of the atoms stay variables of the solver. -/
theorem Builds.atoms_le (h : Builds e e' cs) (he : Sound e)
    (hatoms : e.atoms.size ≤ e.solver.numVars) :
    e'.atoms.size ≤ e'.solver.numVars := h.atoms ▸ hatoms.trans (h.numVars_le he)

theorem builds_of_calls (h : Sound e₀) (hatoms : e₀.atoms.size ≤ e₀.solver.numVars)
    (hcalls : Relation.ReflTransGen Call e₀ e) : ∃ cs, Builds e₀ e cs := by
  induction hcalls with
  | refl => exact ⟨[], .refl⟩
  | tail _ hcall ih =>
      obtain ⟨cs, hbuilds⟩ := ih
      obtain ⟨cs', hbuilds'⟩ := builds_of_call (hbuilds.sound h) (hbuilds.atoms_le h hatoms) hcall
      exact ⟨cs ++ cs', hbuilds.trans hbuilds'⟩

end Encoder

end ModelExpansion
