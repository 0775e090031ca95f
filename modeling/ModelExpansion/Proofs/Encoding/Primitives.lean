import ModelExpansion.Encoding.Theory
import ModelExpansion.Proofs.Evaluation.Finitary

/-! # What encoding is made of
Everything that adds formulas and definitions to an encoder is composed of a few primitive
computations, one after the other. What each of these keeps, the encoding of a theory keeps. -/

namespace ModelExpansion

open ModelExpansion.Sat

namespace Encoding

/-- Computations composed of primitive ones. A lifted computation does not touch the encoder, and
domains are enumerated only for the declared symbols of its structure. -/
inductive Composed : {α : Type} → Encoding α → Prop where
  | bind {α β : Type} {x : Encoding α} {f : α → Encoding β} (hx : Composed x)
      (hf : ∀ a, Composed (f a)) :
      Composed (x >>= f)
  | lift {α : Type} {y : Except Failure α} (hy : Finitary y) : Composed (lift y)
  | and (lits : List Lit) : Composed (and lits)
  | or (lits : List Lit) : Composed (or lits)
  | iff (a b : Lit) : Composed (iff a b)
  | clause (lits : List Lit) : Composed (clause lits)
  | truth : Composed (read Encoder.truth)
  | falsity : Composed (read Encoder.falsity)
  | atomLit? (p : SymbolId) (t : Tuple) : Composed (read fun e => e.atomLit? p t)
  | resultValues (f : SymbolId) : Composed (resultValues f)
  | tuples (p : SymbolId) : Composed (do lift ((← read Encoder.base).tuples p))
  | keepDefinition (D : Definition) :
      Composed (step fun e => ({ e with definitions := e.definitions ++ [D] }, ()))
  | keepFixpoint (F : Fixpoint) :
    Composed (step fun e => ({ e with fixpoints := e.fixpoints ++ [F] }, ()))

namespace Composed

variable {α β : Type} {f : α → Encoding β}

theorem pure (a : α) : Composed (Pure.pure a : Encoding α) := .lift (.ok a)

theorem throw {failure : Failure} (h : ∀ sort, failure ≠ .infiniteDomain sort) :
    Composed (MonadExcept.throw failure : Encoding α) := .lift (.throw h)

theorem mapM {xs : List α} (hf : ∀ a ∈ xs, Composed (f a)) : Composed (xs.mapM f) := by
  induction xs with
  | nil =>
      rw [List.mapM_nil]
      exact .pure []
  | cons a xs ih =>
      obtain ⟨ha, hxs⟩ := List.forall_mem_cons.mp hf
      rw [List.mapM_cons]
      exact .bind ha fun b => .bind (ih hxs) fun bs => .pure (b :: bs)

end Composed

/-! ## Terms -/

section Terms

variable {α : Type}

theorem composed_argumentCases (cases : List Cases) : Composed (argumentCases cases) :=
  .mapM fun choice _ => .bind (.and _) fun l => .pure (choice.map Prod.fst, l)

theorem composed_valueCases (collected : List (α × List Lit)) :
    Composed (valueCases collected) := by
  induction collected with
  | nil => exact .pure []
  | cons c collected ih =>
      rw [valueCases]
      exact .bind (.or c.2) fun l => .bind .falsity fun falsity => .bind ih fun others => .pure _

theorem composed_atomAlternatives (p : SymbolId) (choices : List (Tuple × Lit)) :
    Composed (atomAlternatives p choices) := by
  induction choices with
  | nil => exact .pure []
  | cons c choices ih =>
      rw [atomAlternatives]
      refine .bind (.atomLit? p c.1) fun atom => ?_
      cases atom with
      | none => exact ih
      | some atom => exact .bind (.and _) fun l => .bind ih fun lits => .pure (l :: lits)

theorem composed_graphRow (f : SymbolId) (values : List Element) (t : Tuple) (guard : Lit) :
    Composed (graphRow f values t guard) := by
  refine .mapM fun v _ => .bind (.atomLit? f _) fun atom => ?_
  cases atom with
  | none => exact .pure none
  | some atom => exact .bind (.and _) fun l => .pure (some l)

theorem composed_applicationCases (f : SymbolId) (values : List Element)
    (args : List (Tuple × Lit)) :
    Composed (applicationCases f values args) :=
  .bind (.mapM fun a _ => composed_graphRow f values a.1 a.2) fun _ => composed_valueCases _

theorem composed_link (c : Comparator) (left right : Cases) : Composed (link c left right) :=
  .bind (.mapM fun _ _ => .and _) fun lits => .or lits

theorem composed_links (cases : List Cases) (cs : List Comparator) : Composed (links cases cs) := by
  induction cases generalizing cs with
  | nil => exact .pure []
  | cons left cases ih =>
      match cases, cs with
      | [], _ => exact .pure []
      | _ :: _, [] => exact .pure []
      | right :: _, c :: cs =>
          rw [links]
          exact .bind (composed_link c left right) fun l => .bind (ih cs) fun lits =>
            .pure (l :: lits)

end Terms

/-! ## Aggregates -/

theorem finitary_weightCases (kind : Aggregate) (cases : Cases) :
    Finitary (weightCases kind cases) := by
  induction cases with
  | nil => exact .pure []
  | cons c cases ih =>
      obtain ⟨value, l⟩ := c
      cases value with
      | int w => exact ih.map ((w, l) :: ·)
      | name s => exact .throw (by simp)

theorem composed_extendPartial (kind : Aggregate) (acc : Option Int) (reached present : Lit)
    (weights : List (Int × Lit)) (c : Collected) :
    Composed (extendPartial kind acc reached present weights c) := by
  induction weights generalizing c with
  | nil => exact .pure c
  | cons w weights ih =>
      rw [extendPartial]
      exact .bind (.and _) fun taken => ih _

theorem composed_extendPartials (kind : Aggregate) (present : Lit) (weights : List (Int × Lit))
    (states : List (Option Int × Lit)) (c : Collected) :
    Composed (extendPartials kind present weights states c) := by
  induction states generalizing c with
  | nil => exact .pure c
  | cons s states ih =>
      rw [extendPartials]
      exact .bind (.and _) fun skipped =>
        .bind (composed_extendPartial kind _ _ present weights _) fun c => ih c

theorem composed_addMember (kind : Aggregate) (present : Lit) (weights : List (Int × Lit))
    (states : Partials) :
    Composed (addMember kind present weights states) :=
  .bind (composed_extendPartials kind present weights _ _) fun _ =>
    .bind (composed_valueCases _) fun _ => .pure _

end Encoding

open Encoding

/-! ## Formulas -/

mutual

theorem composed_encodeFormula : ∀ f : Formula, Composed (encodeFormula f)
  | .atom sign p args => by
      rw [encodeFormula]
      exact .bind (composed_encodeTerms args) fun cases =>
        .bind (composed_argumentCases cases) fun choices =>
        .bind (composed_atomAlternatives p choices) fun lits => .bind (.or lits) fun l => .pure _
  | .junction sign conjunctive children => by
      rw [encodeFormula]
      refine .bind (composed_encodeFormulas children) fun lits => ?_
      cases conjunctive with
      | true => exact .bind (.and lits) fun l => .pure _
      | false => exact .bind (.or lits) fun l => .pure _
  | .quantified _ _ _ _ => by
      rw [encodeFormula]
      exact .throw (by simp)
  | .equivalence sign left right => by
      rw [encodeFormula]
      exact .bind (composed_encodeFormula left) fun a =>
        .bind (composed_encodeFormula right) fun b =>
        .bind (.iff a b) fun l => .pure _
  | .comparison sign terms comparators => by
      rw [encodeFormula]
      exact .bind (.lift (finitary_checkChain terms comparators)) fun _ =>
        .bind (composed_encodeTerms terms) fun cases =>
          .bind (composed_links cases comparators) fun lits =>
          .bind (.and lits) fun l => .pure _

theorem composed_encodeFormulas : ∀ fs : List Formula, Composed (encodeFormulas fs)
  | [] => by
      rw [encodeFormulas]
      exact .pure []
  | f :: fs => by
      rw [encodeFormulas]
      exact .bind (composed_encodeFormula f) fun l => .bind (composed_encodeFormulas fs) fun lits =>
        .pure (l :: lits)

theorem composed_encodeTerm : ∀ t : Term, Composed (encodeTerm t)
  | .var x => by
      rw [encodeTerm]
      exact .throw (by simp)
  | .element v => by
      rw [encodeTerm]
      exact .bind .truth fun l => .pure _
  | .apply f args => by
      rw [encodeTerm]
      exact .bind (.resultValues f) fun values => .bind (composed_encodeTerms args) fun cases =>
        .bind (composed_argumentCases cases) fun choices =>
          composed_applicationCases f values choices
  | .aggregate kind set => by
      rw [encodeTerm]
      exact composed_encodeSet kind set

theorem composed_encodeTerms : ∀ ts : List Term, Composed (encodeTerms ts)
  | [] => by
      rw [encodeTerms]
      exact .pure []
  | t :: ts => by
      rw [encodeTerms]
      exact .bind (composed_encodeTerm t) fun c => .bind (composed_encodeTerms ts) fun cases =>
        .pure (c :: cases)

theorem composed_encodeSet : ∀ (kind : Aggregate) (set : SetExpr), Composed (encodeSet kind set)
  | kind, .enumerated members => by
      rw [encodeSet]
      exact .bind .truth fun truth =>
        .bind (composed_encodeMembers kind members _) fun states => .pure _
  | kind, .comprehension _ _ _ => by
      rw [encodeSet]
      exact .throw (by simp)

theorem composed_encodeMembers : ∀ (kind : Aggregate) (ms : List Member) (states : Partials),
    Composed (encodeMembers kind ms states)
  | kind, [], states => by
      rw [encodeMembers]
      exact .pure states
  | kind, (condition, weight) :: ms, states => by
      rw [encodeMembers]
      refine .bind (composed_encodeFormula condition) fun present => ?_
      have hrest : ∀ weights : List (Int × Lit),
          Composed (do encodeMembers kind ms (← addMember kind present weights states)) :=
        fun weights =>
        .bind (composed_addMember kind present weights states) fun states =>
          composed_encodeMembers kind ms states
      by_cases hkind : kind.usesWeights = true
      · simp only [if_pos hkind]
        exact .bind (composed_encodeTerm weight) fun cases =>
          .bind (.lift (finitary_weightCases kind cases)) hrest
      · simp only [if_neg hkind]
        exact .bind .truth fun truth => hrest _

end

/-! ## Theories -/

theorem composed_literal (f : Formula) : Composed (do Encoding.clause [← encodeFormula f]) :=
  .bind (composed_encodeFormula f) fun l => .clause [l]

mutual

theorem composed_assertFormula : ∀ f : Formula, Composed (assertFormula f)
  | .junction true true children => by
      rw [assertFormula]
      exact composed_assertFormulas children
  | .junction true false children => by
      rw [assertFormula]
      exact .bind (composed_encodeFormulas children) fun lits => .clause lits
  | .junction false conjunctive children => by
      simp only [assertFormula]
      exact composed_literal _
  | .atom sign p args => by
      simp only [assertFormula]
      exact composed_literal _
  | .quantified sign universal vars body => by
      simp only [assertFormula]
      exact composed_literal _
  | .equivalence sign left right => by
      simp only [assertFormula]
      exact composed_literal _
  | .comparison sign terms comparators => by
      simp only [assertFormula]
      exact composed_literal _

theorem composed_assertFormulas : ∀ fs : List Formula, Composed (assertFormulas fs)
  | [] => by
      rw [assertFormulas]
      exact .pure ()
  | f :: fs => by
      rw [assertFormulas]
      exact .bind (composed_assertFormula f) fun _ => composed_assertFormulas fs

end

theorem finitary_collectBodies (rules : List Rule) (bodies : Bodies) :
    Finitary (collectBodies rules bodies) := by
  induction rules generalizing bodies with
  | nil => exact .pure bodies
  | cons r rules ih =>
      rw [collectBodies]
      cases r.headTuple? with
      | none => exact .throw (by simp)
      | some t =>
          dsimp only
          split
          · exact ih _
          · exact .throw (by simp)

theorem composed_encodeBodies (bodies : Bodies) (a : Atom) : Composed (encodeBodies bodies a) := by
  rw [encodeBodies]
  cases bodies[a]? with
  | none => exact .falsity
  | some formulas => exact .bind (composed_encodeFormulas _) fun lits => .or lits

theorem composed_completeTuples (bodies : Bodies) (p : SymbolId) (ts : List Tuple) :
    Composed (completeTuples bodies p ts) := by
  induction ts with
  | nil => exact .pure ()
  | cons t ts ih =>
      rw [completeTuples]
      refine .bind (.atomLit? p t) fun atom => ?_
      cases atom with
      | none => exact ih
      | some atom =>
          exact .bind (composed_encodeBodies bodies _) fun body => .bind (.clause _) fun _ =>
            .bind (.clause _) fun _ => ih

theorem composed_completeSymbols (bodies : Bodies) (ps : List SymbolId) :
    Composed (completeSymbols bodies ps) := by
  induction ps with
  | nil => exact .pure ()
  | cons p ps ih =>
      rw [completeSymbols, ← bind_assoc]
      exact .bind (.tuples p) fun ts => .bind (composed_completeTuples bodies p ts) fun _ => ih

theorem composed_addCompletion (rules : List Rule) : Composed (addCompletion rules) :=
  .bind (.lift (finitary_collectBodies rules ∅)) fun bodies => composed_completeSymbols bodies _

theorem composed_addDefinition (D : Definition) : Composed (addDefinition D) := by
  refine .bind (composed_addCompletion D.rules) fun _ => ?_
  split
  · exact .keepDefinition D
  · exact .pure ()

theorem composed_addFixpoint (F : Fixpoint) : Composed (addFixpoint F) :=
  .bind (composed_addCompletion F.allRules) fun _ => .keepFixpoint F

theorem composed_addDefinitions (Ds : List Definition) : Composed (addDefinitions Ds) := by
  induction Ds with
  | nil => exact .pure ()
  | cons D Ds ih => exact .bind (composed_addDefinition D) fun _ => ih

theorem composed_addFixpoints (Fs : List Fixpoint) : Composed (addFixpoints Fs) := by
  induction Fs with
  | nil => exact .pure ()
  | cons F Fs ih => exact .bind (composed_addFixpoint F) fun _ => ih

theorem composed_addTheory (T : Theory) : Composed (addTheory T) :=
  .bind (composed_assertFormulas T.sentences) fun _ =>
    .bind (composed_addDefinitions T.definitions) fun _ =>
    composed_addFixpoints T.fixpoints

end ModelExpansion
