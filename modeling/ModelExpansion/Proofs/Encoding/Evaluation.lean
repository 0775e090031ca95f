import ModelExpansion.Proofs.Encoding.Completion
import ModelExpansion.Proofs.Evaluation.Precision

/-! # What is encoded can be evaluated
The encoding of a formula fails wherever its evaluation could: at variables, at wrong chains of
comparators, at predicates that are used as functions, and at weights that are no integers. So a
well-sorted formula that has been encoded has a truth value in every world that is left. -/

namespace ModelExpansion

open ModelExpansion.Sat ModelExpansion.Encoder ModelExpansion.Encoding

/-! ## Evaluation that succeeds -/

/-- Whether evaluation succeeds over every source that decides the tables as a world does. -/
def Formula.Evaluates (S : Structure) (f : Formula) (W : World) : Prop :=
  ∀ v : Valuation, v.Decides S W → ∀ positive, ∃ x, evalFormula v positive f = .ok x

/-- Whether evaluation succeeds over every source that decides the tables as a world does. -/
def Term.Evaluates (S : Structure) (t : Term) (W : World) : Prop :=
  ∀ v : Valuation, v.Decides S W → ∀ positive, ∃ x, evalTerm v positive t = .ok x

/-- What a member of a set needs for an aggregate to be evaluated: a condition with a truth value
and, where weights matter, a weight that is an integer if it has a value. -/
structure Member.Evaluates (S : Structure) (kind : Aggregate) (m : Member) (W : World) : Prop where
  condition : m.1.Evaluates S W
  weight : kind.usesWeights = true → m.2.wellSorted S = true ∧ m.2.Evaluates S W ∧
    ∀ x, W.value [] m.2 = some x → ∃ n, x = .int n

section Evaluates

variable {S : Structure} {W : World} {v : Valuation} (hv : v.Decides S W)
include hv

theorem evalChildren_eq_ok {fs : List Formula} (h : ∀ f ∈ fs, f.Evaluates S W)
    (positive conjunctive : Bool)
    (acc : Truth) : ∃ y, evalChildren v positive conjunctive acc fs = .ok y := by
  induction fs generalizing acc with
  | nil => exact ⟨acc, by rw [evalChildren]; rfl⟩
  | cons f fs ih =>
      obtain ⟨hf, hfs⟩ := List.forall_mem_cons.mp h
      obtain ⟨x, hx⟩ := hf v hv positive
      rw [evalChildren, hx, Except.ok_bind]
      change ∃ y,
        (if acc.join conjunctive x = .ofBool !conjunctive then pure (acc.join conjunctive x)
        else evalChildren v positive conjunctive (acc.join conjunctive x) fs) = .ok y
      split
      · exact ⟨_, rfl⟩
      · exact ih hfs _

theorem evalTerms_eq_ok {ts : List Term} (h : ∀ t ∈ ts, t.Evaluates S W) (positive : Bool) :
    ∃ xs, evalTerms v positive ts = .ok xs := by
  induction ts with
  | nil => exact ⟨[], by rw [evalTerms]; rfl⟩
  | cons t ts ih =>
      obtain ⟨ht, hts⟩ := List.forall_mem_cons.mp h
      obtain ⟨x, hx⟩ := ht v hv positive
      obtain ⟨xs, hxs⟩ := ih hts
      exact ⟨x :: xs, by rw [evalTerms, hx, hxs]; rfl⟩

theorem evalArgs_eq_ok {ts : List Term} (h : ∀ t ∈ ts, t.Evaluates S W) (positive : Bool) :
    ∃ a, evalArgs v positive ts = .ok a := by
  induction ts with
  | nil => exact ⟨.known [], by rw [evalArgs]; rfl⟩
  | cons t ts ih =>
      obtain ⟨ht, hts⟩ := List.forall_mem_cons.mp h
      obtain ⟨x, hx⟩ := ht v hv positive
      obtain ⟨a, ha⟩ := ih hts
      rw [evalArgs, hx, Except.ok_bind]
      cases x with
      | undefined => exact ⟨_, rfl⟩
      | known e =>
          rw [ha]
          cases a <;> exact ⟨_, rfl⟩
      | unknown =>
          rw [ha]
          cases a <;> exact ⟨_, rfl⟩

theorem gain_eq_ok {kind : Aggregate} {condition : Formula} {weight : Term}
    (h : Member.Evaluates S kind (condition, weight) W) (positive : Bool) :
    ∃ g, gain v positive kind condition weight = .ok g := by
  obtain ⟨c, hc⟩ := h.condition v hv positive
  rw [gain, hc, Except.ok_bind]
  cases c with
  | no | unknown => exact ⟨_, rfl⟩
  | yes =>
      dsimp only
      by_cases hkind : kind.usesWeights = true
      · obtain ⟨hsorted, hweight, hint⟩ := h.weight hkind
        obtain ⟨w, hw⟩ := hweight v hv positive
        rw [if_pos hkind, hw, Except.ok_bind, (evalTerm_decided hv weight hsorted hw).1]
        cases hvalue : W.value [] weight with
        | none => exact ⟨_, rfl⟩
        | some x =>
            obtain ⟨n, rfl⟩ := hint x hvalue
            exact ⟨_, rfl⟩
      · rw [if_neg hkind]
        exact ⟨_, rfl⟩

theorem evalMembers_eq_ok {kind : Aggregate} {ms : List Member}
    (h : ∀ m ∈ ms, Member.Evaluates S kind m W)
    (positive : Bool) (acc : Option Int) (unknown : Bool) :
    ∃ x, evalMembers v positive kind acc unknown ms = .ok x := by
  induction ms generalizing acc unknown with
  | nil => exact ⟨_, by rw [evalMembers]; rfl⟩
  | cons m ms ih =>
      obtain ⟨hm, hms⟩ := List.forall_mem_cons.mp h
      obtain ⟨condition, weight⟩ := m
      obtain ⟨g, hg⟩ := gain_eq_ok hv hm positive
      rw [evalMembers_cons, hg, Except.ok_bind]
      cases g with
      | absent | added _ | undecided => exact ih hms _ _
      | undefined => exact ⟨_, rfl⟩

end Evaluates

/-! ## Evaluation of what has been encoded -/

namespace Encoder

/-- An encoder over the vocabulary of a structure. -/
structure Over (e : Encoder) (S : Structure) : Prop extends Sound e where
  vocabulary : e.base.vocabulary = S.vocabulary

def Ensures (e : Encoder) (P : World → Prop) : Prop := ∀ α, e.solver.Admits α → P (e.world α)

variable {e e' : Encoder} {P Q : World → Prop}

theorem Over.later {S : Structure} (h : e.Over S) (hc : Constrained e e' P) : e'.Over S :=
  ⟨hc.sound, by rw [hc.base, h.vocabulary]⟩

/-- What holds of the worlds that are left later, without a new constraint, held of them before. -/
theorem Ensures.before (h : Ensures e' P) (hg : Grown e e') (he : Sound e) : Ensures e P := by
  intro α hα
  obtain ⟨β, hβα, hβ⟩ := hg.extend hα trivial
  have hP := h β hβ
  rwa [hg.world, he.world_congr hβα] at hP

/-- What holds of the worlds that are left still holds of those that a constraint leaves. -/
theorem Ensures.after (h : Ensures e P) (hc : Constrained e e' Q) : Ensures e' P := by
  intro α hα
  rw [hc.world]
  exact h α (hc.restrict hα).1

theorem Ensures.imp (h : Ensures e P) (hPQ : ∀ W, P W → Q W) : Ensures e Q :=
  fun α hα => hPQ _ (h α hα)

theorem Ensures.and (hP : Ensures e P) (hQ : Ensures e Q) : Ensures e fun W => P W ∧ Q W :=
  fun α hα =>
  ⟨hP α hα, hQ α hα⟩

end Encoder

theorem Encoding.of_lift_eq_ok {α : Type} {y : Except Failure α} {e e' : Encoder} {a : α}
    (h : Encoding.lift y e = (.ok a, e')) : y = .ok a ∧ e = e' := by
  cases y with
  | error failure => cases h
  | ok b =>
      cases h
      exact ⟨rfl, rfl⟩

section Encoded

variable {S : Structure}

theorem Term.evaluates_apply {W : World} {f : SymbolId} {args : List Term}
    (hfunction : S.isFunction f = true)
    (hsorted : (Term.apply f args).wellSorted S = true) (h : ∀ t ∈ args, t.Evaluates S W) :
    (Term.apply f args).Evaluates S W := by
  intro v hv positive
  obtain ⟨s, result, hs, hresult⟩ := Structure.exists_symbol_of_isFunction hfunction
  rw [Term.wellSorted, Bool.and_eq_true, hs] at hsorted
  obtain ⟨a, ha⟩ := evalArgs_eq_ok hv h positive
  obtain ⟨t, rfl, ht, -⟩ := evalArgs_decided hv args hsorted.1 hsorted.2 ha
  obtain ⟨e, -, he, -⟩ := hv.function hs hresult t (Structure.mem_product_of_elements ht)
  refine ⟨.known e, ?_⟩
  rw [evalTerm, ha, Except.ok_bind]
  dsimp only
  rw [he]
  rfl

theorem Formula.evaluates_junction {W : World} {sign conjunctive : Bool} {children : List Formula}
    (h : ∀ f ∈ children, f.Evaluates S W) :
    (Formula.junction sign conjunctive children).Evaluates S W := by
  intro v hv positive
  obtain ⟨y, hy⟩ := evalChildren_eq_ok hv h (positive == sign) conjunctive (.ofBool conjunctive)
  exact ⟨y.withSign sign, by rw [evalFormula, hy]; rfl⟩

mutual

theorem ensures_encodeFormula : ∀ (f : Formula) {e e' : Encoder} {l : Lit}, e.Over S →
    f.wellSorted S = true → encodeFormula f e = (.ok l, e') → Ensures e (f.Evaluates S)
  | .atom sign p args, e, e', l, h, hsorted, hrun => by
      rw [Formula.wellSorted, Bool.and_eq_true] at hsorted
      obtain ⟨_, _, hargs, -⟩ := bind_eq_ok (by rwa [encodeFormula] at hrun)
      refine (ensures_encodeTerms args h hsorted.2 hargs).imp fun W hW v hv positive => ?_
      obtain ⟨a, ha⟩ := evalArgs_eq_ok hv hW (positive == sign)
      rw [evalFormula, ha, Except.ok_bind]
      cases a <;> exact ⟨_, rfl⟩
  | .junction sign conjunctive children, e, e', l, h, hsorted, hrun => by
      rw [Formula.wellSorted] at hsorted
      obtain ⟨_, _, hchildren, -⟩ := bind_eq_ok (by rwa [encodeFormula] at hrun)
      exact (ensures_encodeFormulas children h hsorted hchildren).imp fun W =>
        Formula.evaluates_junction
  | .quantified _ _ _ _, e, e', l, h, hsorted, hrun => by
      rw [encodeFormula] at hrun
      cases hrun
  | .equivalence sign left right, e, e', l, h, hsorted, hrun => by
      rw [Formula.wellSorted, Bool.and_eq_true] at hsorted
      obtain ⟨_, e₁, hleft, hrun⟩ := bind_eq_ok (by rwa [encodeFormula] at hrun)
      obtain ⟨_, e₂, hright, -⟩ := bind_eq_ok hrun
      obtain ⟨hg, -⟩ := gives_encodeFormula left h.toSound _ _ hleft
      have hrest := ensures_encodeFormula right (h.later hg) hsorted.2 hright
      refine ((ensures_encodeFormula left h hsorted.1 hleft).and (hrest.before hg h.toSound)).imp ?_
      rintro W ⟨hl, hr⟩ v hv positive
      obtain ⟨a, ha⟩ := hl v hv (positive == sign)
      obtain ⟨b, hb⟩ := hr v hv (positive == sign)
      obtain ⟨c, hc⟩ := hl v hv !(positive == sign)
      obtain ⟨d, hd⟩ := hr v hv !(positive == sign)
      exact ⟨_, by rw [evalFormula, ha, hb, hc, hd]; rfl⟩
  | .comparison sign terms comparators, e, e', l, h, hsorted, hrun => by
      rw [Formula.wellSorted] at hsorted
      obtain ⟨_, e₁, hchain, hrun⟩ := bind_eq_ok (by rwa [encodeFormula] at hrun)
      obtain ⟨_, e₂, hterms, -⟩ := bind_eq_ok hrun
      obtain ⟨hchecked, rfl⟩ := of_lift_eq_ok hchain
      refine (ensures_encodeTerms terms h hsorted hterms).imp fun W hW v hv positive => ?_
      obtain ⟨xs, hxs⟩ := evalTerms_eq_ok hv hW (positive == sign)
      exact ⟨_, by rw [evalFormula, hchecked, Except.ok_bind, hxs]; rfl⟩

theorem ensures_encodeFormulas :
    ∀ (fs : List Formula) {e e' : Encoder} {lits : List Lit}, e.Over S →
    Formula.areWellSorted S fs = true → encodeFormulas fs e = (.ok lits, e') →
    Ensures e fun W => ∀ f ∈ fs, f.Evaluates S W
  | [], e, e', lits, h, hsorted, hrun => fun _ _ f hf => absurd hf List.not_mem_nil
  | f :: fs, e, e', lits, h, hsorted, hrun => by
      rw [Formula.areWellSorted, Bool.and_eq_true] at hsorted
      obtain ⟨_, e₁, hfirst, hrun⟩ := bind_eq_ok (by rwa [encodeFormulas] at hrun)
      obtain ⟨_, e₂, hrest, -⟩ := bind_eq_ok hrun
      obtain ⟨hg, -⟩ := gives_encodeFormula f h.toSound _ _ hfirst
      have hothers := ensures_encodeFormulas fs (h.later hg) hsorted.2 hrest
      refine ((ensures_encodeFormula f h hsorted.1 hfirst).and (hothers.before hg h.toSound)).imp
        fun W hW => ?_
      exact List.forall_mem_cons.mpr hW

theorem ensures_encodeTerm : ∀ (t : Term) {e e' : Encoder} {cases : Cases}, e.Over S →
    t.wellSorted S = true → encodeTerm t e = (.ok cases, e') → Ensures e (t.Evaluates S)
  | .var x, e, e', cases, h, hsorted, hrun => by
      rw [encodeTerm] at hrun
      cases hrun
  | .element x, e, e', cases, h, hsorted, hrun =>
    fun _ _ v hv positive => ⟨.known x, by rw [evalTerm]; rfl⟩
  | .apply f args, e, e', cases, h, hsorted, hrun => by
      obtain ⟨values, e₁, hvalues, hrun⟩ := bind_eq_ok (by rwa [encodeTerm] at hrun)
      obtain ⟨_, e₂, hargs, -⟩ := bind_eq_ok hrun
      obtain ⟨hg, hdomain⟩ := gives_resultValues f h.toSound _ _ hvalues
      obtain ⟨s, result, hs, hresult, -⟩ := Structure.exists_result_of_resultDomain hdomain
      rw [(h.later hg).vocabulary] at hs
      have hfunction : S.isFunction f = true := by
        rw [Structure.isFunction_of_symbol hs, Symbol.isFunction, hresult]
        rfl
      have hsorted' := hsorted
      rw [Term.wellSorted, Bool.and_eq_true] at hsorted'
      have hterms := ensures_encodeTerms args (h.later hg) hsorted'.2 hargs
      exact (hterms.before hg h.toSound).imp fun W hW => Term.evaluates_apply hfunction hsorted hW
  | .aggregate kind set, e, e', cases, h, hsorted, hrun => by
      rw [Term.wellSorted] at hsorted
      rw [encodeTerm] at hrun
      refine (ensures_encodeSet kind set h hsorted hrun).imp fun W hW v hv positive => ?_
      rw [evalTerm]
      exact hW v hv positive

theorem ensures_encodeTerms : ∀ (ts : List Term) {e e' : Encoder} {cases : List Cases}, e.Over S →
    Term.areWellSorted S ts = true → encodeTerms ts e = (.ok cases, e') →
    Ensures e fun W => ∀ t ∈ ts, t.Evaluates S W
  | [], e, e', cases, h, hsorted, hrun => fun _ _ t ht => absurd ht List.not_mem_nil
  | t :: ts, e, e', cases, h, hsorted, hrun => by
      rw [Term.areWellSorted, Bool.and_eq_true] at hsorted
      obtain ⟨_, e₁, hfirst, hrun⟩ := bind_eq_ok (by rwa [encodeTerms] at hrun)
      obtain ⟨_, e₂, hrest, -⟩ := bind_eq_ok hrun
      obtain ⟨hg, -⟩ := gives_encodeTerm t h.toSound _ _ hfirst
      have hothers := ensures_encodeTerms ts (h.later hg) hsorted.2 hrest
      refine ((ensures_encodeTerm t h hsorted.1 hfirst).and (hothers.before hg h.toSound)).imp
        fun W hW => ?_
      exact List.forall_mem_cons.mpr hW

theorem ensures_encodeSet :
    ∀ (kind : Aggregate) (set : SetExpr) {e e' : Encoder} {cases : Cases}, e.Over S →
    set.wellSorted S = true → encodeSet kind set e = (.ok cases, e') →
    Ensures e fun W => ∀ v : Valuation, v.Decides S W →
    ∀ positive, ∃ x, evalSet v positive kind set = .ok x
  | kind, .enumerated members, e, e', cases, h, hsorted, hrun => by
      rw [SetExpr.wellSorted] at hsorted
      obtain ⟨_, e₁, hread, hrun⟩ := bind_eq_ok (by rwa [encodeSet] at hrun)
      cases hread
      obtain ⟨states, e₂, hmembers, -⟩ := bind_eq_ok hrun
      have hall :=
        ensures_encodeMembers kind members h hsorted (denotes_identity h.toSound) hmembers
      refine hall.imp fun W hW v hv positive => ?_
      rw [evalSet]
      exact evalMembers_eq_ok hv hW positive _ _
  | kind, .comprehension _ _ _, e, e', cases, h, hsorted, hrun => by
      rw [encodeSet] at hrun
      cases hrun

theorem ensures_encodeMembers :
    ∀ (kind : Aggregate) (ms : List Member) {e e' : Encoder} {states states' : Partials}
    {s : World → Option (Option Int)}, e.Over S → SetExpr.areWellSorted S ms = true →
    Denotes e states.toList s → encodeMembers kind ms states e = (.ok states', e') →
    Ensures e fun W => ∀ m ∈ ms, Member.Evaluates S kind m W
  | kind, [], e, e', states, states', s, h, hsorted, hstates, hrun =>
      fun _ _ m hm => absurd hm List.not_mem_nil
  | kind, (condition, weight) :: ms, e, e', states, states', s, h, hsorted, hstates, hrun => by
      simp only [SetExpr.areWellSorted, Bool.and_eq_true] at hsorted
      obtain ⟨⟨hcsorted, hwsorted⟩, hmsorted⟩ := hsorted
      obtain ⟨present, e₁, hcondition, hrun⟩ := bind_eq_ok (by rwa [encodeMembers] at hrun)
      obtain ⟨hg₁, hpresent⟩ := gives_encodeFormula condition h.toSound _ _ hcondition
      have hfirst := ensures_encodeFormula condition h hcsorted hcondition
      have hrest : ∀ {e₂ weights}, Grown e₁ e₂ →
          Denotes e₂ weights (fun W => W.weight kind (W.value [] weight)) →
          (do encodeMembers kind ms (← addMember kind present weights states) :
            Encoding Partials) e₂ =
            (.ok states', e') → Ensures e fun W => ∀ m ∈ ms, Member.Evaluates S kind m W := by
        intro e₂ weights hg₂ hweights hrun
        obtain ⟨_, e₃, hadd, hrun⟩ := bind_eq_ok hrun
        obtain ⟨hg₃, hstates'⟩ := gives_addMember kind hg₂.sound (hpresent.mono hg₂) hweights
          ((hstates.mono hg₁).mono hg₂) _ _ hadd
        have hg := (hg₁.trans hg₂ h.toSound).trans hg₃ h.toSound
        exact (ensures_encodeMembers kind ms (h.later hg) hmsorted hstates' hrun).before
          hg h.toSound
      by_cases hkind : kind.usesWeights = true
      · simp only [if_pos hkind] at hrun
        obtain ⟨cases, e₂, hcases, hrun⟩ := bind_eq_ok hrun
        obtain ⟨weights, e₃, hlift, hrun⟩ := bind_eq_ok hrun
        obtain ⟨hints, rfl⟩ := of_lift_eq_ok hlift
        obtain ⟨hg₂, hdenotes⟩ := gives_encodeTerm weight hg₁.sound _ _ hcases
        have hweight :=
          (ensures_encodeTerm weight (h.later hg₁) hwsorted hcases).before hg₁ h.toSound
        have hint : Ensures e₂ fun W => ∀ x, W.value [] weight = some x → ∃ n, x = .int n := by
          intro α hα x hx
          obtain ⟨l, hl, -⟩ := (hdenotes.eq_some_iff hα).mp hx
          rw [weightCases_eq_ok hints] at hl
          obtain ⟨w, -, hw⟩ := List.mem_map.mp hl
          exact ⟨w.1, (congrArg Prod.fst hw).symm⟩
        have hall :=
          ((hfirst.and hweight).and (hint.before (hg₁.trans hg₂ h.toSound) h.toSound)).and
          (hrest hg₂ (denotes_weight hkind hdenotes hints) hrun)
        refine hall.imp ?_
        rintro W ⟨⟨⟨hc, hw⟩, hn⟩, hms⟩
        exact List.forall_mem_cons.mpr ⟨⟨hc, fun _ => ⟨hwsorted, hw, hn⟩⟩, hms⟩
      · simp only [if_neg hkind] at hrun
        obtain ⟨_, e₂, hread, hrun⟩ := bind_eq_ok hrun
        cases hread
        refine (hfirst.and (hrest (.refl hg₁.sound) (denotes_one hkind hg₁.sound _) hrun)).imp ?_
        rintro W ⟨hc, hms⟩
        exact List.forall_mem_cons.mpr ⟨⟨hc, fun hkind' => absurd hkind' hkind⟩, hms⟩

end

theorem Formula.wellSorted_of_areWellSorted {fs : List Formula}
    (h : Formula.areWellSorted S fs = true) :
    ∀ f ∈ fs, f.wellSorted S = true := by
  induction fs with
  | nil => simp
  | cons f fs ih =>
      rw [areWellSorted, Bool.and_eq_true] at h
      exact List.forall_mem_cons.mpr ⟨h.1, ih h.2⟩

theorem ensures_literal {f : Formula} {e e' : Encoder} (h : e.Over S)
    (hsorted : f.wellSorted S = true)
    (hrun : (do Encoding.clause [← encodeFormula f] : Encoding Unit) e = (.ok (), e')) :
    Ensures e' (f.Evaluates S) := by
  obtain ⟨l, e₁, hencode, -⟩ := bind_eq_ok hrun
  exact (ensures_encodeFormula f h hsorted hencode).after (asserts_literal f h.toSound e' hrun)

mutual

theorem ensures_assertFormula : ∀ (f : Formula) {e e' : Encoder}, e.Over S →
    f.wellSorted S = true → assertFormula f e = (.ok (), e') → Ensures e' (f.Evaluates S)
  | .junction true true children, e, e', h, hsorted, hrun => by
      rw [Formula.wellSorted] at hsorted
      rw [assertFormula] at hrun
      intro α hα
      refine Formula.evaluates_junction fun f hf => ?_
      exact ensures_assertFormulas children h hrun f hf
        (Formula.wellSorted_of_areWellSorted hsorted f hf) α hα
  | .junction true false children, e, e', h, hsorted, hrun => by
      rw [Formula.wellSorted] at hsorted
      have hconstrained := asserts_assertFormula (.junction true false children) h.toSound e' hrun
      obtain ⟨_, _, hchildren, -⟩ := bind_eq_ok (by rwa [assertFormula] at hrun)
      have hall := ensures_encodeFormulas children h hsorted hchildren
      exact (hall.imp fun W => Formula.evaluates_junction).after hconstrained
  | .junction false conjunctive children, e, e', h, hsorted, hrun =>
      ensures_literal h hsorted (by simpa only [assertFormula] using hrun)
  | .atom sign p args, e, e', h, hsorted, hrun =>
      ensures_literal h hsorted (by simpa only [assertFormula] using hrun)
  | .quantified sign universal vars body, e, e', h, hsorted, hrun =>
      ensures_literal h hsorted (by simpa only [assertFormula] using hrun)
  | .equivalence sign left right, e, e', h, hsorted, hrun =>
      ensures_literal h hsorted (by simpa only [assertFormula] using hrun)
  | .comparison sign terms comparators, e, e', h, hsorted, hrun =>
      ensures_literal h hsorted (by simpa only [assertFormula] using hrun)

theorem ensures_assertFormulas : ∀ (fs : List Formula) {e e' : Encoder}, e.Over S →
    assertFormulas fs e = (.ok (), e') → ∀ f ∈ fs, f.wellSorted S = true →
    Ensures e' (f.Evaluates S)
  | [], e, e', h, hrun => by simp
  | f :: fs, e, e', h, hrun => by
      obtain ⟨_, e₁, hfirst, hrest⟩ := bind_eq_ok (by rwa [assertFormulas] at hrun)
      have hc := asserts_assertFormula f h.toSound e₁ hfirst
      have hc' := asserts_assertFormulas fs hc.sound e' hrest
      rw [List.forall_mem_cons]
      exact ⟨fun hsorted => (ensures_assertFormula f h hsorted hfirst).after hc',
        ensures_assertFormulas fs (h.later hc) hrest⟩

end

/-- In the worlds that a theory leaves, its well-sorted sentences have a truth value. -/
theorem ensures_addTheory {T : Theory} {e e' : Encoder} (h : Decodable e)
    (hvocabulary : e.base.vocabulary = S.vocabulary)
    (hrun : addTheory T e = (.ok (), e')) {f : Formula} (hf : f ∈ T.sentences)
    (hsorted : f.wellSorted S = true) :
    Ensures e' (f.Evaluates S) := by
  obtain ⟨_, e₁, hsentences, hrun⟩ := bind_eq_ok hrun
  obtain ⟨_, e₂, hdefinitions, hfixpoints⟩ := bind_eq_ok hrun
  have hfirst := Constrained.leaves h (asserts_assertFormulas T.sentences h.sound e₁ hsentences)
  have hsecond := leaves_addDefinitions hfirst.decodable hdefinitions
  have hthird := leaves_addFixpoints hsecond.decodable hfixpoints
  have hlater := hsecond.trans hthird
  intro α hα
  rw [hlater.world]
  exact ensures_assertFormulas T.sentences ⟨h.sound, hvocabulary⟩ hsentences f hf hsorted α
    (hlater.restrict hα).1

end Encoded

end ModelExpansion
