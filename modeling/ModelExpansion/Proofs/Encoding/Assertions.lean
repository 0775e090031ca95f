import ModelExpansion.Encoding.Theory
import ModelExpansion.Proofs.Encoding.Formulas

/-! # Asserted formulas
Asserting formulas leaves exactly the worlds in which they are true. -/

namespace ModelExpansion

open ModelExpansion.Sat ModelExpansion.Encoder ModelExpansion.Encoding

/-- A computation that, when it succeeds, leaves exactly the worlds that satisfy a constraint. -/
def Encoding.Asserts (x : Encoding Unit) (e : Encoder) (P : World → Prop) : Prop :=
  ∀ e', x e = (.ok (), e') → Constrained e e' P

namespace Encoding

variable {e e' : Encoder} {P Q : World → Prop}

theorem Asserts.congr {x : Encoding Unit} (hx : Asserts x e P)
    (hPQ : ∀ W, P W ↔ Q W) : Asserts x e Q :=
  fun e' he' => (hx e' he').congr fun _ => hPQ _

/-- What is computed first restricts no world. -/
theorem Asserts.after {α : Type} {x : Encoding α} {f : α → Encoding Unit} {R : Encoder → α → Prop}
    (h : Sound e) (hx : Gives x e R)
    (hf : ∀ a e', Grown e e' → Sound e' → R e' a → Asserts (f a) e' P) :
    Asserts (x >>= f) e P := by
  intro e'' he''
  obtain ⟨a, e', ha, he''⟩ := bind_eq_ok he''
  obtain ⟨hg, hr⟩ := hx a e' ha
  exact (Constrained.trans hg (hf a e' hg hg.sound hr e'' he'') h).congr fun _ => by rw [true_and]

/-- One assertion after the other. -/
theorem Asserts.and {x y : Encoding Unit} (h : Sound e) (hx : Asserts x e P)
    (hy : ∀ e', Constrained e e' P → Asserts y e' Q) : Asserts (do x; y) e fun W => P W ∧ Q W := by
  intro e'' he''
  obtain ⟨_, e', ha, he''⟩ := bind_eq_ok he''
  have hc := hx e' ha
  exact hc.trans (hy e' hc e'' he'') h

theorem asserts_clause {lits : List Lit} (h : Sound e)
    (hlits : Offers e lits fun α => P (e.world α)) :
    Asserts (Encoding.clause lits) e P := by
  intro e' he'
  cases he'
  exact (adds_clause h.valid hlits.var_lt).constrained h hlits.exists_iff

end Encoding

section Assert

theorem asserts_literal (f : Formula) {e : Encoder} (h : Sound e) :
    Asserts (do Encoding.clause [← encodeFormula f]) e fun W => W.truth [] f = true := by
  refine .after h (gives_encodeFormula f h) fun l e' hg h' hl => asserts_clause h' ?_
  exact .singleton hl

theorem truth_conjunction (W : World) (fs : List Formula) :
    W.truth [] (.junction true true fs) = true ↔ ∀ f ∈ fs, W.truth [] f = true := by
  rw [World.truth, World.truths_eq_map, World.junction]
  simp

mutual

theorem asserts_assertFormula : ∀ (f : Formula) {e : Encoder}, Sound e →
    Asserts (assertFormula f) e fun W => W.truth [] f = true
  | .junction true true children, e, h => by
      rw [assertFormula]
      exact (asserts_assertFormulas children h).congr fun W => (truth_conjunction W children).symm
  | .junction true false children, e, h => by
      rw [assertFormula]
      refine .after h (gives_encodeFormulas children h) fun lits e' hg h' hlits =>
        asserts_clause h' ?_
      refine ⟨var_lt_of_means hlits, fun {α} hα => ?_⟩
      rw [exists_holds_iff hlits hα, map_truths, World.truth, beq_true]
      rfl
  | .junction false conjunctive children, e, h => by
      simp only [assertFormula]
      exact asserts_literal _ h
  | .atom sign p args, e, h => by
      simp only [assertFormula]
      exact asserts_literal _ h
  | .quantified sign universal vars body, e, h => by
      simp only [assertFormula]
      exact asserts_literal _ h
  | .equivalence sign left right, e, h => by
      simp only [assertFormula]
      exact asserts_literal _ h
  | .comparison sign terms comparators, e, h => by
      simp only [assertFormula]
      exact asserts_literal _ h

theorem asserts_assertFormulas : ∀ (fs : List Formula) {e : Encoder}, Sound e →
    Asserts (assertFormulas fs) e fun W => ∀ f ∈ fs, W.truth [] f = true
  | [], e, h => by
      rw [assertFormulas]
      intro e' he'
      cases he'
      exact (Grown.refl h).congr fun _ => by simp
  | f :: fs, e, h => by
      rw [assertFormulas]
      have hboth := (asserts_assertFormula f h).and h fun e' hc =>
        asserts_assertFormulas fs hc.sound
      exact hboth.congr fun W => by rw [List.forall_mem_cons]

end

end Assert

end ModelExpansion
