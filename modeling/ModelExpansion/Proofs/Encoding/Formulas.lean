import ModelExpansion.Proofs.Encoding.Aggregates

/-! # Encoding keeps the truth
The literal of a ground formula says whether the formula is true, and the cases of a ground term say
which value it has. -/

namespace ModelExpansion

open ModelExpansion.Sat ModelExpansion.Encoder ModelExpansion.Encoding

section Encode

variable {e : Encoder}

theorem holdsAt_eq_true_iff {W : World} {p : SymbolId} {args : List (Option Element)} :
    W.holdsAt p args = true ↔ ∃ t, args.mapM id = some t ∧ W.atom p t = true := by
  rw [World.holdsAt]
  cases args.mapM id with
  | none => simp
  | some t => simp

theorem map_values (ts : List Term) (W : World) :
    (ts.map fun t (W : World) => W.value [] t).map (fun v => v W) = W.values [] ts := by
  rw [World.values_eq_map, List.map_map]
  rfl

theorem map_truths (fs : List Formula) (W : World) :
    (fs.map fun f (W : World) => W.truth [] f).map (fun b => b W) = W.truths [] fs := by
  rw [World.truths_eq_map, List.map_map]
  rfl

theorem means_holdsAt {p : SymbolId} {args : List Term} {choices : List (Tuple × Lit)} {l : Lit}
    (hchoices : Denotes e choices (all (args.map fun t W => W.value [] t)))
    (hl : Says e l fun α => ∃ c ∈ choices, c.2.Holds α ∧ (e.world α).atom p c.1 = true) :
    Means e l fun W => W.holdsAt p (W.values [] args) := by
  refine hl.congr fun {α} hα => ?_
  have htuple := fun {t} => hchoices.eq_some_iff hα (k := t)
  simp only [all, map_values] at htuple
  rw [holdsAt_eq_true_iff]
  simp only [htuple]
  constructor
  · rintro ⟨⟨t, c⟩, hc, hholds, hatom⟩
    exact ⟨t, ⟨c, hc, hholds⟩, hatom⟩
  · rintro ⟨t, ⟨c, hc, hholds⟩, hatom⟩
    exact ⟨(t, c), hc, hholds, hatom⟩

theorem var_lt_of_means {lits : List Lit} {bs : List (World → Bool)}
    (h : List.Forall₂ (Means e) lits bs) :
    ∀ l ∈ lits, l.var < e.solver.numVars := by
  intro l hl
  obtain ⟨b, -, hb⟩ := exists_right_of_forall₂ h hl
  exact hb.var_lt

theorem gives_conjunction {fs : List Formula} {lits : List Lit} (h : Sound e)
    (hlits : List.Forall₂ (Means e) lits (fs.map fun f W => W.truth [] f)) :
    Gives (Encoding.and lits) e fun e' l => Means e' l fun W =>
      World.junction true (W.truths [] fs) := by
  refine (gives_and h (var_lt_of_means hlits)).weaken fun l e' hg hl => hl.congr fun {α} hα => ?_
  rw [forall_holds_iff hlits (hg.restrict hα).1, map_truths, hg.world]
  rfl

theorem gives_disjunction {fs : List Formula} {lits : List Lit} (h : Sound e)
    (hlits : List.Forall₂ (Means e) lits (fs.map fun f W => W.truth [] f)) :
    Gives (Encoding.or lits) e fun e' l => Means e' l fun W =>
      World.junction false (W.truths [] fs) := by
  refine (gives_or h (var_lt_of_means hlits)).weaken fun l e' hg hl => hl.congr fun {α} hα => ?_
  rw [exists_holds_iff hlits (hg.restrict hα).1, map_truths, hg.world]
  rfl

theorem denotes_weight {kind : Aggregate} (hkind : kind.usesWeights = true) {cases : Cases}
    {weights : List (Int × Lit)} {v : World → Option Element} (hcases : Denotes e cases v)
    (hweights : weightCases kind cases = .ok weights) :
    Denotes e weights fun W => W.weight kind (v W) := by
  refine (denotes_weights hweights hcases).congr fun {α} _ => ?_
  exact (if_pos hkind).symm

/-- Where weights do not matter, every member weighs one. -/
theorem denotes_one {kind : Aggregate} (hkind : ¬ kind.usesWeights = true) (h : Sound e)
    (v : World → Option Element) : Denotes e [(1, e.truth)] fun W => W.weight kind (v W) := by
  refine (denotes_certain h (1 : Int)).congr fun {α} _ => ?_
  exact (if_neg hkind).symm

theorem gives_resultValues (f : SymbolId) (h : Sound e) :
    Gives (resultValues f) e fun e' values => e'.base.resultDomain f = .ok values := by
  refine .bind h (.read (Q := fun e' base => base = e'.base) h rfl) fun base e₁ _ h₁ hbase => ?_
  exact .lift h₁ fun values hvalues => hbase ▸ hvalues

mutual

theorem gives_encodeFormula : ∀ (f : Formula) {e : Encoder}, Sound e →
    Gives (encodeFormula f) e fun e' l => Means e' l fun W => W.truth [] f
  | .atom sign p args, e, h => by
      rw [encodeFormula]
      refine .bind h (gives_encodeTerms args h) fun cases e₁ hg₁ h₁ hcases => ?_
      refine .bind h₁ (gives_argumentCases h₁ hcases) fun choices e₂ hg₂ h₂ hchoices => ?_
      refine .bind h₂ (gives_atomAlternatives h₂ hchoices.var_lt) fun lits e₃ hg₃ h₃ hlits => ?_
      refine .bind h₃ (gives_or h₃ hlits.var_lt) fun l e₄ hg₄ h₄ hl => .pure h₄ ?_
      simp only [World.truth]
      refine (means_holdsAt ((hchoices.mono hg₃).mono hg₄)
        (hl.congr fun {α} hα => ?_)).withSign sign
      rw [hlits.exists_iff (hg₄.restrict hα).1, hg₄.world, hg₃.world]
  | .junction sign conjunctive children, e, h => by
      rw [encodeFormula]
      refine .bind h (gives_encodeFormulas children h) fun lits e₁ hg₁ h₁ hlits => ?_
      simp only [World.truth]
      cases conjunctive with
      | true =>
        exact .bind h₁ (gives_conjunction h₁ hlits) fun l e₂ hg₂ h₂ hl =>
          .pure h₂ (hl.withSign sign)
      | false =>
        exact .bind h₁ (gives_disjunction h₁ hlits) fun l e₂ hg₂ h₂ hl =>
          .pure h₂ (hl.withSign sign)
  | .quantified _ _ _ _, e, h => by
      rw [encodeFormula]
      exact .throw
  | .equivalence sign left right, e, h => by
      rw [encodeFormula]
      refine .bind h (gives_encodeFormula left h) fun a e₁ hg₁ h₁ ha => ?_
      refine .bind h₁ (gives_encodeFormula right h₁) fun b e₂ hg₂ h₂ hb => ?_
      have ha₂ := ha.mono hg₂
      refine .bind h₂ (gives_iff h₂ ha₂.var_lt hb.var_lt) fun l e₃ hg₃ h₃ hl => .pure h₃ ?_
      simp only [World.truth]
      refine Means.withSign (b := fun W => W.truth [] left == W.truth [] right)
        (hl.congr fun hα => ?_) sign
      rw [(ha₂.mono hg₃).holds_iff hα, (hb.mono hg₃).holds_iff hα]
      exact Bool.eq_iff_iff.symm.trans beq_iff_eq.symm
  | .comparison sign terms comparators, e, h => by
      rw [encodeFormula]
      refine .bind h (.lift (Q := fun _ _ => True) h fun _ _ => trivial) fun _ e₀ hg₀ h₀ _ => ?_
      refine .bind h₀ (gives_encodeTerms terms h₀) fun cases e₁ hg₁ h₁ hcases => ?_
      refine .bind h₁ (gives_links h₁ hcases) fun lits e₂ hg₂ h₂ hlits => ?_
      refine .bind h₂ (gives_and h₂ hlits.1) fun l e₃ hg₃ h₃ hl => .pure h₃ ?_
      simp only [World.truth]
      refine Means.withSign (b := fun W => World.links (W.values [] terms) comparators)
        (hl.congr fun {α} hα => ?_) sign
      rw [hlits.2 (hg₃.restrict hα).1, hg₃.world, map_values]

theorem gives_encodeFormulas : ∀ (fs : List Formula) {e : Encoder}, Sound e →
    Gives (encodeFormulas fs) e fun e' lits =>
      List.Forall₂ (Means e') lits (fs.map fun f W => W.truth [] f)
  | [], e, h => by
      rw [encodeFormulas]
      exact .pure h .nil
  | f :: fs, e, h => by
      rw [encodeFormulas]
      refine .bind h (gives_encodeFormula f h) fun l e₁ hg₁ h₁ hl => ?_
      refine .bind h₁ (gives_encodeFormulas fs h₁) fun lits e₂ hg₂ h₂ hlits => ?_
      exact .pure h₂ (.cons (hl.mono hg₂) hlits)

theorem gives_encodeTerm : ∀ (t : Term) {e : Encoder}, Sound e →
    Gives (encodeTerm t) e fun e' cases => Denotes e' cases fun W => W.value [] t
  | .var x, e, h => by
      rw [encodeTerm]
      exact .throw
  | .element v, e, h => by
      rw [encodeTerm]
      refine .bind h (.read (Q := fun e' l => l = e'.truth) h rfl) fun l e₁ hg₁ h₁ hl => .pure h₁ ?_
      subst hl
      simp only [World.value]
      exact denotes_certain h₁ v
  | .apply f args, e, h => by
      rw [encodeTerm]
      simp only [World.value]
      refine .bind h (gives_resultValues f h) fun values e₁ hg₁ h₁ hvalues => ?_
      refine .bind h₁ (gives_encodeTerms args h₁) fun cases e₂ hg₂ h₂ hcases => ?_
      refine .bind h₂ (gives_argumentCases h₂ hcases) fun choices e₃ hg₃ h₃ hchoices => ?_
      have hbase : e₃.base = e₁.base := hg₃.base.trans hg₂.base
      refine (gives_applicationCases h₃ (hbase ▸ hvalues) hchoices).weaken
        fun cases e₄ _ hcases => ?_
      simpa only [all, map_values] using hcases
  | .aggregate kind set, e, h => by
      rw [encodeTerm]
      exact (gives_encodeSet kind set h).weaken fun cases e' _ hcases => by
        simpa only [World.value] using hcases

theorem gives_encodeTerms : ∀ (ts : List Term) {e : Encoder}, Sound e →
    Gives (encodeTerms ts) e fun e' cases =>
      List.Forall₂ (Denotes e') cases (ts.map fun t W => W.value [] t)
  | [], e, h => by
      rw [encodeTerms]
      exact .pure h .nil
  | t :: ts, e, h => by
      rw [encodeTerms]
      refine .bind h (gives_encodeTerm t h) fun c e₁ hg₁ h₁ hc => ?_
      refine .bind h₁ (gives_encodeTerms ts h₁) fun cases e₂ hg₂ h₂ hcases => ?_
      exact .pure h₂ (.cons (hc.mono hg₂) hcases)

theorem gives_encodeSet : ∀ (kind : Aggregate) (set : SetExpr) {e : Encoder}, Sound e →
    Gives (encodeSet kind set) e fun e' cases =>
      Denotes e' cases fun W => World.fold kind (W.members [] kind set)
  | kind, .enumerated members, e, h => by
      rw [encodeSet]
      refine .bind h (.read (Q := fun e' l => l = e'.truth) h rfl) fun l e₁ hg₁ h₁ hl => ?_
      subst hl
      refine .bind h₁ (gives_encodeMembers kind members h₁ (denotes_identity h₁))
        fun states e₂ hg₂ h₂ hstates => .pure h₂ ?_
      have hresult := denotes_resultCases hstates
      simpa only [World.members, World.fold_eq_foldl_take] using hresult
  | kind, .comprehension _ _ _, e, h => by
      rw [encodeSet]
      exact .throw

theorem gives_encodeMembers :
    ∀ (kind : Aggregate) (ms : List Member) {e : Encoder} {states : Partials}
    {s : World → Option (Option Int)}, Sound e → Denotes e states.toList s →
    Gives (encodeMembers kind ms states) e fun e' states' =>
      Denotes e' states'.toList fun W => (W.listed [] kind ms).foldl (World.take kind) (s W)
  | kind, [], e, states, s, h, hstates => by
      rw [encodeMembers]
      exact .pure h hstates
  | kind, (condition, weight) :: ms, e, states, s, h, hstates => by
      rw [encodeMembers]
      refine .bind h (gives_encodeFormula condition h) fun present e₁ hg₁ h₁ hpresent => ?_
      have hrest : ∀ {e₂ weights}, Grown e₁ e₂ → Sound e₂ →
          Denotes e₂ weights (fun W => W.weight kind (W.value [] weight)) →
          Gives (do encodeMembers kind ms (← addMember kind present weights states)) e₂
          fun e' states' =>
            Denotes e' states'.toList fun W =>
              (W.listed [] kind ((condition, weight) :: ms)).foldl (World.take kind) (s W) := by
        intro e₂ weights hg₂ h₂ hweights
        have hadd := gives_addMember kind h₂ (hpresent.mono hg₂) hweights
          ((hstates.mono hg₁).mono hg₂)
        refine .bind h₂ hadd fun states' e₃ _ h₃ hstates' => ?_
        refine (gives_encodeMembers kind ms h₃ hstates').weaken fun states'' e₄ _ hstates'' => ?_
        simpa only [World.listed, List.foldl_cons] using hstates''
      by_cases hkind : kind.usesWeights = true
      · simp only [if_pos hkind]
        refine .bind h₁ (gives_encodeTerm weight h₁) fun cases e₂ hg₂ h₂ hcases => ?_
        have hweights : Gives (lift (weightCases kind cases)) e₂ fun e' weights =>
            e' = e₂ ∧ weightCases kind cases = .ok weights := .lift h₂ fun _ hok => ⟨rfl, hok⟩
        refine .bind h₂ hweights fun weights e₃ _ h₃ hok => ?_
        obtain ⟨rfl, hok⟩ := hok
        exact hrest hg₂ h₃ (denotes_weight hkind hcases hok)
      · simp only [if_neg hkind]
        refine .bind h₁ (.read (Q := fun e' l => l = e'.truth) h₁ rfl) fun l e₂ hg₂ h₂ hl => ?_
        subst hl
        exact hrest hg₂ h₂ (denotes_one hkind h₂ _)

end

end Encode

end ModelExpansion
