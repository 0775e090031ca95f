import ModelExpansion.Proofs.Encoding.Formulas
import ModelExpansion.Proofs.Encoding.Replica

/-! # Encoding again on a replica
The encoding of formulas and terms does the same on an encoder and on its replicas, so what a
literal says does not depend on what was asserted. -/

namespace ModelExpansion

open ModelExpansion.Sat

namespace Encoding

open Encoder

/-- A computation that builds gates and asserts nothing. On a replica it has the same result,
whether it succeeds or not, and builds the same gates. -/
def Replays {α : Type} (x : Encoding α) (e : Encoder) : Prop :=
  ∃ cs, Builds e (x e).2 cs ∧ ∀ {e₀ replica ds}, Replica e₀ e replica ds →
    (x replica).1 = (x e).1 ∧ Replica e₀ (x e).2 (x replica).2 (ds ++ cs)

variable {α β : Type} {e : Encoder} {x : Encoding α} {f : α → Encoding β} {Q : Encoder → α → Prop}

/-- A computation that does not change the encoder. -/
theorem Replays.of_unchanged {r : Except Failure α} (hx : ∀ e', x e' = ((x e').1, e'))
    (he : (x e).1 = r)
    (hr : ∀ {e₀ replica ds}, Replica e₀ e replica ds → (x replica).1 = r) : Replays x e := by
  refine ⟨[], ?_, fun hreplica => ?_⟩
  · rw [hx]
    exact .refl
  · rw [hx e, hx, List.append_nil]
    exact ⟨(hr hreplica).trans he.symm, hreplica⟩

theorem Replays.pure (a : α) : Replays (Pure.pure a : Encoding α) e :=
  .of_unchanged (r := .ok a) (fun _ => rfl) rfl fun _ => rfl

theorem Replays.throw {failure : Failure} : Replays (MonadExcept.throw failure : Encoding α) e :=
  .of_unchanged (r := .error failure) (fun _ => rfl) rfl fun _ => rfl

theorem Replays.lift (y : Except Failure α) : Replays (Encoding.lift y) e :=
  .of_unchanged (r := y) (fun _ => rfl) rfl fun _ => rfl

theorem Replays.read {g : Encoder → α}
    (hg : ∀ {e₀ replica ds}, Replica e₀ e replica ds → g replica = g e) :
    Replays (Encoding.read g) e :=
  .of_unchanged (r := .ok (g e)) (fun _ => rfl) rfl fun h => congrArg Except.ok (hg h)

theorem bind_eq (x : Encoding α) (f : α → Encoding β) (e : Encoder) :
    (x >>= f) e = match x e with
      | (.ok a, e') => f a e'
      | (.error failure, e') => (.error failure, e') := by
  have hbind : (x >>= f) e = ExceptT.bindCont f (x e).1 (x e).2 := rfl
  rw [hbind]
  cases x e with
  | mk r e' => cases r <;> rfl

/-- What is computed first gives what the rest needs. -/
theorem Replays.bind (hx : Replays x e) (hgives : Gives x e Q)
    (hf : ∀ a e', Grown e e' → Sound e' → Q e' a → Replays (f a) e') : Replays (x >>= f) e := by
  obtain ⟨cs, hbuilds, hreplay⟩ := hx
  cases hrun : x e with
  | mk r e' =>
      rw [hrun] at hbuilds hreplay
      cases r with
      | error failure =>
          refine ⟨cs, by rwa [bind_eq, hrun], fun {e₀ replica ds} hreplica => ?_⟩
          obtain ⟨hsame, hnext⟩ := hreplay hreplica
          rw [bind_eq, bind_eq, hrun]
          cases hrun' : x replica with
          | mk r' replica' =>
              rw [hrun'] at hsame hnext
              cases hsame
              exact ⟨rfl, hnext⟩
      | ok a =>
          obtain ⟨hgrown, hq⟩ := hgives a e' hrun
          obtain ⟨cs', hbuilds', hreplay'⟩ := hf a e' hgrown hgrown.sound hq
          refine ⟨cs ++ cs', ?_, fun {e₀ replica ds} hreplica => ?_⟩
          · rw [bind_eq, hrun]
            exact hbuilds.trans hbuilds'
          · obtain ⟨hsame, hnext⟩ := hreplay hreplica
            rw [bind_eq, bind_eq, hrun]
            cases hrun' : x replica with
            | mk r' replica' =>
                rw [hrun'] at hsame hnext
                cases hsame
                rw [← List.append_assoc]
                exact hreplay' hnext

theorem Replays.grown (h : Sound e) (hx : Replays x e) : Grown e (x e).2 := by
  obtain ⟨cs, -, hreplay⟩ := hx
  exact (hreplay (.refl h)).2.grown

theorem Replays.gives (h : Sound e) (hx : Replays x e) : Gives x e fun _ _ => True := by
  intro r e' hr
  have hgrown := hx.grown h
  rw [hr] at hgrown
  exact ⟨hgrown, trivial⟩

theorem replays_mapM {xs : List α} (h : Sound e)
    (hf : ∀ a ∈ xs, ∀ e', Grown e e' → Sound e' → Replays (f a) e') :
    Replays (xs.mapM f) e := by
  induction xs generalizing e with
  | nil =>
      rw [List.mapM_nil]
      exact .pure []
  | cons a xs ih =>
      rw [List.mapM_cons]
      have ha := hf a List.mem_cons_self e (.refl h) h
      refine .bind ha (ha.gives h) fun b e₁ hg₁ h₁ _ => ?_
      have hrest := ih h₁ fun a ha e' hg => hf a (List.mem_cons_of_mem _ ha) e' (hg₁.trans hg h)
      exact .bind hrest (hrest.gives h₁) fun bs e₂ _ _ _ => .pure (b :: bs)

/-! ## Gates -/

theorem Replays.step {g : Encoder → Encoder × α} {cs : List (List Lit)}
    (hbuilds : Builds e (g e).1 cs) (hreplay : ∀ {e₀ replica ds}, Replica e₀ e replica ds →
      (g replica).2 = (g e).2 ∧ Replica e₀ (g e).1 (g replica).1 (ds ++ cs)) :
      Replays (Encoding.step g) e := by
  refine ⟨cs, hbuilds, fun hreplica => ?_⟩
  obtain ⟨hsame, hnext⟩ := hreplay hreplica
  exact ⟨congrArg Except.ok hsame, hnext⟩

theorem Replays.step_unchanged {g : Encoder → Encoder × α} {a : α} (he : g e = (e, a))
    (hr : ∀ {e₀ replica ds}, Replica e₀ e replica ds → g replica = (replica, a)) :
    Replays (Encoding.step g) e := by
  have hbuilds : Builds e (g e).1 [] := he ▸ .refl
  refine .step hbuilds fun hreplica => ?_
  rw [he, hr hreplica, List.append_nil]
  exact ⟨rfl, hreplica⟩

/-- A step that does what another one does on the encoder and its replicas. -/
theorem Replays.step_congr {g g' : Encoder → Encoder × α} (hx : Replays (Encoding.step g') e)
    (he : g e = g' e)
    (hr : ∀ {e₀ replica ds}, Replica e₀ e replica ds → g replica = g' replica) :
    Replays (Encoding.step g) e := by
  obtain ⟨cs, hbuilds, hreplay⟩ := hx
  have hrun : ∀ {e'}, g e' = g' e' → Encoding.step g e' = Encoding.step g' e' := fun heq => by
    rw [Encoding.step, Encoding.step, heq]
  refine ⟨cs, by rwa [hrun he], fun hreplica => ?_⟩
  rw [hrun he, hrun (hr hreplica)]
  exact hreplay hreplica

theorem replays_andGate (h : Sound e) {lits : List Lit}
    (hlits : ∀ l ∈ lits, l.var < e.solver.numVars) :
    Replays (Encoding.step (·.andGate lits)) e := by
  cases hg : e.gates[lits]? with
  | none =>
    exact .step (.conjunction .refl hg hlits) fun hreplica => hreplica.conjunction h hg hlits
  | some g =>
      refine .step (.reuse .refl hg) fun hreplica => ?_
      rw [List.append_nil]
      exact hreplica.reuse hg

section And

variable {lits sorted : List Lit} {l l' : Lit}

theorem and_of_falsity (h : lits.contains e.falsity = true) : e.and lits = (e, e.falsity) :=
  if_pos h

variable (h : ¬lits.contains e.falsity = true)
include h

theorem and_of_nil (hsorted : ascending (lits.filter (· != e.truth)) = []) :
    e.and lits = (e, e.truth) := by
  rw [Encoder.and, if_neg h, hsorted]

theorem and_of_singleton (hsorted : ascending (lits.filter (· != e.truth)) = [l]) :
    e.and lits = (e, l) := by
  rw [Encoder.and, if_neg h, hsorted]

theorem and_of_complement (hsorted : ascending (lits.filter (· != e.truth)) = l :: l' :: sorted)
    (hcomplement : hasComplement (l :: l' :: sorted) = true) : e.and lits = (e, e.falsity) := by
  rw [Encoder.and, if_neg h, hsorted]
  exact if_pos hcomplement

theorem and_of_no_complement (hsorted : ascending (lits.filter (· != e.truth)) = l :: l' :: sorted)
    (hcomplement : ¬hasComplement (l :: l' :: sorted) = true) :
    e.and lits = e.andGate (l :: l' :: sorted) := by
  rw [Encoder.and, if_neg h, hsorted]
  exact if_neg hcomplement

end And

theorem replays_and (h : Sound e) {lits : List Lit} (hlits : ∀ l ∈ lits, l.var < e.solver.numVars) :
    Replays (Encoding.and lits) e := by
  have hvars : ∀ l ∈ ascending (lits.filter (· != e.truth)), l.var < e.solver.numVars := fun l hl =>
    hlits l (List.mem_filter.mp (mem_ascending.mp hl)).1
  by_cases hfalsity : lits.contains e.falsity = true
  · refine .step_unchanged (and_of_falsity hfalsity) fun hreplica => ?_
    rw [← hreplica.falsity] at hfalsity ⊢
    exact and_of_falsity hfalsity
  have hopen : ∀ {e₀ replica ds}, Replica e₀ e replica ds → ¬lits.contains replica.falsity = true :=
    fun hreplica => by rwa [hreplica.falsity]
  have hsame : ∀ {e₀ replica ds}, Replica e₀ e replica ds →
      ascending (lits.filter (· != replica.truth)) = ascending (lits.filter (· != e.truth)) :=
    fun hreplica => by rw [hreplica.truth]
  cases hsorted : ascending (lits.filter (· != e.truth)) with
  | nil =>
      refine .step_unchanged (and_of_nil hfalsity hsorted) fun hreplica => ?_
      rw [← hreplica.truth]
      exact and_of_nil (hopen hreplica) ((hsame hreplica).trans hsorted)
  | cons l sorted =>
      cases sorted with
      | nil =>
          exact .step_unchanged (and_of_singleton hfalsity hsorted) fun hreplica =>
            and_of_singleton (hopen hreplica) ((hsame hreplica).trans hsorted)
      | cons l' sorted =>
          by_cases hcomplement : hasComplement (l :: l' :: sorted) = true
          · refine .step_unchanged (and_of_complement hfalsity hsorted hcomplement)
              fun hreplica => ?_
            rw [← hreplica.falsity]
            exact and_of_complement (hopen hreplica) ((hsame hreplica).trans hsorted) hcomplement
          · have hgate := and_of_no_complement hfalsity hsorted hcomplement
            rw [hsorted] at hvars
            exact (replays_andGate h hvars).step_congr hgate fun hreplica =>
              and_of_no_complement (hopen hreplica) ((hsame hreplica).trans hsorted) hcomplement

theorem replays_or (h : Sound e) {lits : List Lit} (hlits : ∀ l ∈ lits, l.var < e.solver.numVars) :
    Replays (Encoding.or lits) e := by
  have hnegated : ∀ l ∈ lits.map Lit.negate, l.var < e.solver.numVars := by
    intro l hl
    obtain ⟨x, hx, rfl⟩ := List.mem_map.mp hl
    rw [Lit.var_negate]
    exact hlits x hx
  obtain ⟨cs, hbuilds, hreplay⟩ := replays_and h hnegated
  refine .step hbuilds fun hreplica => ?_
  obtain ⟨hsame, hnext⟩ := hreplay hreplica
  exact ⟨congrArg Lit.negate (Except.ok.inj hsame), hnext⟩

theorem replays_iff (h : Sound e) {a b : Lit} (ha : a.var < e.solver.numVars)
    (hb : b.var < e.solver.numVars) :
    Replays (Encoding.iff a b) e := by
  have hiff : ∀ {e₀ replica ds}, Replica e₀ e replica ds → replica.iff a b =
      if a = e.truth then (replica, b)
      else if a = e.falsity then (replica, b.negate)
      else if b = e.truth then (replica, a)
      else if b = e.falsity then (replica, a.negate)
      else if a = b then (replica, e.truth)
      else if a = b.negate then (replica, e.falsity)
      else (replica.newGate.1.clauses (iffClauses replica.newGate.2 a b), replica.newGate.2) :=
    fun hreplica => by
      rw [Encoder.iff, hreplica.falsity, hreplica.truth]
  have hself := hiff (.refl h)
  by_cases hat : a = e.truth
  · simp only [if_pos hat] at hiff hself
    exact .step_unchanged hself hiff
  by_cases haf : a = e.falsity
  · simp only [if_neg hat, if_pos haf] at hiff hself
    exact .step_unchanged hself hiff
  by_cases hbt : b = e.truth
  · simp only [if_neg hat, if_neg haf, if_pos hbt] at hiff hself
    exact .step_unchanged hself hiff
  by_cases hbf : b = e.falsity
  · simp only [if_neg hat, if_neg haf, if_neg hbt, if_pos hbf] at hiff hself
    exact .step_unchanged hself hiff
  by_cases hab : a = b
  · simp only [if_neg hat, if_neg haf, if_neg hbt, if_neg hbf, if_pos hab] at hiff hself
    exact .step_unchanged hself hiff
  by_cases habn : a = b.negate
  · simp only [if_neg hat, if_neg haf, if_neg hbt, if_neg hbf, if_neg hab,
      if_pos habn] at hiff hself
    exact .step_unchanged hself hiff
  simp only [if_neg hat, if_neg haf, if_neg hbt, if_neg hbf, if_neg hab, if_neg habn] at hiff hself
  have hbuilds : Builds e (e.iff a b).1 (iffClauses e.newGate.2 a b) := by
    rw [hself]
    exact .equivalence .refl ha hb
  refine .step hbuilds fun hreplica => ?_
  rw [hself, hiff hreplica, hreplica.newGate_eq]
  exact ⟨rfl, hreplica.equivalence h ha hb⟩

/-! ## Terms -/

theorem replays_argumentCases {cases : List Cases} {vs : List (World → Option Element)}
    (h : Sound e)
    (hcases : List.Forall₂ (Denotes e) cases vs) : Replays (argumentCases cases) e := by
  refine replays_mapM h fun choice hc e' hg h' => ?_
  have hlt : ∀ l ∈ choice.map Prod.snd, l.var < e'.solver.numVars := fun l hl =>
    Nat.lt_of_lt_of_le (var_lt_of_mem_product hcases hc l hl) hg.numVars
  exact .bind (replays_and h' hlt) (gives_and h' hlt) fun l _ _ _ _ =>
    .pure (choice.map Prod.fst, l)

theorem replays_valueCases {κ : Type} {collected : List (κ × List Lit)} (h : Sound e)
    (hlt : ∀ c ∈ collected, ∀ l ∈ c.2, l.var < e.solver.numVars) :
    Replays (valueCases collected) e := by
  induction collected generalizing e with
  | nil => exact .pure []
  | cons c collected ih =>
      obtain ⟨k, lits⟩ := c
      obtain ⟨hlits, hrest⟩ := List.forall_mem_cons.mp hlt
      rw [valueCases]
      refine .bind (replays_or h hlits) (gives_or h hlits) fun l e₁ hg₁ h₁ _ => ?_
      have hread : Replays (Encoding.read Encoder.falsity) e₁ :=
        .read fun hreplica => hreplica.falsity
      refine .bind hread (hread.gives h₁) fun falsity e₂ hg₂ h₂ _ => ?_
      have hlt₂ : ∀ c ∈ collected, ∀ l ∈ c.2, l.var < e₂.solver.numVars := fun c hc x hx =>
        Nat.lt_of_lt_of_le (hrest c hc x hx) (hg₁.numVars.trans hg₂.numVars)
      exact .bind (ih h₂ hlt₂) ((ih h₂ hlt₂).gives h₂) fun others _ _ _ _ => .pure _

theorem replays_atomLit? (p : SymbolId) (t : Tuple) :
    Replays (Encoding.read fun e => e.atomLit? p t) e :=
  .read fun hreplica => hreplica.atomLit? p t

theorem gives_atomLit? (h : Sound e) (p : SymbolId) (t : Tuple) :
    Gives (Encoding.read fun e => e.atomLit? p t) e fun e' atom => atom = e'.atomLit? p t :=
  .read h rfl

theorem replays_guarded {p : SymbolId} {t : Tuple} {guard atom : Lit} (h : Sound e)
    (hguard : guard.var < e.solver.numVars) (hatom : e.atomLit? p t = some atom) :
    Replays (Encoding.and [guard, atom]) e := by
  apply replays_and h
  rw [List.forall_mem_cons, List.forall_mem_singleton]
  exact ⟨hguard, (means_atomLit h hatom).var_lt⟩

theorem replays_atomAlternatives {p : SymbolId} {choices : List (Tuple × Lit)} (h : Sound e)
    (hlt : ∀ c ∈ choices, c.2.var < e.solver.numVars) : Replays (atomAlternatives p choices) e := by
  induction choices generalizing e with
  | nil => exact .pure []
  | cons c choices ih =>
      obtain ⟨t, guard⟩ := c
      obtain ⟨hguard, hrest⟩ := List.forall_mem_cons.mp hlt
      rw [atomAlternatives]
      refine .bind (replays_atomLit? p t) (gives_atomLit? h p t) fun atom e₁ hg₁ h₁ hatom => ?_
      have hrest₁ : ∀ c ∈ choices, c.2.var < e₁.solver.numVars := fun c hc =>
        Nat.lt_of_lt_of_le (hrest c hc) hg₁.numVars
      cases atom with
      | none => exact ih h₁ hrest₁
      | some atom =>
          have hand := replays_guarded h₁ (Nat.lt_of_lt_of_le hguard hg₁.numVars) hatom.symm
          refine .bind hand (hand.gives h₁) fun l e₂ hg₂ h₂ _ => ?_
          have hrest₂ := ih h₂ fun c hc => Nat.lt_of_lt_of_le (hrest₁ c hc) hg₂.numVars
          exact .bind hrest₂ (hrest₂.gives h₂) fun lits _ _ _ _ => .pure (l :: lits)

theorem replays_graphRow {f : SymbolId} {values : List Element} {t : Tuple} {guard : Lit}
    (h : Sound e)
    (hguard : guard.var < e.solver.numVars) : Replays (graphRow f values t guard) e := by
  refine replays_mapM h fun v _ e₁ hg₁ h₁ => ?_
  refine .bind (replays_atomLit? f _) (gives_atomLit? h₁ f _) fun atom e₂ hg₂ h₂ hatom => ?_
  cases atom with
  | none => exact .pure none
  | some atom =>
      have hand :=
        replays_guarded h₂ (Nat.lt_of_lt_of_le hguard (hg₁.numVars.trans hg₂.numVars)) hatom.symm
      exact .bind hand (hand.gives h₂) fun l _ _ _ _ => .pure (some l)

theorem replays_applicationCases {f : SymbolId} {values : List Element} {args : List (Tuple × Lit)}
    (h : Sound e) (hlt : ∀ a ∈ args, a.2.var < e.solver.numVars) :
    Replays (applicationCases f values args) e := by
  have hrows : Replays (args.mapM fun a => graphRow f values a.1 a.2) e :=
    replays_mapM h fun a ha e' hg h' =>
    replays_graphRow h' (Nat.lt_of_lt_of_le (hlt a ha) hg.numVars)
  refine .bind hrows (gives_graphRows h hlt) fun rows e₁ _ h₁ hrows =>
    replays_valueCases h₁ fun c hc => ?_
  exact (List.forall₂_zip (offers_columns hrows) hc).var_lt

theorem replays_resultValues (f : SymbolId) (h : Sound e) : Replays (resultValues f) e := by
  have hread : Replays (Encoding.read Encoder.base) e := .read fun hreplica => hreplica.base
  exact .bind hread (hread.gives h) fun S _ _ _ _ => .lift _

theorem replays_link {c : Comparator} {left right : Cases} {u v : World → Option Element}
    (h : Sound e)
    (hleft : Denotes e left u) (hright : Denotes e right v) : Replays (link c left right) e := by
  have hlt : ∀ ab ∈ linkChoices c left right, ∀ l ∈ [ab.1, ab.2], l.var < e.solver.numVars :=
    fun _ hab =>
    var_lt_linkChoices hleft hright hab
  have hboth : Replays ((linkChoices c left right).mapM fun ab => Encoding.and [ab.1, ab.2]) e :=
    replays_mapM h fun ab hab e' hg h' =>
      replays_and h' fun l hl => Nat.lt_of_lt_of_le (hlt ab hab l hl) hg.numVars
  refine .bind hboth (gives_linkChoices h hlt) fun lits e₁ _ h₁ hlits => ?_
  exact replays_or h₁ (Offers.of_forall₂ hlits).var_lt

theorem replays_links {cases : List Cases} {vs : List (World → Option Element)}
    {cs : List Comparator}
    (h : Sound e) (hcases : List.Forall₂ (Denotes e) cases vs) : Replays (links cases cs) e := by
  induction cases generalizing e vs cs with
  | nil => exact .pure []
  | cons left cases ih =>
      cases hcases with
      | cons hu hrest =>
          cases hrest with
          | nil => exact .pure []
          | cons hv hrest =>
              cases cs with
              | nil => exact .pure []
              | cons c cs =>
                  rw [links]
                  refine .bind (replays_link h hu hv) (gives_link h hu hv) fun l e₁ hg₁ h₁ _ => ?_
                  have hlinks : Replays (links _ cs) e₁ :=
                    ih h₁ ((List.Forall₂.cons hv hrest).imp fun _ _ hd => hd.mono hg₁)
                  exact .bind hlinks (hlinks.gives h₁) fun lits _ _ _ _ => .pure (l :: lits)

/-! ## Aggregates -/

section Aggregates

variable {kind : Aggregate} {c : Collected} {R : Option Int → (Nat → Bool) → Prop}

theorem replays_extendPartial (kind : Aggregate) (acc : Option Int) {reached present : Lit}
    {weights : List (Int × Lit)} (h : Sound e) (hreached : reached.var < e.solver.numVars)
    (hpresent : present.var < e.solver.numVars)
    (hweights : ∀ w ∈ weights, w.2.var < e.solver.numVars) :
    Replays (extendPartial kind acc reached present weights c) e := by
  induction weights generalizing e c with
  | nil => exact .pure c
  | cons w weights ih =>
      obtain ⟨n, lw⟩ := w
      obtain ⟨hlw, hweights⟩ := List.forall_mem_cons.mp hweights
      have hlits : ∀ l ∈ [reached, present, lw], l.var < e.solver.numVars := by
        rw [List.forall_mem_cons, List.forall_mem_cons, List.forall_mem_singleton]
        exact ⟨hreached, hpresent, hlw⟩
      rw [extendPartial]
      refine .bind (replays_and h hlits) (gives_and h hlits) fun taken e₁ hg₁ h₁ _ => ?_
      have hlt := hg₁.numVars
      exact ih h₁ (Nat.lt_of_lt_of_le hreached hlt) (Nat.lt_of_lt_of_le hpresent hlt) fun w hw =>
        Nat.lt_of_lt_of_le (hweights w hw) hlt

theorem replays_extendPartials {states : List (Option Int × Lit)} {present : Lit}
    {weights : List (Int × Lit)}
    (h : Sound e) (hstates : ∀ s ∈ states, s.2.var < e.solver.numVars)
    (hpresent : present.var < e.solver.numVars)
    (hweights : ∀ w ∈ weights, w.2.var < e.solver.numVars) :
    Replays (extendPartials kind present weights states c) e := by
  induction states generalizing e c with
  | nil => exact .pure c
  | cons s states ih =>
      obtain ⟨acc, reached⟩ := s
      obtain ⟨hreached, hstates⟩ := List.forall_mem_cons.mp hstates
      have hlits : ∀ l ∈ [reached, present.negate], l.var < e.solver.numVars := by
        rw [List.forall_mem_cons, List.forall_mem_singleton, Lit.var_negate]
        exact ⟨hreached, hpresent⟩
      rw [extendPartials]
      refine .bind (replays_and h hlits) (gives_and h hlits) fun skipped e₁ hg₁ h₁ _ => ?_
      have hlt₁ := hg₁.numVars
      have hextend :
          Replays (extendPartial kind acc reached present weights (collect c acc skipped)) e₁ :=
        replays_extendPartial kind acc h₁ (Nat.lt_of_lt_of_le hreached hlt₁)
          (Nat.lt_of_lt_of_le hpresent hlt₁)
          fun w hw => Nat.lt_of_lt_of_le (hweights w hw) hlt₁
      refine .bind hextend (hextend.gives h₁) fun c₂ e₂ hg₂ h₂ _ => ?_
      have hlt₂ := hlt₁.trans hg₂.numVars
      exact ih h₂ (fun s hs => Nat.lt_of_lt_of_le (hstates s hs) hlt₂)
        (Nat.lt_of_lt_of_le hpresent hlt₂)
        fun w hw => Nat.lt_of_lt_of_le (hweights w hw) hlt₂

theorem replays_addMember (kind : Aggregate) {present : Lit} {weights : List (Int × Lit)}
    {states : Partials}
    {p : World → Bool} {w : World → Option Int} {s : World → Option (Option Int)} (h : Sound e)
    (hpresent : Means e present p) (hweights : Denotes e weights w)
    (hstates : Denotes e states.toList s) :
    Replays (addMember kind present weights states) e := by
  rw [addMember]
  refine .bind (replays_extendPartials h hstates.var_lt hpresent.var_lt hweights.var_lt)
    (gives_extendPartials h gathers_empty hstates.var_lt hpresent.var_lt hweights.var_lt)
    fun collected e₁ hg₁ h₁ hcollected => ?_
  have hlt : ∀ c ∈ collected.toList, ∀ l ∈ c.2, l.var < e₁.solver.numVars := by
    intro c hc
    rw [← getD_of_mem_toList hc]
    exact (hcollected c.1).var_lt
  exact .bind (replays_valueCases h₁ hlt) (gives_valueCases h₁ hlt) fun cases _ _ _ _ => .pure _

end Aggregates

/-! ## Formulas -/

theorem replays_truth : Replays (Encoding.read Encoder.truth) e :=
  .read fun hreplica => hreplica.truth

theorem gives_truth (h : Sound e) :
    Gives (Encoding.read Encoder.truth) e fun e' l => l = e'.truth := .read h rfl

end Encoding

open ModelExpansion.Encoder ModelExpansion.Encoding

mutual

theorem replays_encodeFormula : ∀ (f : Formula) {e : Encoder}, Sound e → Replays (encodeFormula f) e
  | .atom sign p args, e, h => by
      rw [encodeFormula]
      refine .bind (replays_encodeTerms args h) (gives_encodeTerms args h)
        fun cases e₁ _ h₁ hcases => ?_
      refine .bind (replays_argumentCases h₁ hcases) (gives_argumentCases h₁ hcases)
        fun choices e₂ _ h₂ hchoices => ?_
      refine .bind (replays_atomAlternatives h₂ hchoices.var_lt)
        (gives_atomAlternatives h₂ hchoices.var_lt)
        fun lits e₃ _ h₃ hlits => ?_
      exact .bind (replays_or h₃ hlits.var_lt) (gives_or h₃ hlits.var_lt) fun l _ _ _ _ => .pure _
  | .junction sign conjunctive children, e, h => by
      rw [encodeFormula]
      refine .bind (replays_encodeFormulas children h) (gives_encodeFormulas children h)
        fun lits e₁ _ h₁ hlits => ?_
      have hlt := var_lt_of_means hlits
      cases conjunctive with
      | true => exact .bind (replays_and h₁ hlt) (gives_and h₁ hlt) fun l _ _ _ _ => .pure _
      | false => exact .bind (replays_or h₁ hlt) (gives_or h₁ hlt) fun l _ _ _ _ => .pure _
  | .quantified _ _ _ _, e, h => by
      rw [encodeFormula]
      exact .throw
  | .equivalence sign left right, e, h => by
      rw [encodeFormula]
      refine .bind (replays_encodeFormula left h) (gives_encodeFormula left h)
        fun a e₁ _ h₁ ha => ?_
      refine .bind (replays_encodeFormula right h₁) (gives_encodeFormula right h₁)
        fun b e₂ hg₂ h₂ hb => ?_
      have ha₂ := (ha.mono hg₂).var_lt
      exact .bind (replays_iff h₂ ha₂ hb.var_lt) (gives_iff h₂ ha₂ hb.var_lt)
        fun l _ _ _ _ => .pure _
  | .comparison sign terms comparators, e, h => by
      rw [encodeFormula]
      refine .bind (.lift _) (.lift (Q := fun _ _ => True) h fun _ _ => trivial)
        fun _ e₀ _ h₀ _ => ?_
      refine .bind (replays_encodeTerms terms h₀) (gives_encodeTerms terms h₀)
        fun cases e₁ _ h₁ hcases => ?_
      refine .bind (replays_links h₁ hcases) (gives_links h₁ hcases) fun lits e₂ _ h₂ hlits => ?_
      exact .bind (replays_and h₂ hlits.1) (gives_and h₂ hlits.1) fun l _ _ _ _ => .pure _

theorem replays_encodeFormulas :
    ∀ (fs : List Formula) {e : Encoder}, Sound e → Replays (encodeFormulas fs) e
  | [], e, h => by
      rw [encodeFormulas]
      exact .pure []
  | f :: fs, e, h => by
      rw [encodeFormulas]
      refine .bind (replays_encodeFormula f h) (gives_encodeFormula f h) fun l e₁ _ h₁ _ => ?_
      exact .bind (replays_encodeFormulas fs h₁) (gives_encodeFormulas fs h₁)
        fun lits _ _ _ _ => .pure _

theorem replays_encodeTerm : ∀ (t : Term) {e : Encoder}, Sound e → Replays (encodeTerm t) e
  | .var x, e, h => by
      rw [encodeTerm]
      exact .throw
  | .element v, e, h => by
      rw [encodeTerm]
      exact .bind replays_truth (gives_truth h) fun l _ _ _ _ => .pure _
  | .apply f args, e, h => by
      rw [encodeTerm]
      refine .bind (replays_resultValues f h) (gives_resultValues f h) fun values e₁ _ h₁ _ => ?_
      refine .bind (replays_encodeTerms args h₁) (gives_encodeTerms args h₁)
        fun cases e₂ _ h₂ hcases => ?_
      refine .bind (replays_argumentCases h₂ hcases) (gives_argumentCases h₂ hcases)
        fun choices e₃ _ h₃ hchoices => ?_
      exact replays_applicationCases h₃ hchoices.var_lt
  | .aggregate kind set, e, h => by
      rw [encodeTerm]
      exact replays_encodeSet kind set h

theorem replays_encodeTerms : ∀ (ts : List Term) {e : Encoder}, Sound e → Replays (encodeTerms ts) e
  | [], e, h => by
      rw [encodeTerms]
      exact .pure []
  | t :: ts, e, h => by
      rw [encodeTerms]
      refine .bind (replays_encodeTerm t h) (gives_encodeTerm t h) fun c e₁ _ h₁ _ => ?_
      exact .bind (replays_encodeTerms ts h₁) (gives_encodeTerms ts h₁) fun cases _ _ _ _ => .pure _

theorem replays_encodeSet : ∀ (kind : Aggregate) (set : SetExpr) {e : Encoder}, Sound e →
    Replays (encodeSet kind set) e
  | kind, .enumerated members, e, h => by
      rw [encodeSet]
      refine .bind replays_truth (gives_truth h) fun l e₁ _ h₁ hl => ?_
      subst hl
      exact .bind (replays_encodeMembers kind members h₁ (denotes_identity h₁))
        (gives_encodeMembers kind members h₁ (denotes_identity h₁)) fun states _ _ _ _ => .pure _
  | kind, .comprehension _ _ _, e, h => by
      rw [encodeSet]
      exact .throw

theorem replays_encodeMembers :
    ∀ (kind : Aggregate) (ms : List Member) {e : Encoder} {states : Partials}
    {s : World → Option (Option Int)}, Sound e → Denotes e states.toList s →
    Replays (encodeMembers kind ms states) e
  | kind, [], e, states, s, h, hstates => by
      rw [encodeMembers]
      exact .pure states
  | kind, (condition, weight) :: ms, e, states, s, h, hstates => by
      rw [encodeMembers]
      refine .bind (replays_encodeFormula condition h) (gives_encodeFormula condition h)
        fun present e₁ hg₁ h₁ hpresent => ?_
      have hrest : ∀ {e₂ weights}, Grown e₁ e₂ → Sound e₂ →
          Denotes e₂ weights (fun W => W.weight kind (W.value [] weight)) →
          Replays (do encodeMembers kind ms (← addMember kind present weights states)) e₂ := by
        intro e₂ weights hg₂ h₂ hweights
        have hpresent₂ := hpresent.mono hg₂
        have hstates₂ := (hstates.mono hg₁).mono hg₂
        refine .bind (replays_addMember kind h₂ hpresent₂ hweights hstates₂)
          (gives_addMember kind h₂ hpresent₂ hweights hstates₂) fun states' e₃ _ h₃ hstates' => ?_
        exact replays_encodeMembers kind ms h₃ hstates'
      by_cases hkind : kind.usesWeights = true
      · simp only [if_pos hkind]
        refine .bind (replays_encodeTerm weight h₁) (gives_encodeTerm weight h₁)
          fun cases e₂ hg₂ h₂ hcases => ?_
        have hweights : Gives (lift (weightCases kind cases)) e₂ fun e' weights =>
            e' = e₂ ∧ weightCases kind cases = .ok weights := .lift h₂ fun _ hok => ⟨rfl, hok⟩
        refine .bind (.lift _) hweights fun weights e₃ _ h₃ hok => ?_
        obtain ⟨rfl, hok⟩ := hok
        exact hrest hg₂ h₃ (denotes_weight hkind hcases hok)
      · simp only [if_neg hkind]
        refine .bind replays_truth (gives_truth h₁) fun l e₂ hg₂ h₂ hl => ?_
        subst hl
        exact hrest hg₂ h₂ (denotes_one hkind h₂ _)

end

end ModelExpansion
