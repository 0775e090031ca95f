import ModelExpansion.Proofs.Encoding.Assertions
import ModelExpansion.Proofs.Encoding.Decoding
import ModelExpansion.Proofs.Encoding.Steps

/-! # Completion clauses
Adding ground rules leaves the worlds in which each atom of a symbol that heads a rule is true
exactly if some rule derives it. Symbols that head no ground rule are left alone. -/

namespace ModelExpansion

open ModelExpansion.Sat ModelExpansion.Encoder ModelExpansion.Encoding

/-- Whether the atoms in some tables are true exactly if they are derived, for the symbols that head
a rule. -/
def World.Completes (W : World) (S : Structure) (rules : List Rule) : Prop :=
  ∀ a, a.symbol ∈ headSymbols rules → S.InTables a →
    (W.atom a.symbol a.tuple = true ↔ W.Derives rules a)

/-! ## Bodies by head -/

theorem Rule.args_of_headTuple {r : Rule} {t : Tuple} (h : r.headTuple? = some t) :
    r.args = t.map Term.element := by
  rw [headTuple?] at h
  generalize r.args = args at h
  induction args generalizing t with
  | nil =>
      cases h
      rfl
  | cons x args ih =>
      rw [List.mapM_cons, Option.bind_eq_bind, Option.bind_eq_some_iff] at h
      obtain ⟨v, hv, h⟩ := h
      rw [Option.bind_eq_bind, Option.bind_eq_some_iff] at h
      obtain ⟨es, hes, h⟩ := h
      cases h
      cases x <;> cases hv
      rw [ih hes, List.map_cons]

/-- Bodies are collected of rules with literal heads and without variables. -/
theorem collectBodies_eq_ok {rules : List Rule} {bodies collected : Bodies}
    (h : collectBodies rules bodies = .ok collected) :
    (∀ r ∈ rules, r.vars = [] ∧ ∃ t, r.headTuple? = some t) ∧
      ∀ a f, f ∈ collected.getD a [] ↔
        f ∈ bodies.getD a [] ∨ ∃ r ∈ rules, r.head = a.symbol ∧ r.headTuple? = some a.tuple ∧
        r.body = f := by
  induction rules generalizing bodies with
  | nil =>
      cases h
      simp
  | cons r rules ih =>
      rw [collectBodies] at h
      split at h
      · cases h
      rename_i t ht
      split at h
      · rename_i hvars
        obtain ⟨hground, hmem⟩ := ih h
        refine ⟨List.forall_mem_cons.mpr ⟨⟨List.isEmpty_iff.mp hvars, t, ht⟩, hground⟩,
          fun a f => ?_⟩
        rw [hmem, Std.ExtTreeMap.getD_insert]
        split
        · rename_i heq
          obtain rfl := Std.LawfulEqCmp.eq_of_compare heq
          simp only [List.mem_cons, exists_eq_or_imp, ht]
          tauto
        · rename_i hne
          have hother : ¬ (r.head = a.symbol ∧ r.headTuple? = some a.tuple ∧ r.body = f) := by
            rintro ⟨hhead, htuple, -⟩
            apply hne
            rw [hhead, Option.some.inj (ht.symm.trans htuple)]
            exact Std.ReflCmp.compare_self
          simp only [List.mem_cons, exists_eq_or_imp, hother, false_or]
      · cases h

theorem derives_iff {rules : List Rule} {bodies : Bodies}
    (h : collectBodies rules ∅ = .ok bodies) {W : World}
    {a : Atom} : W.Derives rules a ↔ ∃ f ∈ bodies.getD a [], W.truth [] f = true := by
  obtain ⟨hground, hmem⟩ := collectBodies_eq_ok h
  have hcollected : ∀ f, f ∈ bodies.getD a [] ↔
      ∃ r ∈ rules, r.head = a.symbol ∧ r.headTuple? = some a.tuple ∧ r.body = f := fun f => by
    rw [hmem, Std.ExtTreeMap.getD_empty]
    simp
  simp only [hcollected, World.Derives]
  constructor
  · rintro ⟨r, hr, u, hu, hhead, hvalues, hbody⟩
    obtain ⟨hvars, t, ht⟩ := hground r hr
    rw [hvars] at hu hvalues hbody
    obtain rfl := List.mem_singleton.mp hu
    rw [Rule.args_of_headTuple ht, World.values_elements] at hvalues
    rw [List.map_injective_iff.mpr (Option.some_injective _) hvalues] at ht
    exact ⟨r.body, ⟨r, hr, hhead, ht, rfl⟩, hbody⟩
  · rintro ⟨f, ⟨r, hr, hhead, htuple, rfl⟩, hbody⟩
    obtain ⟨hvars, -⟩ := hground r hr
    refine ⟨r, hr, [], ?_, hhead, ?_, ?_⟩
    · rw [hvars]
      exact List.mem_singleton_self _
    · rw [Rule.args_of_headTuple htuple, World.values_elements]
    · rw [hvars]
      exact hbody

/-! ## Completion clauses -/

section Completion

variable {e e' : Encoder} {bodies : Bodies}

theorem gives_encodeBodies (bodies : Bodies) (a : Atom) (h : Sound e) :
    Gives (encodeBodies bodies a) e fun e' l => Means e' l fun W =>
      (bodies.getD a []).any (W.truth []) := by
  rw [encodeBodies, Std.ExtTreeMap.getD_eq_getD_getElem?]
  cases bodies[a]? with
  | none =>
      refine .read h ?_
      exact says_falsity h fun _ => by simp
  | some formulas =>
      refine .bind h (gives_encodeFormulas _ h) fun lits e₁ _ h₁ hlits => ?_
      refine (gives_disjunction h₁ hlits).weaken fun l e₂ _ hl => hl.congr fun {α} _ => ?_
      simp [World.truths_eq_map, World.junction]

/-- The first half of an equivalence. -/
theorem asserts_forward {a b : Lit} {P Q : World → Bool} (h : Sound e) (ha : Means e a P)
    (hb : Means e b Q) :
    Asserts (Encoding.clause [a.negate, b]) e fun W => P W = true → Q W = true := by
  have hlits := (Offers.singleton (Says.negate ha)).append (.singleton hb)
  exact asserts_clause h (hlits.congr fun _ => imp_iff_not_or.symm)

theorem asserts_backward {a b : Lit} {P Q : World → Bool} (h : Sound e) (ha : Means e a P)
    (hb : Means e b Q) :
    Asserts (Encoding.clause [a, b.negate]) e fun W => Q W = true → P W = true := by
  have hlits := (Offers.singleton ha).append (.singleton (Says.negate hb))
  exact asserts_clause h (hlits.congr fun _ => Or.comm.trans imp_iff_not_or.symm)

theorem asserts_completeTuples (bodies : Bodies) (p : SymbolId) (ts : List Tuple) (h : Sound e)
    (hts : ∀ t ∈ ts, (e.atomLit? p t).isSome = true) :
    Asserts (completeTuples bodies p ts) e fun W =>
      ∀ t ∈ ts, (W.atom p t = true ↔ (bodies.getD ⟨p, t⟩ []).any (W.truth []) = true) := by
  induction ts generalizing e with
  | nil =>
      intro e' he'
      cases he'
      exact (Grown.refl h).congr fun _ => by simp
  | cons t ts ih =>
      obtain ⟨ht, hts⟩ := List.forall_mem_cons.mp hts
      rw [completeTuples]
      have hread : Gives (Encoding.read fun e => e.atomLit? p t) e fun e' atom =>
          atom = e'.atomLit? p t :=
        .read h rfl
      refine .after h hread fun atom e₁ hg₁ h₁ hatom => ?_
      cases atom with
      | none =>
          rw [← hg₁.atomLit?, ← hatom] at ht
          cases ht
      | some atom =>
          have hatom₁ : Means e₁ atom fun W => W.atom p t := means_atomLit h₁ hatom.symm
          refine .after h₁ (gives_encodeBodies bodies ⟨p, t⟩ h₁) fun body e₂ hg₂ h₂ hbody => ?_
          have hatom₂ := hatom₁.mono hg₂
          have hall := (asserts_forward h₂ hatom₂ hbody).and h₂ fun e₃ hc₃ =>
            (asserts_backward hc₃.sound (hatom₂.mono hc₃) (hbody.mono hc₃)).and hc₃.sound
              fun e₄ hc₄ =>
              ih hc₄.sound fun t ht => by
                rw [hc₄.atomLit?, hc₃.atomLit?, hg₂.atomLit?, hg₁.atomLit?]
                exact hts t ht
          refine hall.congr fun W => ?_
          rw [List.forall_mem_cons]
          tauto

theorem asserts_completeSymbols (bodies : Bodies) (ps : List SymbolId) (h : Sound e)
    (hn : Numbers e) :
    Asserts (completeSymbols bodies ps) e fun W => ∀ p ∈ ps, ∀ t, e.base.InTables ⟨p, t⟩ →
      (W.atom p t = true ↔ (bodies.getD ⟨p, t⟩ []).any (W.truth []) = true) := by
  induction ps generalizing e with
  | nil =>
      intro e' he'
      cases he'
      exact (Grown.refl h).congr fun _ => by simp
  | cons p ps ih =>
      rw [completeSymbols]
      have hread : Gives (Encoding.read Encoder.base) e fun e' S => e' = e ∧ S = e.base :=
        .read h ⟨rfl, rfl⟩
      refine .after h hread fun S e₁ _ h₁ hS => ?_
      obtain ⟨rfl, rfl⟩ := hS
      have hlift : Gives (Encoding.lift (e₁.base.tuples p)) e₁ fun e' ts =>
          e' = e₁ ∧ e₁.base.tuples p = .ok ts :=
        .lift h₁ fun ts hts => ⟨rfl, hts⟩
      refine .after h₁ hlift fun ts e₂ _ h₂ hts => ?_
      obtain ⟨rfl, hts⟩ := hts
      have hmem : ∀ t, t ∈ ts ↔ e₂.base.InTables ⟨p, t⟩ := by
        intro t
        rw [Structure.tuples, Except.bind_eq_ok] at hts
        obtain ⟨domains, hdomains, hts⟩ := hts
        cases hts
        exact (Structure.inTables_iff_mem_product hdomains).symm
      have hsome : ∀ t ∈ ts, (e₂.atomLit? p t).isSome = true := by
        intro t ht
        obtain ⟨v, hv⟩ := hn.exists_var ((hmem t).mp ht)
        rw [Encoder.atomLit?, hn.index_iff.mpr hv]
        rfl
      have hall := (asserts_completeTuples bodies p ts h₂ hsome).and h₂ fun e₃ hc₃ =>
        (hc₃.base ▸ ih hc₃.sound (hn.later hc₃.same))
      refine hall.congr fun W => ?_
      rw [List.forall_mem_cons]
      simp only [hmem]

/-- Adding ground rules leaves the worlds in which the atoms that they define are those that they
derive. -/
theorem asserts_addCompletion (rules : List Rule) (h : Sound e) (hn : Numbers e) :
    Asserts (addCompletion rules) e fun W => W.Completes e.base rules := by
  have hlift : Gives (Encoding.lift (collectBodies rules ∅)) e fun e' bodies =>
      e' = e ∧ collectBodies rules ∅ = .ok bodies := .lift h fun bodies hbodies => ⟨rfl, hbodies⟩
  refine .after h hlift fun bodies e₁ _ h₁ hbodies => ?_
  obtain ⟨rfl, hbodies⟩ := hbodies
  refine (asserts_completeSymbols bodies (headSymbols rules) h₁ hn).congr fun W => ?_
  constructor
  · intro hall a hhead ha
    rw [derives_iff hbodies, hall a.symbol hhead a.tuple ha, List.any_eq_true]
  · intro hcompletes p hp t ht
    rw [hcompletes ⟨p, t⟩ hp ht, derives_iff hbodies, List.any_eq_true]

end Completion

/-! ## Theories -/

namespace Encoder

/-- Later on in an encoding, when definitions may have been kept to check models against: models can
be decoded, and the worlds that are left satisfy a constraint. -/
structure Leaves (e e' : Encoder) (P : World → Prop) : Prop where
  decodable : Decodable e'
  base : e'.base = e.base
  world : e'.world = e.world
  restrict : ∀ {α}, e'.solver.Admits α → e.solver.Admits α ∧ P (e.world α)

variable {e e' e'' : Encoder} {P Q : World → Prop}

theorem Constrained.leaves (h : Decodable e) (hc : Constrained e e' P) : Leaves e e' P :=
  ⟨h.constrained hc, hc.base, funext hc.world, hc.restrict⟩

namespace Leaves

theorem refl (h : Decodable e) : Leaves e e fun _ => True := ⟨h, rfl, rfl, fun hα => ⟨hα, trivial⟩⟩

theorem trans (h : Leaves e e' P) (h' : Leaves e' e'' Q) : Leaves e e'' fun W => P W ∧ Q W where
  decodable := h'.decodable
  base := h'.base.trans h.base
  world := h'.world.trans h.world
  restrict hα := by
    obtain ⟨hα, hQ⟩ := h'.restrict hα
    obtain ⟨hα, hP⟩ := h.restrict hα
    rw [h.world] at hQ
    exact ⟨hα, hP, hQ⟩

theorem congr (h : Leaves e e' P) (hPQ : ∀ W, P W ↔ Q W) : Leaves e e' Q :=
  ⟨h.decodable, h.base, h.world, fun hα => ⟨(h.restrict hα).1, (hPQ _).mp (h.restrict hα).2⟩⟩

theorem keep (h : Leaves e e' P) (Ds : List Definition) (Fs : List Fixpoint) :
    Leaves e { e' with definitions := Ds, fixpoints := Fs } P where
  decodable :=
    { sound := sound_keep h.decodable.sound Ds Fs
      numbers :=
      ⟨h.decodable.numbers.mem_iff, h.decodable.numbers.index_iff, h.decodable.numbers.inputs⟩
      listed := h.decodable.listed
      facts := h.decodable.facts
      functional := h.decodable.functional }
  base := h.base
  world := h.world
  restrict := h.restrict

end Leaves

end Encoder

section Theory

variable {e e' : Encoder}

theorem leaves_addCompletion {rules : List Rule} (h : Decodable e)
    (hrun : addCompletion rules e = (.ok (), e')) :
    Leaves e e' fun W => W.Completes e.base rules :=
  Constrained.leaves h (asserts_addCompletion rules h.sound h.numbers e' hrun)

theorem leaves_addDefinition {D : Definition} (h : Decodable e)
    (hrun : addDefinition D e = (.ok (), e')) :
    Leaves e e' fun W => W.Completes e.base D.rules := by
  obtain ⟨_, e₁, hcompletion, hrun⟩ := bind_eq_ok hrun
  have hleaves := leaves_addCompletion h hcompletion
  split at hrun
  · cases hrun
    exact hleaves.keep _ _
  · cases hrun
    exact hleaves

theorem leaves_addFixpoint {F : Fixpoint} (h : Decodable e)
    (hrun : addFixpoint F e = (.ok (), e')) :
    Leaves e e' fun W => W.Completes e.base F.allRules := by
  obtain ⟨_, e₁, hcompletion, hrun⟩ := bind_eq_ok hrun
  cases hrun
  exact (leaves_addCompletion h hcompletion).keep _ _

theorem leaves_addDefinitions {Ds : List Definition} (h : Decodable e)
    (hrun : addDefinitions Ds e = (.ok (), e')) :
    Leaves e e' fun W => ∀ D ∈ Ds, W.Completes e.base D.rules := by
  induction Ds generalizing e with
  | nil =>
      cases hrun
      exact (Leaves.refl h).congr fun _ => by simp
  | cons D Ds ih =>
      obtain ⟨_, e₁, hfirst, hrun⟩ := bind_eq_ok hrun
      have hleaves := leaves_addDefinition h hfirst
      have hrest := ih hleaves.decodable hrun
      rw [hleaves.base] at hrest
      exact (hleaves.trans hrest).congr fun _ => by rw [List.forall_mem_cons]

theorem leaves_addFixpoints {Fs : List Fixpoint} (h : Decodable e)
    (hrun : addFixpoints Fs e = (.ok (), e')) :
    Leaves e e' fun W => ∀ F ∈ Fs, W.Completes e.base F.allRules := by
  induction Fs generalizing e with
  | nil =>
      cases hrun
      exact (Leaves.refl h).congr fun _ => by simp
  | cons F Fs ih =>
      obtain ⟨_, e₁, hfirst, hrun⟩ := bind_eq_ok hrun
      have hleaves := leaves_addFixpoint h hfirst
      have hrest := ih hleaves.decodable hrun
      rw [hleaves.base] at hrest
      exact (hleaves.trans hrest).congr fun _ => by rw [List.forall_mem_cons]

/-- Adding a theory leaves only worlds in which its sentences are true and its definitions are
completed. -/
theorem leaves_addTheory {T : Theory} (h : Decodable e) (hrun : addTheory T e = (.ok (), e')) :
    Leaves e e' fun W => (∀ f ∈ T.sentences, W.truth [] f = true) ∧
      (∀ D ∈ T.definitions, W.Completes e.base D.rules) ∧
      ∀ F ∈ T.fixpoints, W.Completes e.base F.allRules := by
  obtain ⟨_, e₁, hsentences, hrun⟩ := bind_eq_ok hrun
  obtain ⟨_, e₂, hdefinitions, hfixpoints⟩ := bind_eq_ok hrun
  have hfirst := Constrained.leaves h (asserts_assertFormulas T.sentences h.sound e₁ hsentences)
  have hsecond := leaves_addDefinitions hfirst.decodable hdefinitions
  have hthird := leaves_addFixpoints hsecond.decodable hfixpoints
  rw [hsecond.base] at hthird
  rw [hfirst.base] at hsecond hthird
  exact hfirst.trans (hsecond.trans hthird)

end Theory

end ModelExpansion
