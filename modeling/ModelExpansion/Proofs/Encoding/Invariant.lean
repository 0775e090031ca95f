import ModelExpansion.Encoding.Gate
import ModelExpansion.Proofs.Sat.Admission
import ModelExpansion.Proofs.Tables

/-! # What an encoding keeps
An encoder only ever defines new variables or constrains the worlds that its atom variables
describe. -/

namespace ModelExpansion

open ModelExpansion.Sat

/-- A map made from a list holds the list, if no key is repeated. -/
theorem getElem?_ofList_eq_some_iff {α β : Type} [DecidableEq α] [Ord α] [Std.TransOrd α]
    [Std.LawfulEqOrd α] {l : List (α × β)} (h : (l.map Prod.fst).Nodup) {k : α} {v : β} :
    (Std.ExtTreeMap.ofList l)[k]? = some v ↔ (k, v) ∈ l := by
  have hdistinct : l.Pairwise fun a b => ¬ compare a.1 b.1 = .eq := by
    refine (List.pairwise_map.mp h).imp fun hne heq => hne ?_
    exact Std.LawfulEqCmp.eq_of_compare heq
  have hmem : ∀ {v}, (k, v) ∈ l → (Std.ExtTreeMap.ofList l)[k]? = some v := fun hv =>
    Std.ExtTreeMap.getElem?_ofList_of_mem (Std.ReflCmp.compare_self) hdistinct hv
  constructor
  · intro hv
    have hk : k ∈ Std.ExtTreeMap.ofList l := by
      rw [Std.ExtTreeMap.mem_iff_isSome_getElem?, hv]
      rfl
    rw [Std.ExtTreeMap.mem_ofList, List.contains_iff_mem] at hk
    obtain ⟨⟨k', v'⟩, hv', rfl⟩ := List.mem_map.mp hk
    rw [hmem hv'] at hv
    cases hv
    exact hv'
  · exact hmem

/-- No function has two values at the same arguments. -/
def World.SingleValued (W : World) : Prop :=
  ∀ f t v v', v ∈ W.results f → v' ∈ W.results f → W.atom f (t ++ [v]) = true →
    W.atom f (t ++ [v']) = true → v = v'

namespace Encoder

/-- The truth of the atoms under an assignment; an atom without a variable is false. -/
def interpretation (e : Encoder) (α : Nat → Bool) (a : Atom) : Bool :=
  match e.index[a]? with
  | some v => α v
  | none => false

/-- The world that an assignment describes. -/
def world (e : Encoder) (α : Nat → Bool) : World := e.base.worldOf (e.interpretation α)

/-- What holds of an encoder between two steps. -/
structure Sound (e : Encoder) : Prop where
  valid : e.solver.Valid
  index_lt : ∀ {a : Atom} {v}, e.index[a]? = some v → v < e.solver.numVars
  truth_lt : e.truth.var < e.solver.numVars
  truth : ∀ {α}, e.solver.Admits α → e.truth.Holds α
  single : ∀ {α}, e.solver.Admits α → (e.world α).SingleValued
  gates_lt : ∀ {lits : List Lit} {g}, e.gates[lits]? = some g → g.var < e.solver.numVars
  gates : ∀ {lits : List Lit} {g}, e.gates[lits]? = some g → ∀ {α}, e.solver.Admits α →
    (g.Holds α ↔ ∀ l ∈ lits, l.Holds α)

/-- Later on in an encoding: the worlds that are left satisfy a constraint, and all that do are
left. -/
structure Constrained (e e' : Encoder) (P : World → Prop) : Prop where
  same : e' = { e with solver := e'.solver, gates := e'.gates, stats := e'.stats }
  config : e'.solver.config = e.solver.config
  monitor : e.solver.monitor.Follows e'.solver.monitor
  numVars : e.solver.numVars ≤ e'.solver.numVars
  sound : Sound e'
  restrict : ∀ {α}, e'.solver.Admits α → e.solver.Admits α ∧ P (e.world α)
  extend : ∀ {α}, e.solver.Admits α → P (e.world α) →
    ∃ β : Nat → Bool, (∀ v < e.solver.numVars, β v = α v) ∧ e'.solver.Admits β

def Grown (e e' : Encoder) : Prop := Constrained e e' fun _ => True

variable {e e' e'' : Encoder} {P Q : World → Prop}

/-- Assignments that agree on the variables of an encoder describe the same world. -/
theorem Sound.world_congr (h : Sound e) {α β : Nat → Bool}
    (hαβ : ∀ v < e.solver.numVars, α v = β v) :
    e.world α = e.world β := by
  have hinterpretation : e.interpretation α = e.interpretation β := by
    funext a
    rw [interpretation, interpretation]
    cases hv : e.index[a]? with
    | none => rfl
    | some v => exact hαβ v (h.index_lt hv)
  rw [world, hinterpretation, world]

/-- Later on only the solver may be another, with more variables and fewer assignments. -/
theorem Sound.later (h : Sound e) (hsame : e' = { e with solver := e'.solver, stats := e'.stats })
    (hvalid : e'.solver.Valid) (hle : e.solver.numVars ≤ e'.solver.numVars)
    (hadmits : ∀ {α}, e'.solver.Admits α → e.solver.Admits α) : Sound e' := by
  have hindex : e'.index = e.index := by rw [hsame]
  have htruth : e'.truth = e.truth := by rw [hsame]
  have hgates : e'.gates = e.gates := by rw [hsame]
  have hworld : e'.world = e.world := by
    rw [hsame]
    rfl
  constructor
  · exact hvalid
  · intro a v hv
    rw [hindex] at hv
    exact Nat.lt_of_lt_of_le (h.index_lt hv) hle
  · rw [htruth]
    exact Nat.lt_of_lt_of_le h.truth_lt hle
  · intro α hα
    rw [htruth]
    exact h.truth (hadmits hα)
  · intro α hα
    rw [hworld]
    exact h.single (hadmits hα)
  · intro lits g hg
    rw [hgates] at hg
    exact Nat.lt_of_lt_of_le (h.gates_lt hg) hle
  · intro lits g hg α hα
    rw [hgates] at hg
    exact h.gates hg (hadmits hα)

namespace Constrained

theorem base (h : Constrained e e' P) : e'.base = e.base := by rw [h.same]

theorem truth_eq (h : Constrained e e' P) : e'.truth = e.truth := by rw [h.same]

theorem falsity (h : Constrained e e' P) : e'.falsity = e.falsity := by
  rw [Encoder.falsity, Encoder.falsity, h.truth_eq]

theorem atomLit? (h : Constrained e e' P) (p : SymbolId) (t : Tuple) :
    e'.atomLit? p t = e.atomLit? p t := by
  rw [h.same]
  rfl

theorem world (h : Constrained e e' P) (α : Nat → Bool) : e'.world α = e.world α := by
  rw [h.same]
  rfl

theorem trans (h : Constrained e e' P) (h' : Constrained e' e'' Q) (he : Sound e) :
    Constrained e e'' fun W => P W ∧ Q W where
  same := by rw [h'.same, h.same]
  config := h'.config.trans h.config
  monitor := h.monitor.trans h'.monitor
  numVars := h.numVars.trans h'.numVars
  sound := h'.sound
  restrict hα := by
    obtain ⟨hα, hQ⟩ := h'.restrict hα
    obtain ⟨hα, hP⟩ := h.restrict hα
    rw [h.world] at hQ
    exact ⟨hα, hP, hQ⟩
  extend hα hPQ := by
    obtain ⟨β, hαβ, hβ⟩ := h.extend hα hPQ.1
    have hworld : e'.world β = e.world _ := (h.world β).trans (he.world_congr hαβ)
    obtain ⟨γ, hβγ, hγ⟩ := h'.extend hβ (hworld ▸ hPQ.2)
    exact ⟨γ, fun v hv => (hβγ v (Nat.lt_of_lt_of_le hv h.numVars)).trans (hαβ v hv), hγ⟩

theorem congr (h : Constrained e e' P)
    (hPQ : ∀ {α}, e.solver.Admits α → (P (e.world α) ↔ Q (e.world α))) :
    Constrained e e' Q where
  same := h.same
  config := h.config
  monitor := h.monitor
  numVars := h.numVars
  sound := h.sound
  restrict hα := by
    obtain ⟨hα, hP⟩ := h.restrict hα
    exact ⟨hα, (hPQ hα).mp hP⟩
  extend hα hQ := h.extend hα ((hPQ hα).mpr hQ)

end Constrained

theorem Grown.refl (h : Sound e) : Grown e e :=
  ⟨rfl, rfl, .refl _, Nat.le_refl _, h, fun hα => ⟨hα, trivial⟩,
    fun {α} hα _ => ⟨α, fun _ _ => rfl, hα⟩⟩

theorem Grown.trans (h : Grown e e') (h' : Grown e' e'') (he : Sound e) : Grown e e'' :=
  (Constrained.trans h h' he).congr fun _ => by simp

/-! ## Literals and cases -/

/-- A literal that says whether something holds of an assignment. -/
structure Says (e : Encoder) (l : Lit) (P : (Nat → Bool) → Prop) : Prop where
  var_lt : l.var < e.solver.numVars
  holds_iff : ∀ {α}, e.solver.Admits α → (l.Holds α ↔ P α)

/-- Cases that say which value something has under an assignment, if it has one. -/
structure Tells {κ : Type} (e : Encoder) (cases : List (κ × Lit))
    (v : (Nat → Bool) → Option κ) : Prop where
  var_lt : ∀ c ∈ cases, c.2.var < e.solver.numVars
  eq_some_iff : ∀ {α}, e.solver.Admits α → ∀ {k}, v α = some k ↔ ∃ l, (k, l) ∈ cases ∧ l.Holds α

theorem Says.mono {l : Lit} {A : (Nat → Bool) → Prop} (h : Says e l A) (hg : Constrained e e' P) :
    Says e' l A :=
  ⟨Nat.lt_of_lt_of_le h.var_lt hg.numVars, fun hα => h.holds_iff (hg.restrict hα).1⟩

theorem Tells.mono {κ : Type} {cases : List (κ × Lit)} {v : (Nat → Bool) → Option κ}
    (h : Tells e cases v) (hg : Constrained e e' P) : Tells e' cases v :=
  ⟨fun c hc => Nat.lt_of_lt_of_le (h.var_lt c hc) hg.numVars,
    fun hα => h.eq_some_iff (hg.restrict hα).1⟩

theorem Tells.congr {κ : Type} {cases : List (κ × Lit)} {v w : (Nat → Bool) → Option κ}
    (h : Tells e cases v) (hvw : ∀ {α}, e.solver.Admits α → v α = w α) : Tells e cases w :=
  ⟨h.var_lt, fun hα => hvw hα ▸ h.eq_some_iff hα⟩

theorem Says.congr {l : Lit} {A B : (Nat → Bool) → Prop} (h : Says e l A)
    (hAB : ∀ {α}, e.solver.Admits α → (A α ↔ B α)) : Says e l B :=
  ⟨h.var_lt, fun hα => (h.holds_iff hα).trans (hAB hα)⟩

theorem Says.negate {l : Lit} {A : (Nat → Bool) → Prop} (h : Says e l A) :
    Says e l.negate fun α => ¬ A α := by
  refine ⟨?_, fun hα => ?_⟩
  · rw [Lit.var_negate]
    exact h.var_lt
  · rw [Lit.holds_negate, h.holds_iff hα]

/-- A literal that says whether something holds in the world. -/
def Means (e : Encoder) (l : Lit) (b : World → Bool) : Prop :=
  Says e l fun α => b (e.world α) = true

/-- Cases that say which value something has in the world. -/
def Denotes {κ : Type} (e : Encoder) (cases : List (κ × Lit)) (v : World → Option κ) : Prop :=
  Tells e cases fun α => v (e.world α)

theorem Means.mono {l : Lit} {b : World → Bool} (h : Means e l b) (hg : Constrained e e' P) :
    Means e' l b := by
  have hmono := Says.mono h hg
  rwa [Means, show e'.world = e.world from funext hg.world]

theorem Denotes.mono {κ : Type} {cases : List (κ × Lit)} {v : World → Option κ}
    (h : Denotes e cases v) (hg : Constrained e e' P) : Denotes e' cases v := by
  have hmono := Tells.mono h hg
  rwa [Denotes, show e'.world = e.world from funext hg.world]

theorem Means.withSign {l : Lit} {b : World → Bool} (h : Means e l b) (sign : Bool) :
    Means e (if sign then l else l.negate) fun W => b W == sign := by
  cases sign with
  | true => exact Says.congr h fun _ => by simp
  | false => exact (Says.negate h).congr fun _ => by simp

theorem forall_holds_iff {lits : List Lit} {bs : List (World → Bool)} {α : Nat → Bool}
    (h : List.Forall₂ (Means e) lits bs) (hα : e.solver.Admits α) :
    (∀ l ∈ lits, l.Holds α) ↔ (bs.map fun b => b (e.world α)).all id = true := by
  induction h with
  | nil => simp
  | cons hl _ ih => simp [hl.holds_iff hα, ih]

theorem exists_holds_iff {lits : List Lit} {bs : List (World → Bool)} {α : Nat → Bool}
    (h : List.Forall₂ (Means e) lits bs) (hα : e.solver.Admits α) :
    (∃ l ∈ lits, l.Holds α) ↔ (bs.map fun b => b (e.world α)).any id = true := by
  induction h with
  | nil => simp
  | cons hl _ ih => simp [hl.holds_iff hα, ih]

end Encoder

/-! ## Computations on an encoder -/

namespace Encoding

open Encoder

variable {α β : Type}

/-- What a computation gives when it succeeds: the encoder has only grown. -/
def Gives (x : Encoding α) (e : Encoder) (Q : Encoder → α → Prop) : Prop :=
  ∀ r e', x e = (.ok r, e') → Grown e e' ∧ Q e' r

theorem bind_eq_ok {x : Encoding α} {f : α → Encoding β} {e e'' : Encoder} {r : β}
    (h : (x >>= f) e = (.ok r, e'')) : ∃ a e', x e = (.ok a, e') ∧ f a e' = (.ok r, e'') := by
  have hbind : (x >>= f) e = ExceptT.bindCont f (x e).1 (x e).2 := rfl
  rw [hbind] at h
  cases hx : x e with
  | mk a e' =>
      rw [hx] at h
      cases a with
      | error failure => cases h
      | ok a => exact ⟨a, e', rfl, h⟩

variable {e : Encoder} {x : Encoding α} {f : α → Encoding β} {Q : Encoder → α → Prop}
  {R : Encoder → β → Prop}

theorem Gives.bind (h : Sound e) (hx : Gives x e Q)
    (hf : ∀ a e', Grown e e' → Sound e' → Q e' a → Gives (f a) e' R) : Gives (x >>= f) e R := by
  intro r e'' hr
  obtain ⟨a, e', ha, hr⟩ := bind_eq_ok hr
  obtain ⟨hg, hq⟩ := hx a e' ha
  obtain ⟨hg', hr⟩ := hf a e' hg hg.sound hq r e'' hr
  exact ⟨hg.trans hg' h, hr⟩

theorem Gives.pure (h : Sound e) {a : α} (ha : Q e a) : Gives (Pure.pure a : Encoding α) e Q := by
  intro r e' hr
  cases hr
  exact ⟨.refl h, ha⟩

theorem Gives.throw {failure : Failure} : Gives (MonadExcept.throw failure : Encoding α) e Q := by
  intro r e' hr
  cases hr

theorem Gives.read (h : Sound e) {g : Encoder → α} (ha : Q e (g e)) :
    Gives (Encoding.read g) e Q := by
  intro r e' hr
  cases hr
  exact ⟨.refl h, ha⟩

theorem Gives.lift (h : Sound e) {y : Except Failure α} (ha : ∀ a, y = .ok a → Q e a) :
    Gives (Encoding.lift y) e Q := by
  intro r e' hr
  cases hr
  exact ⟨.refl h, ha r rfl⟩

theorem Gives.step {g : Encoder → Encoder × α} (hg : Grown e (g e).1) (ha : Q (g e).1 (g e).2) :
    Gives (Encoding.step g) e Q := by
  intro r e' hr
  cases hr
  exact ⟨hg, ha⟩

theorem Gives.weaken {Q' : Encoder → α → Prop} (hx : Gives x e Q)
    (hq : ∀ a e', Grown e e' → Q e' a → Q' e' a) : Gives x e Q' := by
  intro r e' hr
  obtain ⟨hg, h⟩ := hx r e' hr
  exact ⟨hg, hq r e' hg h⟩

end Encoding

end ModelExpansion
