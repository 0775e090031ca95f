import ModelExpansion.Proofs.Encoding.Terms

/-! # Partial results of an aggregate
Taking the members one after the other, the cases of the partial results say what the members so far
come to. -/

namespace ModelExpansion

open ModelExpansion.Sat

/-! ## One member after the other -/

namespace World

variable {kind : Aggregate}

/-- The result so far after one more member; nothing once a true member had no weight. -/
def take (kind : Aggregate) (s : Option (Option Int)) (m : Bool × Option Int) :
    Option (Option Int) :=
  if m.1 then s.bind fun acc => m.2.map (kind.combine acc) else s

theorem foldl_take_none (members : List (Bool × Option Int)) :
    members.foldl (take kind) none = none := by
  induction members with
  | nil => rfl
  | cons m members ih =>
      have htake : take kind none m = none := by simp [take]
      rw [List.foldl_cons, htake, ih]

theorem foldl_take_some (members : List (Bool × Option Int)) (acc : Option Int) :
    members.foldl (take kind) (some acc) = (weights members).map fun ws =>
      ws.foldl kind.combine acc := by
  induction members generalizing acc with
  | nil => rfl
  | cons m members ih =>
      obtain ⟨present, w⟩ := m
      rw [List.foldl_cons]
      cases present with
      | false => exact ih acc
      | true =>
          cases w with
          | none => exact foldl_take_none members
          | some w =>
              have htake : take kind (some acc) (true, some w) = some (kind.combine acc w) := rfl
              rw [htake, ih, weights, Option.map_map]
              rfl

/-- The value of an aggregate is the last partial result, if that is a number. -/
theorem fold_eq_foldl_take (members : List (Bool × Option Int)) :
    fold kind members = ((members.foldl (take kind) (some kind.identity)).bind id).map .int := by
  rw [foldl_take_some, fold]
  cases weights members with
  | none => rfl
  | some ws => rfl

theorem take_eq_some_iff {s : Option (Option Int)} {present : Bool} {w : Option Int}
    {r : Option Int} :
    take kind s (present, w) = some r ↔ present = false ∧ s = some r ∨
      present = true ∧ ∃ acc n, s = some acc ∧ w = some n ∧ kind.combine acc n = r := by
  cases present with
  | false => simp [take]
  | true => simp [take, Option.bind_eq_some_iff]

end World

namespace Encoding

open Encoder

variable {e e' : Encoder} {kind : Aggregate}

/-! ## Collected literals -/

def Gathers (e : Encoder) (c : Collected) (R : Option Int → (Nat → Bool) → Prop) : Prop :=
  ∀ r, Offers e (c.getD r []) (R r)

variable {c : Collected} {R R' : Option Int → (Nat → Bool) → Prop}

theorem Gathers.mono (h : Gathers e c R) (hg : Grown e e') : Gathers e' c R :=
  fun r => (h r).mono hg

theorem Gathers.congr (h : Gathers e c R) (hR : ∀ {α}, e.solver.Admits α → ∀ r, R r α ↔ R' r α) :
    Gathers e c R' := fun r => (h r).congr fun hα => hR hα r

theorem gathers_empty : Gathers e ∅ fun _ _ => False := by
  intro r
  rw [Std.ExtTreeMap.getD_empty]
  exact .nil fun _ => not_false

theorem Gathers.collect (h : Gathers e c R) (key : Option Int) {l : Lit} {P : (Nat → Bool) → Prop}
    (hl : Says e l P) : Gathers e (collect c key l) fun r α => R r α ∨ key = r ∧ P α := by
  intro r
  rw [Encoding.collect, Std.ExtTreeMap.getD_insert]
  by_cases hr : key = r
  · subst hr
    rw [if_pos Std.ReflCmp.compare_self]
    exact ((h key).append (.singleton hl)).congr fun _ => by simp
  · rw [if_neg fun heq => hr (Std.LawfulEqCmp.eq_of_compare heq)]
    exact (h r).congr fun _ => by simp [hr]

theorem gives_extendPartial (kind : Aggregate) (acc : Option Int) {reached present : Lit}
    {weights : List (Int × Lit)} (h : Sound e) (hc : Gathers e c R)
    (hreached : reached.var < e.solver.numVars)
    (hpresent : present.var < e.solver.numVars)
    (hweights : ∀ w ∈ weights, w.2.var < e.solver.numVars) :
    Gives (extendPartial kind acc reached present weights c) e fun e' c' =>
      Gathers e' c' fun r α => R r α ∨ (reached.Holds α ∧ present.Holds α ∧
        ∃ w ∈ weights, w.2.Holds α ∧ kind.combine acc w.1 = r) := by
  induction weights generalizing e c R with
  | nil => exact .pure h (hc.congr fun _ _ => by simp)
  | cons w weights ih =>
      obtain ⟨n, lw⟩ := w
      obtain ⟨hlw, hweights⟩ := List.forall_mem_cons.mp hweights
      have hlits : ∀ l ∈ [reached, present, lw], l.var < e.solver.numVars := by
        rw [List.forall_mem_cons, List.forall_mem_cons, List.forall_mem_singleton]
        exact ⟨hreached, hpresent, hlw⟩
      rw [extendPartial]
      refine .bind h (gives_and h hlits) fun taken e₁ hg₁ h₁ htaken => ?_
      have hlt := hg₁.numVars
      have hrest :=
        ih h₁ ((hc.mono hg₁).collect (kind.combine acc n) htaken) (Nat.lt_of_lt_of_le hreached hlt)
        (Nat.lt_of_lt_of_le hpresent hlt) fun w hw => Nat.lt_of_lt_of_le (hweights w hw) hlt
      refine hrest.weaken fun c' e' _ hc' => hc'.congr fun {α} _ r => ?_
      simp only [List.mem_cons, exists_eq_or_imp, forall_eq_or_imp, List.not_mem_nil, false_imp_iff,
        implies_true, and_true, and_or_left, or_assoc,
        and_comm (a := kind.combine acc n = r), and_assoc]

theorem gives_extendPartials {states : List (Option Int × Lit)} {present : Lit}
    {weights : List (Int × Lit)}
    (h : Sound e) (hc : Gathers e c R) (hstates : ∀ s ∈ states, s.2.var < e.solver.numVars)
    (hpresent : present.var < e.solver.numVars)
    (hweights : ∀ w ∈ weights, w.2.var < e.solver.numVars) :
    Gives (extendPartials kind present weights states c) e fun e' c' =>
      Gathers e' c' fun r α => R r α ∨ ∃ s ∈ states, s.2.Holds α ∧ (¬ present.Holds α ∧ s.1 = r ∨
        present.Holds α ∧ ∃ w ∈ weights, w.2.Holds α ∧ kind.combine s.1 w.1 = r) := by
  induction states generalizing e c R with
  | nil => exact .pure h (hc.congr fun _ _ => by simp)
  | cons s states ih =>
      obtain ⟨acc, reached⟩ := s
      obtain ⟨hreached, hstates⟩ := List.forall_mem_cons.mp hstates
      have hlits : ∀ l ∈ [reached, present.negate], l.var < e.solver.numVars := by
        rw [List.forall_mem_cons, List.forall_mem_singleton, Lit.var_negate]
        exact ⟨hreached, hpresent⟩
      rw [extendPartials]
      refine .bind h (gives_and h hlits) fun skipped e₁ hg₁ h₁ hskipped => ?_
      have hlt₁ := hg₁.numVars
      have hextend := gives_extendPartial kind acc h₁ ((hc.mono hg₁).collect acc hskipped)
        (Nat.lt_of_lt_of_le hreached hlt₁) (Nat.lt_of_lt_of_le hpresent hlt₁)
        fun w hw => Nat.lt_of_lt_of_le (hweights w hw) hlt₁
      refine .bind h₁ hextend fun c₂ e₂ hg₂ h₂ hc₂ => ?_
      have hlt₂ := hlt₁.trans hg₂.numVars
      have hrest := ih h₂ hc₂ (fun s hs => Nat.lt_of_lt_of_le (hstates s hs) hlt₂)
        (Nat.lt_of_lt_of_le hpresent hlt₂) fun w hw => Nat.lt_of_lt_of_le (hweights w hw) hlt₂
      refine hrest.weaken fun c' e' _ hc' => hc'.congr fun {α} _ r => ?_
      simp only [List.mem_cons, exists_eq_or_imp, forall_eq_or_imp, List.not_mem_nil, false_imp_iff,
        implies_true, and_true, Lit.holds_negate]
      rw [and_or_left (a := reached.Holds α), and_comm (a := acc = r), and_assoc]
      simp only [or_assoc]

/-! ## Members -/

theorem getD_of_mem_toList {collected : Collected} {r : Option Int} {lits : List Lit}
    (h : (r, lits) ∈ collected.toList) : collected.getD r [] = lits := by
  rw [Std.ExtTreeMap.getD_eq_getD_getElem?, Std.ExtTreeMap.mem_toList_iff_getElem?_eq_some.mp h]
  rfl

theorem exists_mem_toList_iff {collected : Collected} {r : Option Int} {P : Lit → Prop} :
    (∃ lits, (r, lits) ∈ collected.toList ∧ ∃ l ∈ lits, P l) ↔ ∃ l ∈ collected.getD r [], P l := by
  constructor
  · rintro ⟨lits, hmem, hholds⟩
    rwa [getD_of_mem_toList hmem]
  · rintro ⟨l, hl, hholds⟩
    cases hr : collected[r]? with
    | none =>
        rw [Std.ExtTreeMap.getD_eq_getD_getElem?, hr] at hl
        cases hl
    | some lits =>
        rw [Std.ExtTreeMap.getD_eq_getD_getElem?, hr] at hl
        exact ⟨lits, Std.ExtTreeMap.mem_toList_iff_getElem?_eq_some.mpr hr, l, hl, hholds⟩

theorem gives_addMember (kind : Aggregate) {present : Lit} {weights : List (Int × Lit)}
    {states : Partials}
    {p : World → Bool} {w : World → Option Int} {s : World → Option (Option Int)} (h : Sound e)
    (hpresent : Means e present p) (hweights : Denotes e weights w)
    (hstates : Denotes e states.toList s) :
    Gives (addMember kind present weights states) e fun e' states' =>
      Denotes e' states'.toList fun W => World.take kind (s W) (p W, w W) := by
  rw [addMember]
  refine .bind h
    (gives_extendPartials h gathers_empty hstates.var_lt hpresent.var_lt hweights.var_lt)
    fun collected e₁ hg₁ h₁ hcollected => ?_
  have hlt : ∀ c ∈ collected.toList, ∀ l ∈ c.2, l.var < e₁.solver.numVars := by
    intro c hc
    rw [← getD_of_mem_toList hc]
    exact (hcollected c.1).var_lt
  refine .bind h₁ (gives_valueCases h₁ hlt) fun cases e₂ hg₂ h₂ hcases => .pure h₂ ?_
  have hnodup : (cases.map Prod.fst).Nodup := by
    refine hcases.keys.nodup (List.pairwise_map.mpr ?_)
    refine Std.ExtTreeMap.distinct_keys_toList.imp fun hne heq => hne ?_
    rw [heq]
    exact Std.ReflCmp.compare_self
  have hmem : ∀ {r l}, (r, l) ∈ (Std.ExtTreeMap.ofList cases).toList ↔ (r, l) ∈ cases :=
    fun {r l} =>
    Std.ExtTreeMap.mem_toList_iff_getElem?_eq_some.trans (getElem?_ofList_eq_some_iff hnodup)
  refine ⟨fun c hc => hcases.var_lt c (hmem.mp hc), fun {α} hα {r} => ?_⟩
  have hs := fun {k} => ((hstates.mono hg₁).mono hg₂).eq_some_iff hα (k := k)
  have hw := fun {k} => ((hweights.mono hg₁).mono hg₂).eq_some_iff hα (k := k)
  have hp := ((hpresent.mono hg₁).mono hg₂).holds_iff hα
  rw [World.take_eq_some_iff]
  simp only [hmem, hcases.holds_iff hα, exists_mem_toList_iff,
    (hcollected r).exists_iff (hg₂.restrict hα).1, false_or, hp,
    Bool.not_eq_true]
  constructor
  · rintro (⟨hfalse, hr⟩ | ⟨htrue, acc, n, hacc, hn, hr⟩)
    · obtain ⟨l, hl, hholds⟩ := hs.mp hr
      exact ⟨(r, l), hl, hholds, .inl ⟨hfalse, rfl⟩⟩
    · obtain ⟨l, hl, hholds⟩ := hs.mp hacc
      obtain ⟨lw, hlw, hwholds⟩ := hw.mp hn
      exact ⟨(acc, l), hl, hholds, .inr ⟨htrue, (n, lw), hlw, hwholds, hr⟩⟩
  · rintro ⟨⟨acc, l⟩, hl, hholds, hcase⟩
    have hacc := hs.mpr ⟨l, hl, hholds⟩
    rcases hcase with ⟨hfalse, rfl⟩ | ⟨htrue, ⟨n, lw⟩, hlw, hwholds, hr⟩
    · exact .inl ⟨hfalse, hacc⟩
    · exact .inr ⟨htrue, acc, n, hacc, hw.mpr ⟨lw, hlw, hwholds⟩, hr⟩

/-! ## Weights and results -/

theorem weightCases_eq_ok {cases : Cases} {weights : List (Int × Lit)}
    (h : weightCases kind cases = .ok weights) : cases = weights.map fun w => (.int w.1, w.2) := by
  induction cases generalizing weights with
  | nil =>
      cases h
      rfl
  | cons c cases ih =>
      obtain ⟨v, l⟩ := c
      cases v with
      | name x => cases h
      | int n =>
          rw [weightCases, Except.bind_eq_ok] at h
          obtain ⟨rest, hrest, h⟩ := h
          cases h
          rw [ih hrest, List.map_cons]

theorem denotes_weights {cases : Cases} {weights : List (Int × Lit)} {v : World → Option Element}
    (hweights : weightCases kind cases = .ok weights) (hcases : Denotes e cases v) :
    Denotes e weights fun W => (v W).bind Element.toInt? := by
  have hmap := weightCases_eq_ok hweights
  subst hmap
  refine ⟨fun w hw => hcases.var_lt _ (List.mem_map_of_mem hw), fun {α} hα {n} => ?_⟩
  have hint : v (e.world α) = some (.int n) ↔ ∃ l, (n, l) ∈ weights ∧ l.Holds α := by
    rw [hcases.eq_some_iff hα]
    simp
  rw [← hint, Option.bind_eq_some_iff]
  constructor
  · rintro ⟨x, hx, hn⟩
    cases x with
    | name _ => cases hn
    | int _ =>
        cases hn
        exact hx
  · intro hn
    exact ⟨_, hn, rfl⟩

theorem denotes_resultCases {states : Partials} {s : World → Option (Option Int)}
    (hstates : Denotes e states.toList s) :
    Denotes e (resultCases states) fun W => ((s W).bind id).map .int := by
  refine ⟨fun c hc => ?_, fun {α} hα {k} => ?_⟩
  · obtain ⟨⟨r, l⟩, hr, hc⟩ := List.mem_filterMap.mp hc
    obtain ⟨n, -, rfl⟩ := Option.map_eq_some_iff.mp hc
    exact hstates.var_lt _ hr
  · simp only [resultCases, List.mem_filterMap, Option.map_eq_some_iff,
      Option.bind_eq_some_iff, id_eq, hstates.eq_some_iff hα]
    constructor
    · rintro ⟨n, ⟨r, ⟨l, hl, hholds⟩, hr⟩, hk⟩
      exact ⟨l, ⟨(r, l), hl, n, hr, by rw [hk]⟩, hholds⟩
    · rintro ⟨l, ⟨⟨r, _⟩, hl, n, hr, hk⟩, hholds⟩
      cases hk
      exact ⟨n, ⟨r, ⟨_, hl, hholds⟩, hr⟩, rfl⟩

/-- A value that is there whatever the world is. -/
theorem denotes_certain {κ : Type} (h : Sound e) (k : κ) :
    Denotes e [(k, e.truth)] fun _ => some k := by
  refine ⟨List.forall_mem_singleton.mpr h.truth_lt, fun {α} hα {r} => ?_⟩
  simp only [List.mem_singleton, Prod.mk.injEq, Option.some.injEq]
  constructor
  · rintro rfl
    exact ⟨e.truth, ⟨rfl, rfl⟩, h.truth hα⟩
  · rintro ⟨l, ⟨rfl, -⟩, -⟩
    rfl

/-- The only partial result at first. -/
theorem denotes_identity (h : Sound e) :
    Denotes e (Std.ExtTreeMap.ofList [(kind.identity, e.truth)]).toList fun _ =>
      some kind.identity := by
  have hmem : ∀ {c}, c ∈ (Std.ExtTreeMap.ofList [(kind.identity, e.truth)]).toList ↔
      c ∈ [(kind.identity, e.truth)] := by
    rintro ⟨r, l⟩
    rw [Std.ExtTreeMap.mem_toList_iff_getElem?_eq_some, getElem?_ofList_eq_some_iff]
    exact List.nodup_singleton kind.identity
  have hcertain := denotes_certain h kind.identity
  refine ⟨fun c hc => hcertain.var_lt c (hmem.mp hc), fun {α} hα {r} => ?_⟩
  simp only [hmem]
  exact hcertain.eq_some_iff hα

end Encoding

end ModelExpansion
