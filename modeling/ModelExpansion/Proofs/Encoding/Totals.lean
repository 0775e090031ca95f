import ModelExpansion.Proofs.Encoding.Definitional

/-! # The cases of an aggregate
The cases of an aggregate over an enumerated set exclude each other. Which of them is true follows
from the literals of the members alone: it is the one whose value comes out when the weights of the
true members are taken one after the other. None is true where nothing comes out, or where a true
member has no weight. -/

namespace ModelExpansion

open ModelExpansion.Sat ModelExpansion.Encoder

namespace Encoding

/-! ## What is encoded of the members -/

/-- The literal of a member's condition, and the cases of its weight. -/
structure MemberCases where
  present : Lit
  weights : List (Int × Lit)

def readMember (kind : Aggregate) (m : Member) : Encoding MemberCases := do
  let present ← encodeFormula m.1
  if kind.usesWeights then return ⟨present, ← lift (weightCases kind (← encodeTerm m.2))⟩
  else return ⟨present, [(1, ← read Encoder.truth)]⟩

/-- The partial results after some more members, with what is encoded of the members. -/
def readMembers (kind : Aggregate) : List Member → Partials → Encoding (List MemberCases × Partials)
  | [], states => return ([], states)
  | m :: ms, states => do
    let r ← readMember kind m
    let rest ← readMembers kind ms (← addMember kind r.present r.weights states)
    return (r :: rest.1, rest.2)

/-- The cases of an aggregate, with what is encoded of the members. -/
def readSet (kind : Aggregate) (ms : List Member) : Encoding (List MemberCases × Cases) := do
  let truth ← read Encoder.truth
  let rest ← readMembers kind ms (.ofList [(kind.identity, truth)])
  return (rest.1, resultCases rest.2)

/-- Encoding members does nothing else than what `readMembers` shows. -/
theorem encodeMembers_eq (kind : Aggregate) (ms : List Member) (states : Partials) :
    encodeMembers kind ms states = Prod.snd <$> readMembers kind ms states := by
  induction ms generalizing states with
  | nil => rw [encodeMembers, readMembers, map_pure]
  | cons m ms ih =>
      rw [encodeMembers, readMembers, readMember]
      by_cases hkind : kind.usesWeights = true
      · simp only [if_pos hkind, bind_assoc, map_bind, bind_pure_comp, bind_map_left,
          Functor.map_map, ih]
      · simp only [if_neg hkind, bind_assoc, pure_bind, map_bind, bind_pure_comp, bind_map_left,
          Functor.map_map, ih]

theorem encodeTerm_aggregate_eq (kind : Aggregate) (ms : List Member) :
    encodeTerm (.aggregate kind (.enumerated ms)) = Prod.snd <$> readSet kind ms := by
  rw [encodeTerm, encodeSet, readSet]
  simp only [map_bind, map_pure, encodeMembers_eq, bind_map_left]

theorem exists_of_map_eq_ok {α β : Type} {x : Encoding α} {f : α → β} {e e' : Encoder} {b : β}
    (h : (f <$> x) e = (.ok b, e')) : ∃ a, x e = (.ok a, e') ∧ f a = b := by
  rw [← bind_pure_comp] at h
  obtain ⟨a, e₁, ha, hb⟩ := bind_eq_ok h
  cases hb
  exact ⟨a, ha, rfl⟩

/-! ## What the members weigh -/

variable {kind : Aggregate} {α : Nat → Bool} {e e' : Encoder} {m : Member} {ms : List Member}
    {r : MemberCases}
  {readings : List MemberCases} {w : Int} {ws : List Int}

/-- A member weighs what its true case says. For counting it weighs one, whatever its cases are. -/
def MemberCases.Weighs (kind : Aggregate) (α : Nat → Bool) (r : MemberCases) (w : Int) : Prop :=
  if kind.usesWeights then ∃ l, (w, l) ∈ r.weights ∧ l.Holds α else w = 1

/-- The weights of the true members, in order. -/
inductive Weighed (kind : Aggregate) (α : Nat → Bool) : List MemberCases → List Int → Prop where
  | nil : Weighed kind α [] []
  | absent {r : MemberCases} {rest : List MemberCases} {ws : List Int}
      (habsent : ¬ r.present.Holds α)
      (hrest : Weighed kind α rest ws) : Weighed kind α (r :: rest) ws
  | present {r : MemberCases} {rest : List MemberCases} {w : Int} {ws : List Int}
      (hpresent : r.present.Holds α)
      (hweight : r.Weighs kind α w) (hrest : Weighed kind α rest ws) :
      Weighed kind α (r :: rest) (w :: ws)

/-- The literals of a member say whether its condition is true and what it weighs. -/
structure MemberCases.Describes (e : Encoder) (kind : Aggregate) (m : Member)
    (r : MemberCases) : Prop where
  present : Means e r.present fun W => W.truth [] m.1
  weights : Denotes e r.weights fun W => W.weight kind (W.value [] m.2)

theorem MemberCases.Describes.mono (h : r.Describes e kind m) (hg : Grown e e') :
    r.Describes e' kind m :=
  ⟨h.present.mono hg, h.weights.mono hg⟩

theorem gives_readMember (kind : Aggregate) (m : Member) (h : Sound e) :
    Gives (readMember kind m) e fun e' r => r.Describes e' kind m := by
  rw [readMember]
  refine .bind h (gives_encodeFormula m.1 h) fun present e₁ hg₁ h₁ hpresent => ?_
  split
  · next hkind =>
    refine .bind h₁ (gives_encodeTerm m.2 h₁) fun cases e₂ hg₂ h₂ hcases => ?_
    have hweights : Gives (lift (weightCases kind cases)) e₂ fun e' weights =>
        e' = e₂ ∧ weightCases kind cases = .ok weights := .lift h₂ fun _ hok => ⟨rfl, hok⟩
    refine .bind h₂ hweights fun weights e₃ hg₃ h₃ hok => .pure h₃ ?_
    obtain ⟨rfl, hok⟩ := hok
    exact ⟨(hpresent.mono hg₂).mono hg₃, denotes_weight hkind hcases hok⟩
  · next hkind =>
    refine .bind h₁ (.read (Q := fun e' l => l = e'.truth) h₁ rfl) fun l e₂ hg₂ h₂ hl => .pure h₂ ?_
    subst hl
    exact ⟨hpresent.mono hg₂, denotes_one hkind h₂ _⟩

theorem gives_readMembers (kind : Aggregate) (ms : List Member) {states : Partials}
    {s : World → Option (Option Int)} (h : Sound e) (hstates : Denotes e states.toList s) :
    Gives (readMembers kind ms states) e fun e' rest =>
      List.Forall₂ (fun m r => MemberCases.Describes e' kind m r) ms rest.1 := by
  induction ms generalizing e states s with
  | nil => exact .pure h .nil
  | cons m ms ih =>
      rw [readMembers]
      refine .bind h (gives_readMember kind m h) fun r e₁ hg₁ h₁ hr => ?_
      refine .bind h₁ (gives_addMember kind h₁ hr.present hr.weights (hstates.mono hg₁))
        fun states' e₂ hg₂ h₂ hstates' => ?_
      refine .bind h₂ (ih h₂ hstates') fun rest e₃ hg₃ h₃ hrest => .pure h₃ ?_
      exact .cons ((hr.mono hg₂).mono hg₃) hrest

theorem nodup_resultCases (states : Partials) : ((resultCases states).map Prod.fst).Nodup := by
  have hkeys : (states.toList.map Prod.fst).Nodup := List.pairwise_map.mpr <|
    Std.ExtTreeMap.distinct_keys_toList.imp fun hne heq =>
      hne (by rw [heq]; exact Std.ReflCmp.compare_self)
  have hvalues : (resultCases states).map Prod.fst =
      (states.toList.map Prod.fst).filterMap (Option.map Element.int) := by
    rw [resultCases, List.map_filterMap, List.filterMap_map]
    refine List.filterMap_congr fun s _ => ?_
    obtain ⟨_ | n, l⟩ := s <;> rfl
  rw [hvalues]
  refine hkeys.filterMap fun a b k ha hb => ?_
  obtain ⟨n, rfl, rfl⟩ := Option.map_eq_some_iff.mp ha
  obtain ⟨n', rfl, hn⟩ := Option.map_eq_some_iff.mp hb
  rw [Element.int.inj hn]

/-- What is shown of a set describes its members, and no value comes up twice. -/
theorem gives_readSet (kind : Aggregate) (ms : List Member) (h : Sound e) :
    Gives (readSet kind ms) e fun e' rest =>
      List.Forall₂ (fun m r => MemberCases.Describes e' kind m r) ms rest.1 ∧
      (rest.2.map Prod.fst).Nodup := by
  rw [readSet]
  refine .bind h (.read (Q := fun e' l => l = e'.truth) h rfl) fun l e₁ hg₁ h₁ hl => ?_
  subst hl
  refine .bind h₁ (gives_readMembers kind ms h₁ (denotes_identity h₁)) fun rest e₂ hg₂ h₂ hrest =>
    .pure h₂ ⟨hrest, nodup_resultCases rest.2⟩

/-! ## The weights of the true members -/

namespace MemberCases.Describes

theorem weighs_iff (h : r.Describes e kind m) (hα : e.solver.Admits α) :
    r.Weighs kind α w ↔ (e.world α).weight kind ((e.world α).value [] m.2) = some w := by
  rw [Weighs]
  split
  · exact (h.weights.eq_some_iff hα).symm
  · next hkind =>
    rw [show (e.world α).weight kind _ = some 1 from if_neg hkind, Option.some_inj]
    exact eq_comm

theorem present_iff (h : r.Describes e kind m) (hα : e.solver.Admits α) :
    r.present.Holds α ↔ (e.world α).truth [] m.1 = true := h.present.holds_iff hα

end MemberCases.Describes

section Members

variable (h : List.Forall₂ (fun m r => MemberCases.Describes e kind m r) ms readings)
    (hα : e.solver.Admits α)
include h hα

theorem weighed_iff :
    Weighed kind α readings ws ↔ World.weights ((e.world α).listed [] kind ms) = some ws := by
  induction h generalizing ws with
  | nil =>
      rw [World.listed, World.weights, Option.some_inj]
      constructor
      · intro hweighed
        cases hweighed
        rfl
      · rintro rfl
        exact .nil
  | @cons m r ms readings hr _ ih =>
      have hpresent := hr.present_iff hα
      have hweighs := fun {w} => hr.weighs_iff (w := w) hα
      rw [World.listed]
      cases htruth : (e.world α).truth [] m.1 with
      | false =>
          have habsent : ¬ r.present.Holds α := by rw [hpresent, htruth]; exact Bool.false_ne_true
          rw [World.weights, ← ih]
          constructor
          · intro hweighed
            cases hweighed with
            | absent _ hrest => exact hrest
            | present hpresent _ _ => exact absurd hpresent habsent
          · exact .absent habsent
      | true =>
          have hpresent := hpresent.mpr htruth
          have hcons : World.weights ((true, (e.world α).weight kind ((e.world α).value [] m.2)) ::
              (e.world α).listed [] kind ms) = some ws ↔ ∃ w rest, r.Weighs kind α w ∧
                Weighed kind α readings rest ∧ w :: rest = ws := by
            simp only [hweighs, ih]
            cases (e.world α).weight kind ((e.world α).value [] m.2) with
            | none => simp [World.weights]
            | some w => simp [World.weights, Option.map_eq_some_iff]
          rw [hcons]
          constructor
          · intro hweighed
            cases hweighed with
            | absent habsent _ => exact absurd hpresent habsent
            | present _ hweight hrest => exact ⟨_, _, hweight, hrest, rfl⟩
          · rintro ⟨w, rest, hweight, hrest, rfl⟩
            exact .present hpresent hweight hrest

theorem weights_eq_none_iff : World.weights ((e.world α).listed [] kind ms) = none ↔
    ∃ r ∈ readings, r.present.Holds α ∧ ∀ w, ¬ r.Weighs kind α w := by
  induction h with
  | nil => simp [World.listed, World.weights]
  | @cons m r ms readings hr _ ih =>
      have hpresent := hr.present_iff hα
      have hweighs := fun {w} => hr.weighs_iff (w := w) hα
      rw [World.listed]
      simp only [List.mem_cons, exists_eq_or_imp, ← ih, hpresent, hweighs]
      cases (e.world α).truth [] m.1 with
      | false => simp [World.weights]
      | true =>
          cases (e.world α).weight kind ((e.world α).value [] m.2) with
          | none => simp [World.weights]
          | some w => simp [World.weights]

end Members

/-! ## The true case -/

/-- What the literals of the members say about the cases of an aggregate. -/
structure Totals (kind : Aggregate) (readings : List MemberCases) (cases : Cases)
    (α : Nat → Bool) : Prop where
  /-- No two cases are true. -/
  exclusive : cases.Pairwise fun c d => ¬ (c.2.Holds α ∧ d.2.Holds α)
  /-- No member has two weights. -/
  weight_unique : ∀ r ∈ readings, ∀ w w', r.Weighs kind α w → r.Weighs kind α w' → w = w'
  /-- A case is true where its value comes out. -/
  holds_iff : ∀ c ∈ cases, c.2.Holds α ↔ ∃ ws, Weighed kind α readings ws ∧
    (kind.fold ws).map Element.int = some c.1
  /-- No case is true where nothing comes out, or where a true member has no weight. -/
  none_iff : (∀ c ∈ cases, ¬ c.2.Holds α) ↔
    (∃ ws, Weighed kind α readings ws ∧ kind.fold ws = none) ∨
    ∃ r ∈ readings, r.present.Holds α ∧ ∀ w, ¬ r.Weighs kind α w

theorem totals_of_describes {cases : Cases}
    (hreadings : List.Forall₂ (fun m r => MemberCases.Describes e kind m r) ms readings)
    (hcases : Denotes e cases fun W => World.fold kind (W.listed [] kind ms))
    (hnodup : (cases.map Prod.fst).Nodup) (hα : e.solver.Admits α) :
    Totals kind readings cases α := by
  have hfold : ∀ {k}, World.fold kind ((e.world α).listed [] kind ms) = some k ↔
      ∃ ws, Weighed kind α readings ws ∧ (kind.fold ws).map Element.int = some k := by
    intro k
    simp only [weighed_iff hreadings hα, World.fold]
    cases World.weights ((e.world α).listed [] kind ms) <;> simp
  have hholds : ∀ c ∈ cases, c.2.Holds α ↔ World.fold kind ((e.world α).listed [] kind ms) =
      some c.1 := by
    intro c hc
    rw [hcases.eq_some_iff hα]
    constructor
    · exact fun hholds => ⟨c.2, hc, hholds⟩
    · rintro ⟨l, hl, hholds⟩
      rwa [← List.inj_on_of_nodup_map hnodup hl hc rfl]
  constructor
  · refine (List.pairwise_map.mp hnodup).imp_of_mem fun hc hd hne hboth => hne ?_
    exact Option.some.inj (((hholds _ hc).mp hboth.1).symm.trans ((hholds _ hd).mp hboth.2))
  · intro r hr w w' hw hw'
    obtain ⟨m, -, hm⟩ := exists_left_of_forall₂ hreadings hr
    rw [hm.weighs_iff hα] at hw hw'
    exact Option.some.inj (hw.symm.trans hw')
  · exact fun c hc => (hholds c hc).trans hfold
  · have hnone : (∀ c ∈ cases, ¬ c.2.Holds α) ↔
        World.fold kind ((e.world α).listed [] kind ms) = none := by
      rw [Option.eq_none_iff_forall_ne_some]
      constructor
      · intro h k hk
        obtain ⟨l, hl, hholds⟩ := (hcases.eq_some_iff hα).mp hk
        exact h _ hl hholds
      · exact fun h c hc hholds' => h c.1 ((hholds c hc).mp hholds')
    rw [hnone, ← weights_eq_none_iff hreadings hα]
    simp only [weighed_iff hreadings hα, World.fold]
    cases World.weights ((e.world α).listed [] kind ms) <;> simp

end Encoding

open Encoding

/-- Whatever was asked of an encoder before and is asked later: the cases of an aggregate over an
enumerated set have different values, and what the solver was handed makes them say what comes out
of the members. -/
theorem aggregateCases_total {S : Structure} {config : Config} {monitor : Monitor}
    {e₀ e e' : Encoder} {kind : Aggregate} {ms : List Member} {cases : Cases}
    (hstart : Encoder.start S (.fresh config monitor) = .ok e₀)
    (hcalls : Relation.ReflTransGen Encoder.Call e₀ e)
    (hrun : encodeTerm (.aggregate kind (.enumerated ms)) e = (.ok cases, e')) :
    ∃ readings, readSet kind ms e = (.ok (readings, cases), e') ∧
      List.Forall₂ (fun m r => MemberCases.Describes e' kind m r) ms readings ∧
      (cases.map Prod.fst).Nodup ∧
      (∃ given, Handed e' given) ∧
      ∀ e'' given, Relation.ReflTransGen Encoder.Call e' e'' → Handed e'' given →
        ∀ α : Nat → Bool, (∀ c ∈ given, Satisfies α c) → Totals kind readings cases α := by
  have hsound₀ := (starts_of_start hstart).sound
  obtain ⟨before, hbefore⟩ := builds_of_calls hsound₀ (atoms_le_of_start hstart) hcalls
  have hsound := hbefore.sound hsound₀
  obtain ⟨hgrown, hcases⟩ := gives_encodeTerm _ hsound _ _ hrun
  have hmap := hrun
  rw [encodeTerm_aggregate_eq] at hmap
  obtain ⟨⟨readings, _⟩, hread, rfl⟩ := exists_of_map_eq_ok hmap
  obtain ⟨-, hreadings, hnodup⟩ := gives_readSet kind ms hsound _ _ hread
  have hcalls' : Relation.ReflTransGen Encoder.Call e₀ e' := by
    have hcall := Encoder.Call.cases (e := e) (.aggregate kind (.enumerated ms))
    rw [hrun] at hcall
    exact hcalls.tail hcall
  obtain ⟨gates, hbuilds⟩ := builds_of_calls hsound₀ (atoms_le_of_start hstart) hcalls'
  refine ⟨readings, hread, hreadings, hnodup, exists_handed_of_builds hstart hbuilds, ?_⟩
  intro e'' given' hlater hgiven' α hα
  have hatoms := hbuilds.atoms_le hsound₀ (atoms_le_of_start hstart)
  obtain ⟨gates', hbuilds'⟩ := builds_of_calls hgrown.sound hatoms hlater
  refine totals_of_describes hreadings ?_ hnodup
    (hbuilds'.admits hgrown.sound (hgiven'.admits_iff.mpr hα)).1
  simpa only [World.value, World.members] using hcases

/-- Two for the first proposition and three for the second. -/
def points : List Member := [(.pred 0 [], .element (.int 2)), (.pred 1 [], .element (.int 3))]

/-- The points add up to nothing, two, three or five, and five is true exactly where both
propositions are. -/
theorem aggregateCases_total_points : ∃ e₀ e' readings cases given,
    Encoder.start propositions (.fresh {} {}) = .ok e₀ ∧
    readSet .sum points e₀ = (.ok (readings, cases), e') ∧
      cases.map Prod.fst = [.int 0, .int 2, .int 3, .int 5] ∧ Handed e' given ∧
      ∀ α : Nat → Bool, (∀ c ∈ given, Satisfies α c) → Totals .sum readings cases α := by
  have hruns : yields (Encoder.start propositions (.fresh {} {}))
      (encodeTerm (.aggregate .sum (.enumerated points)))
      (fun cases _ => cases.map Prod.fst == [.int 0, .int 2, .int 3, .int 5]) = true := by
    decide +kernel
  obtain ⟨e₀, e', cases, hstart, hrun, hvalues⟩ := exists_of_yields hruns
  obtain ⟨readings, hread, -, -, ⟨given, hgiven⟩, htotals⟩ := aggregateCases_total hstart .refl hrun
  exact ⟨e₀, e', readings, cases, given, hstart, hread, beq_iff_eq.mp hvalues, hgiven,
    fun α hα => htotals e' given .refl hgiven α hα⟩

end ModelExpansion
