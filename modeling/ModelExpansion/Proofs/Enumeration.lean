import Mathlib.Data.Fintype.BigOperators
import ModelExpansion.Expansion
import ModelExpansion.Proofs.Encoding.Decoding

/-! # Enumeration of models
Every search finds a world that has not been listed, and there are fewer worlds than searches
allowed. So the enumeration lists each of them once. -/

namespace ModelExpansion

open ModelExpansion.Sat

theorem Found.mem_models_add {M N : Structure} {accepted : Bool} {f : Found}
    (h : M ∈ (f.add N accepted).models) : (M = N ∧ accepted = true) ∨ M ∈ f.models := by
  cases accepted with
  | true => exact (List.mem_cons.mp h).imp_left fun heq => ⟨heq, rfl⟩
  | false => exact .inr h

namespace Encoder

variable {e e' : Encoder} {M : Structure} {halt : Stats → Bool}

/-- A structure that describes a world which is left. -/
def Models (e : Encoder) (M : Structure) : Prop :=
  ∃ α, e.solver.Admits α ∧ e.base.Describes (e.interpretation α) M

/-! ## One search -/

theorem Decodable.solve (h : Decodable e) (halt : Stats → Bool) : Decodable (e.solve halt).1 := by
  have hvalid := h.sound.valid
  have hsound : Sound (e.solve halt).1 :=
    h.sound.later rfl (hvalid.solve halt) (Nat.le_of_eq (hvalid.numVars_solve halt).symm)
      (hvalid.admits_solve halt).mp
  exact h.later hsound rfl (hvalid.admits_solve halt).mp

theorem Ready.solve (h : Ready e) (halt : Stats → Bool) : Ready (e.solve halt).1 := by
  have hvalid := h.sound.valid
  exact h.later (h.toDecodable.solve halt).sound rfl (hvalid.config_solve halt)
    (hvalid.admits_solve halt).mp

theorem Decodable.adds_block (h : Decodable e) (m : Model) :
    Adds e (e.block m).1 fun α => Satisfies α (e.blockingClause m) :=
  adds_clause h.sound.valid (h.var_lt_of_mem_blockingClause m)

theorem Decodable.block (h : Decodable e) (m : Model) : Decodable (e.block m).1 :=
  h.later ((h.adds_block m).sound h.sound) rfl fun hα => ((h.adds_block m).admits.mp hα).1

theorem Ready.blocked (h : Ready e) {m : Model} (hm : e.solver.Admits m.value) :
    Ready (e.block m).1 := by
  have hblock := h.block hm
  exact h.later hblock.sound hblock.same hblock.config fun hα => (hblock.restrict hα).1

theorem Decodable.admits_solve (h : Decodable e) {α : Nat → Bool} :
    (e.solve halt).1.solver.Admits α ↔ e.solver.Admits α := h.sound.valid.admits_solve halt

theorem Decodable.models_solve (h : Decodable e) : (e.solve halt).1.Models M ↔ e.Models M :=
  exists_congr fun _ => and_congr_left fun _ => h.admits_solve

theorem interpretation_eq_of_world_eq {α β : Nat → Bool} (h : e.world α = e.world β) :
    e.interpretation α = e.interpretation β := by
  funext a
  exact congrFun (congrFun (congrArg World.atom h) a.symbol) a.tuple

theorem Ready.models_block (h : Ready e) {m : Model} (hm : e.solver.Admits m.value)
    (hM : e.base.Describes (e.interpretation m.value) M) {N : Structure} :
    e.Models N ↔ N = M ∨ (e.block m).1.Models N := by
  have hblock := h.block hm
  constructor
  · rintro ⟨α, hα, hN⟩
    by_cases hworld : e.world α = e.world m.value
    · rw [interpretation_eq_of_world_eq hworld] at hN
      exact .inl (hN.unique hM)
    · obtain ⟨β, hαβ, hβ⟩ := hblock.extend hα hworld
      have hsame := interpretation_eq_of_world_eq (h.sound.world_congr hαβ)
      rw [← hsame] at hN
      exact .inr ⟨β, hβ, hN⟩
  · rintro (rfl | ⟨α, hα, hN⟩)
    · exact ⟨m.value, hm, hM⟩
    · exact ⟨α, (hblock.restrict hα).1, hN⟩

/-- The decoded model is not left. -/
theorem Ready.not_models_block (h : Ready e) {m : Model} (hm : e.solver.Admits m.value)
    (hM : e.base.Describes (e.interpretation m.value) M) : ¬ (e.block m).1.Models M := by
  rintro ⟨α, hα, hN⟩
  have hN : e.base.Describes (e.interpretation α) M := hN
  apply ((h.block hm).restrict hα).2
  rw [world, world, ← hN.isTrue h.numbers.inTables, ← hM.isTrue h.numbers.inTables]

/-! ## Counting -/

open Classical in
noncomputable def left (n : Nat) (e : Encoder) : Finset (Fin n → Bool) :=
  Finset.univ.filter fun b => ∃ α, e.solver.Admits α ∧ ∀ i : Fin n, α i = b i

theorem mem_left {n : Nat} {b : Fin n → Bool} :
    b ∈ e.left n ↔ ∃ α, e.solver.Admits α ∧ ∀ i : Fin n, α i = b i := by
  simp [left]

theorem card_left_le (n : Nat) (e : Encoder) : (e.left n).card ≤ 2 ^ n := by
  have hcard : Fintype.card (Fin n → Bool) = 2 ^ n := by
    rw [Fintype.card_fun, Fintype.card_bool, Fintype.card_fin]
  exact hcard ▸ Finset.card_le_univ _

theorem left_solve (h : Ready e) (n : Nat) : (e.solve halt).1.left n = e.left n := by
  ext b
  rw [mem_left, mem_left]
  exact exists_congr fun _ => and_congr_left fun _ => h.admits_solve

theorem Ready.card_left_block (h : Ready e) {m : Model} (hm : e.solver.Admits m.value) :
    ((e.block m).1.left e.atoms.size).card < (e.left e.atoms.size).card := by
  have hblock := h.block hm
  apply Finset.card_lt_card
  rw [Finset.ssubset_iff_of_subset]
  · refine ⟨fun i => m.value i, mem_left.mpr ⟨m.value, hm, fun _ => rfl⟩, fun hmem => ?_⟩
    obtain ⟨α, hα, hagree⟩ := mem_left.mp hmem
    obtain ⟨hα, hne⟩ := hblock.restrict hα
    exact hne (h.world_eq hα hm fun v hv _ => hagree ⟨v, hv⟩)
  · intro b hb
    obtain ⟨α, hα, hagree⟩ := mem_left.mp hb
    exact mem_left.mpr ⟨α, (hblock.restrict hα).1, hagree⟩

/-! ## The whole enumeration -/

/-- What an enumeration that is not interrupted has found. -/
structure Lists (e : Encoder) (f : Found) : Prop where
  stopped : f.stopped = false
  nodup : f.models.Nodup
  mem_iff : ∀ M, M ∈ f.models ↔ e.Models M

theorem lists_nothing (h : ∀ α, ¬ e.solver.Admits α) : e.Lists .nothing := by
  refine ⟨rfl, List.nodup_nil, fun M => iff_of_false List.not_mem_nil ?_⟩
  rintro ⟨α, hα, -⟩
  exact h α hα

theorem Ready.lists_add (h : Ready e) {m : Model} (hm : e.solver.Admits m.value)
    (hM : e.base.Describes (e.interpretation m.value) M) {f : Found} (hf : (e.block m).1.Lists f) :
    e.Lists (f.add M true) where
  stopped := hf.stopped
  nodup :=
    List.nodup_cons.mpr ⟨fun hmem => h.not_models_block hm hM ((hf.mem_iff M).mp hmem), hf.nodup⟩
  mem_iff := by
    intro N
    rw [h.models_block hm hM, ← hf.mem_iff]
    exact List.mem_cons

/-- A candidate is decoded whether or not it is accepted. -/
theorem decode_of_candidate {m : Model} {accepted : Bool} (hc : e.candidate m = .ok (M, accepted)) :
    e.decode m = .ok M := by
  rw [candidate, Except.bind_eq_ok] at hc
  obtain ⟨N, hN, hc⟩ := hc
  split at hc
  · rw [Except.bind_eq_ok] at hc
    obtain ⟨_, -, hc⟩ := hc
    cases hc
    exact hN
  · cases hc
    exact hN

theorem Ready.accepted (h : Ready e) {m : Model} {accepted : Bool}
    (hc : e.candidate m = .ok (M, accepted)) :
    accepted = true := by
  have hcheck : e.needsCheck = false := by
    rw [needsCheck, h.definitions, h.fixpoints]
    rfl
  rw [candidate, Except.bind_eq_ok] at hc
  obtain ⟨N, -, hc⟩ := hc
  rw [hcheck, if_neg Bool.false_ne_true] at hc
  cases hc
  rfl

theorem Ready.lists_solve (h : Ready e) {f : Found} (hf : (e.solve halt).1.Lists f) : e.Lists f :=
  ⟨hf.stopped, hf.nodup, fun N => (hf.mem_iff N).trans h.models_solve⟩

/-- How an enumeration that may make so many searches comes to its result when so many models are
wanted, zero for all of them, and so many have been found. -/
inductive Enumerates (halt : Stats → Bool) (wanted : Nat) :
    Nat → Nat → Encoder → Encoder → Found → Prop where
  | exhausted {found e} : Enumerates halt wanted 0 found e e { Found.nothing with stopped := true }
  | enough {n found e} (hw : wanted ≠ 0 ∧ wanted ≤ found) :
      Enumerates halt wanted (n + 1) found e e .nothing
  | unsat {n found e} (hw : ¬ (wanted ≠ 0 ∧ wanted ≤ found)) (hv : (e.solve halt).2 = .unsat) :
      Enumerates halt wanted (n + 1) found e (e.solve halt).1 .nothing
  | unknown {n found e} (hw : ¬ (wanted ≠ 0 ∧ wanted ≤ found)) (hv : (e.solve halt).2 = .unknown) :
      Enumerates halt wanted (n + 1) found e (e.solve halt).1 { Found.nothing with stopped := true }
  | last {n found e m M accepted} (hw : ¬ (wanted ≠ 0 ∧ wanted ≤ found))
      (hv : (e.solve halt).2 = .sat)
      (hm : (e.solve halt).1.solver.model = some m)
      (hc : (e.solve halt).1.candidate m = .ok (M, accepted))
      (hb : ((e.solve halt).1.block m).2 = false) :
      Enumerates halt wanted (n + 1) found e ((e.solve halt).1.block m).1
      (Found.nothing.add M accepted)
  | next {n found e m M accepted e' f} (hw : ¬ (wanted ≠ 0 ∧ wanted ≤ found))
      (hv : (e.solve halt).2 = .sat)
      (hm : (e.solve halt).1.solver.model = some m)
      (hc : (e.solve halt).1.candidate m = .ok (M, accepted))
      (hb : ((e.solve halt).1.block m).2 = true)
      (hrest : Enumerates halt wanted n (if accepted then found + 1 else found)
        ((e.solve halt).1.block m).1 e' f) :
      Enumerates halt wanted (n + 1) found e e' (f.add M accepted)

theorem enumerates_of_eq_ok {wanted count found : Nat} {f : Found}
    (h : e.enumerateModels halt wanted count found = (e', .ok f)) :
    Enumerates halt wanted count found e e' f := by
  induction count generalizing e found f with
  | zero =>
      cases h
      exact .exhausted
  | succ count ih =>
      rw [enumerateModels] at h
      split at h
      · rename_i hw
        cases h
        exact .enough hw
      rename_i hw
      split at h
      · rename_i e₁ hs
        obtain rfl : (e.solve halt).1 = e₁ := congrArg Prod.fst hs
        cases h
        exact .unsat hw (congrArg Prod.snd hs)
      · rename_i e₁ hs
        obtain rfl : (e.solve halt).1 = e₁ := congrArg Prod.fst hs
        cases h
        exact .unknown hw (congrArg Prod.snd hs)
      · rename_i e₁ hs
        obtain rfl : (e.solve halt).1 = e₁ := congrArg Prod.fst hs
        split at h
        · cases h
        rename_i m hm
        split at h
        · cases h
        rename_i M accepted hc
        split at h
        · rename_i e₂ hb
          obtain rfl : ((e.solve halt).1.block m).1 = e₂ := congrArg Prod.fst hb
          cases h
          exact .last hw (congrArg Prod.snd hs) hm hc (congrArg Prod.snd hb)
        · rename_i e₂ hb
          obtain rfl : ((e.solve halt).1.block m).1 = e₂ := congrArg Prod.fst hb
          dsimp only at h
          split at h
          · rename_i rest hrest
            cases h
            exact .next hw (congrArg Prod.snd hs) hm hc (congrArg Prod.snd hb) (ih hrest)
          · cases h

theorem Decodable.found (h : Decodable e) {m : Model} {accepted : Bool}
    (hv : (e.solve halt).2 = .sat) (hm : (e.solve halt).1.solver.model = some m)
    (hc : (e.solve halt).1.candidate m = .ok (M, accepted)) :
    (e.solve halt).1.solver.Admits m.value ∧
      (e.solve halt).1.base.Describes ((e.solve halt).1.interpretation m.value) M := by
  obtain ⟨m', hm', hα⟩ := h.sound.valid.model_of_sat hv
  cases hm.symm.trans hm'
  have hα := (h.sound.valid.admits_solve halt).mpr hα
  exact ⟨hα, (h.solve halt).describes hα (decode_of_candidate hc)⟩

theorem Enumerates.models {wanted count found : Nat} {f : Found}
    (hf : Enumerates halt wanted count found e e' f)
    (h : Decodable e) : ∀ M ∈ f.models, e.Models M := by
  induction hf with
  | exhausted => exact fun M hM => absurd hM List.not_mem_nil
  | enough => exact fun M hM => absurd hM List.not_mem_nil
  | unsat => exact fun M hM => absurd hM List.not_mem_nil
  | unknown => exact fun M hM => absurd hM List.not_mem_nil
  | @last n found e m N accepted hw hv hm hc hb =>
      obtain ⟨hα, hN⟩ := h.found hv hm hc
      intro M hM
      rcases Found.mem_models_add hM with ⟨rfl, -⟩ | hM
      · exact h.models_solve.mp ⟨m.value, hα, hN⟩
      · exact absurd hM List.not_mem_nil
  | @next n found e m N accepted e' f hw hv hm hc hb hrest ih =>
      obtain ⟨hα, hN⟩ := h.found hv hm hc
      intro M hM
      rcases Found.mem_models_add hM with ⟨rfl, -⟩ | hM
      · exact h.models_solve.mp ⟨m.value, hα, hN⟩
      · obtain ⟨β, hβ, hM⟩ := ih ((h.solve halt).block m) M hM
        exact h.models_solve.mp ⟨β, (((h.solve halt).adds_block m).admits.mp hβ).1, hM⟩

/-- When nothing interrupts it an enumeration without a bound lists every model once. -/
theorem Enumerates.lists {count found : Nat} {f : Found}
    (hf : Enumerates (fun _ => false) 0 count found e e' f)
    (h : Ready e) (hcount : (e.left e.atoms.size).card < count)
    (hraised : e'.solver.monitor.raised = false) : e.Lists f := by
  induction hf with
  | exhausted => exact absurd hcount (Nat.not_lt_zero _)
  | enough hw => exact absurd rfl hw.1
  | @unsat n found e hw hv =>
      exact lists_nothing fun α hα => h.sound.valid.not_admits_of_unsat hv α hα
  | @unknown n found e hw hv =>
      rcases h.sound.valid.reason_of_unknown hv with hr | hm | ⟨stats, hs⟩
      · rw [show (e.solve fun _ => false).1.solver.monitor.raised = true from hr] at hraised
        cases hraised
      · exact absurd h.maxConflicts hm
      · cases hs
  | @last n found e m M accepted hw hv hm hc hb =>
      have hsolve := h.solve fun _ => false
      obtain ⟨hα, hM⟩ := h.found hv hm hc
      obtain rfl := hsolve.accepted hc
      apply h.lists_solve
      exact hsolve.lists_add hα hM (lists_nothing (hsolve.sound.valid.not_admits_of_refused hb))
  | @next n found e m M accepted e' f hw hv hm hc hb hrest ih =>
      have hsolve := h.solve fun _ => false
      obtain ⟨hα, hM⟩ := h.found hv hm hc
      obtain rfl := hsolve.accepted hc
      have hless := hsolve.card_left_block hα
      rw [left_solve h] at hless
      apply h.lists_solve
      exact hsolve.lists_add hα hM
        (ih (hsolve.blocked hα) (Nat.lt_of_lt_of_le hless (Nat.le_of_lt_succ hcount)) hraised)

/-- An enumeration does not raise the flag by itself. -/
theorem Enumerates.follows {wanted count found : Nat} {f : Found}
    (hf : Enumerates halt wanted count found e e' f)
    (h : Decodable e) : e.solver.monitor.Follows e'.solver.monitor := by
  induction hf with
  | exhausted => exact .refl _
  | enough => exact .refl _
  | unsat => exact h.sound.valid.follows_solve halt
  | unknown => exact h.sound.valid.follows_solve halt
  | @last n found e m =>
      exact (h.sound.valid.follows_solve halt).trans ((h.solve halt).adds_block m).monitor
  | @next n found e m _ _ _ _ _ _ _ _ _ _ ih =>
      have hblock := (h.solve halt).adds_block m
      exact ((h.sound.valid.follows_solve halt).trans hblock.monitor).trans
        (ih ((h.solve halt).block m))

end Encoder

end ModelExpansion
