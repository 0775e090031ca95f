import Mathlib.Order.WellFoundedSet
import ModelExpansion.Proofs.Cycles
import ModelExpansion.Theory

/-! # Dependencies between defined symbols
A search visits exactly what its pending nodes lead to. Without recursion the defined symbols can be
ordered, so that one may argue from the symbols that a symbol depends on. -/

namespace ModelExpansion

open Relation

/-! ## What a search visits -/

theorem visited_or_pending_of_visit {α : Type} {visited pending : List α} {a b : α}
    (h : a ∈ visited ∨ a ∈ b :: pending) :
    a ∈ b :: visited ∨ a ∈ pending := by
  rcases h with h | h
  · exact .inl (List.mem_cons_of_mem _ h)
  · rcases List.mem_cons.mp h with rfl | h
    · exact .inl List.mem_cons_self
    · exact .inr h

section Reach

variable {α : Type} [DecidableEq α] {nodes : List α} {next : α → List α} {visited pending : List α}

theorem visited_or_pending_of_skip {a b : α} (hb : visited.contains b = true)
    (h : a ∈ visited ∨ a ∈ b :: pending) :
    a ∈ visited ∨ a ∈ pending := by
  rcases h with h | h
  · exact .inl h
  · rcases List.mem_cons.mp h with rfl | h
    · exact .inl (List.contains_iff_mem.mp hb)
    · exact .inr h

theorem mem_reach {a : α} (h : a ∈ visited ∨ a ∈ pending) :
    a ∈ reach nodes next visited pending := by
  fun_induction reach nodes next visited pending with
  | case1 visited => simpa using h
  | case2 visited b pending hb ih => exact ih (visited_or_pending_of_skip hb h)
  | case3 visited b pending _ _ ih =>
      exact ih ((visited_or_pending_of_visit h).imp_right (List.mem_append_right _))
  | case4 visited b pending _ _ ih => exact ih (visited_or_pending_of_visit h)

/-- When the successors of what is visited are visited or pending, those of everything that is
visited in the end are visited too. -/
theorem next_mem_reach (h : ∀ a ∈ visited, a ∈ nodes → ∀ b ∈ next a, b ∈ visited ∨ b ∈ pending) :
    ∀ a ∈ reach nodes next visited pending, a ∈ nodes → ∀ b ∈ next a,
      b ∈ reach nodes next visited pending := by
  fun_induction reach nodes next visited pending with
  | case1 visited =>
      intro a ha hnode b hb
      simpa using h a ha hnode b hb
  | case2 visited c pending hc ih =>
      apply ih
      intro a ha hnode b hb
      exact visited_or_pending_of_skip hc (h a ha hnode b hb)
  | case3 visited c pending _ _ ih =>
      apply ih
      intro a ha hnode b hb
      rcases List.mem_cons.mp ha with rfl | ha
      · exact .inr (List.mem_append_left _ hb)
      · exact (visited_or_pending_of_visit (h a ha hnode b hb)).imp_right (List.mem_append_right _)
  | case4 visited c pending _ hc ih =>
      apply ih
      intro a ha hnode b hb
      rcases List.mem_cons.mp ha with rfl | ha
      · exact absurd (List.contains_iff_mem.mpr hnode) hc
      · exact visited_or_pending_of_visit (h a ha hnode b hb)

/-- What holds of all that is visited or pending and is passed on to successors holds of all that is
visited in the end. -/
theorem forall_mem_reach {P : α → Prop} (hstep : ∀ a ∈ nodes, P a → ∀ b ∈ next a, P b)
    (hvisited : ∀ a ∈ visited, P a) (hpending : ∀ a ∈ pending, P a) :
    ∀ a ∈ reach nodes next visited pending, P a := by
  fun_induction reach nodes next visited pending with
  | case1 visited => exact hvisited
  | case2 visited b pending _ ih => exact ih hvisited (List.forall_mem_cons.mp hpending).2
  | case3 visited b pending _ hb ih =>
      obtain ⟨hPb, hpending⟩ := List.forall_mem_cons.mp hpending
      refine ih (List.forall_mem_cons.mpr ⟨hPb, hvisited⟩) ?_
      exact List.forall_mem_append.mpr ⟨hstep b (List.contains_iff_mem.mp hb) hPb, hpending⟩
  | case4 visited b pending _ _ ih =>
      obtain ⟨hPb, hpending⟩ := List.forall_mem_cons.mp hpending
      exact ih (List.forall_mem_cons.mpr ⟨hPb, hvisited⟩) hpending

/-- From pending nodes a search visits everything that a path leads to. -/
theorem mem_reach_iff {b : α} : b ∈ reach nodes next [] pending ↔
    ∃ a ∈ pending, ReflTransGen (fun a b => a ∈ nodes ∧ b ∈ next a) a b := by
  constructor
  · apply forall_mem_reach
    · rintro a ha ⟨c, hc, hpath⟩ b hb
      exact ⟨c, hc, hpath.tail ⟨ha, hb⟩⟩
    · exact fun a ha => absurd ha List.not_mem_nil
    · exact fun a ha => ⟨a, ha, .refl⟩
  · rintro ⟨a, ha, hpath⟩
    induction hpath with
    | refl => exact mem_reach (.inr ha)
    | tail _ hstep ih =>
        exact next_mem_reach (fun a ha => absurd ha List.not_mem_nil) _ ih hstep.1 _ hstep.2

end Reach

/-! ## Recursion -/

theorem lookup_map_of_mem {α β : Type} [DecidableEq α] {f : α → β} {xs : List α} {a : α}
    (h : a ∈ xs) :
    (xs.map fun x => (x, f x)).lookup a = some (f a) := by
  induction xs with
  | nil => cases h
  | cons x xs ih =>
      rw [List.map_cons, List.lookup_cons]
      by_cases hax : a = x
      · rw [hax, beq_self_eq_true]
      · rw [show (a == x) = false from beq_false_of_ne hax]
        exact ih (List.mem_of_ne_of_mem hax h)

namespace Definition

variable {D : Definition} {p q : SymbolId}

/-- Whether a rule for a symbol mentions another defined one. -/
def DependsOn (D : Definition) (p q : SymbolId) : Prop :=
  q ∈ D.defined ∧ ∃ r ∈ D.rules, r.head = p ∧ q ∈ r.symbols

theorem mem_defined : p ∈ D.defined ↔ ∃ r ∈ D.rules, r.head = p := mem_headSymbols

theorem DependsOn.mem_defined (h : D.DependsOn p q) : p ∈ D.defined := by
  obtain ⟨-, r, hr, hhead, -⟩ := h
  exact Definition.mem_defined.mpr ⟨r, hr, hhead⟩

theorem mem_dependencies : q ∈ D.dependencies p ↔ D.DependsOn p q := by
  rw [dependencies, List.mem_filter, mem_ascending, List.mem_flatMap, List.contains_iff_mem,
    DependsOn, and_comm]
  refine and_congr_right fun _ => exists_congr fun r => ?_
  rw [List.mem_filter, beq_iff_eq, and_assoc]

theorem edge_eq_dependsOn :
    Edge D.defined (fun p => ((D.defined.map fun p => (p, D.dependencies p)).lookup p).getD []) =
      D.DependsOn := by
  have hnext : ∀ p ∈ D.defined, ((D.defined.map fun p => (p, D.dependencies p)).lookup p).getD [] =
      D.dependencies p := fun p hp => by rw [lookup_map_of_mem hp, Option.getD_some]
  funext p q
  refine propext ⟨fun ⟨hp, hq⟩ => ?_, fun h => ⟨h.mem_defined, ?_⟩⟩
  · dsimp only at hq
    rwa [hnext p hp, mem_dependencies] at hq
  · dsimp only
    rwa [hnext p h.mem_defined, mem_dependencies]

/-- A definition is recursive exactly if some symbol leads back to itself. -/
theorem isRecursive_iff : D.isRecursive = true ↔ ∃ p, TransGen D.DependsOn p p := by
  rw [isRecursive, hasCycle_iff, edge_eq_dependsOn]

/-- A definition is not recursive if the defined symbols that its rules mention come before their
heads. -/
theorem isRecursive_eq_false (rank : SymbolId → Nat)
    (h : ∀ r ∈ D.rules, ∀ q ∈ r.symbols, q ∈ D.defined → rank q < rank r.head) :
    D.isRecursive = false := by
  have hrank : ∀ p q, TransGen D.DependsOn p q → rank q < rank p := by
    intro p q hpath
    induction hpath with
    | single hstep =>
        obtain ⟨hdefined, r, hr, rfl, hq⟩ := hstep
        exact h r hr _ hq hdefined
    | tail _ hstep ih =>
        obtain ⟨hdefined, r, hr, rfl, hq⟩ := hstep
        exact (h r hr _ hq hdefined).trans ih
  rw [Bool.eq_false_iff]
  intro hrecursive
  obtain ⟨p, hpath⟩ := isRecursive_iff.mp hrecursive
  exact Nat.lt_irrefl _ (hrank p p hpath)

/-- Without recursion, what holds of a symbol once it holds of all that the symbol depends on holds
of every defined symbol. -/
theorem dependency_induction (h : D.isRecursive = false) {P : SymbolId → Prop}
    (hstep : ∀ p ∈ D.defined, (∀ q, D.DependsOn p q → P q) → P p) : ∀ p ∈ D.defined, P p := by
  have hirrefl : ∀ p, ¬ TransGen (Function.swap D.DependsOn) p p := by
    intro p hpath
    rw [transGen_swap] at hpath
    rw [isRecursive_iff.mpr ⟨p, hpath⟩] at h
    cases h
  have : IsStrictOrder SymbolId (TransGen (Function.swap D.DependsOn)) :=
    { irrefl := hirrefl, trans := fun _ _ _ => TransGen.trans }
  have hfinite := (D.defined.finite_toSet).wellFoundedOn (r := TransGen (Function.swap D.DependsOn))
  intro p hp
  refine hfinite.induction hp fun p hp ih => hstep p hp fun q hq => ?_
  exact ih q hq.1 (.single hq)

end Definition

end ModelExpansion
