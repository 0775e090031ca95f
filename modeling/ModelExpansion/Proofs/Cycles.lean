import Mathlib.Logic.Relation
import ModelExpansion.Reachability

/-! # The search for a cycle
The depth-first search finds a cycle exactly if there is one, whatever the order in which it takes
the nodes and their successors. -/

namespace ModelExpansion

open Relation

/-- From where only finite paths start, none leads back. -/
theorem not_transGen_self_of_acc {α : Type} {R : α → α → Prop} {a : α}
    (h : Acc (Function.swap R) a) :
    ¬ TransGen R a a := by
  induction h with
  | intro a _ ih =>
      intro hpath
      obtain ⟨b, hb, hpath⟩ := TransGen.head'_iff.mp hpath
      exact ih b hb (.tail' hpath hb)

section

variable {α : Type} {nodes : List α} {next : α → List α} {path done pending : List α}

/-- The steps of the search: from a node to its successors. -/
def Edge (nodes : List α) (next : α → List α) (a b : α) : Prop := a ∈ nodes ∧ b ∈ next a

/-- What a search that finds no cycle leaves behind: all that was pending is done, and only finite
paths start from what is done. -/
structure Explored (nodes : List α) (next : α → List α) (done pending done' : List α) : Prop where
  kept : done ⊆ done'
  reached : pending ⊆ done'
  acc : ∀ a ∈ done', Acc (Function.swap (Edge nodes next)) a

theorem Explored.cons {done₁ done' : List α} {a : α} (h : Explored nodes next done₁ pending done')
    (hkept : done ⊆ done₁) (ha : a ∈ done₁) : Explored nodes next done (a :: pending) done' :=
  ⟨List.Subset.trans hkept h.kept, List.cons_subset.mpr ⟨h.kept ha, h.reached⟩, h.acc⟩

variable [DecidableEq α]

/-- The open nodes lead to the pending ones, so that an open node that comes up again leads to
itself. -/
theorem exists_cycle_of_explore (hpath : ∀ a ∈ path, ∀ b ∈ pending, TransGen (Edge nodes next) a b)
    (h : explore nodes next path done pending = none) : ∃ a, TransGen (Edge nodes next) a a := by
  fun_induction explore nodes next path done pending with
  | case1 path done => cases h
  | case2 path done a pending ha =>
      exact ⟨a, hpath a (List.contains_iff_mem.mp ha) a List.mem_cons_self⟩
  | case3 path done a pending _ _ ih =>
      exact ih (fun b hb c hc => hpath b hb c (List.mem_cons_of_mem _ hc)) h
  | case4 path done a pending _ _ ha hinner ih =>
      have ha : a ∈ nodes := List.contains_iff_mem.mp ha
      refine ih (fun b hb c hc => ?_) hinner
      rcases List.mem_cons.mp hb with rfl | hb
      · exact .single ⟨ha, hc⟩
      · exact (hpath b hb a List.mem_cons_self).tail ⟨ha, hc⟩
  | case5 path done a pending _ _ _ done' _ _ ih =>
      exact ih (fun b hb c hc => hpath b hb c (List.mem_cons_of_mem _ hc)) h
  | case6 path done a pending _ _ _ ih =>
      exact ih (fun b hb c hc => hpath b hb c (List.mem_cons_of_mem _ hc)) h

theorem explored_of_explore {done' : List α}
    (hacc : ∀ a ∈ done, Acc (Function.swap (Edge nodes next)) a)
    (h : explore nodes next path done pending = some done') :
    Explored nodes next done pending done' := by
  fun_induction explore nodes next path done pending generalizing done' with
  | case1 path done =>
      cases h
      exact ⟨List.Subset.refl _, List.nil_subset _, hacc⟩
  | case2 => cases h
  | case3 path done a pending _ ha ih =>
      exact (ih hacc h).cons (List.Subset.refl _) (List.contains_iff_mem.mp ha)
  | case4 => cases h
  | case5 path done a pending _ _ _ done₁ hinner ihinner ih =>
      have hbelow := ihinner hacc hinner
      have ha : Acc (Function.swap (Edge nodes next)) a :=
        .intro a fun b hb => hbelow.acc b (hbelow.reached hb.2)
      exact (ih (List.forall_mem_cons.mpr ⟨ha, hbelow.acc⟩) h).cons
        (List.Subset.trans hbelow.kept (List.subset_cons_self _ _)) List.mem_cons_self
  | case6 path done a pending _ _ hnode ih =>
      have ha : Acc (Function.swap (Edge nodes next)) a :=
        .intro a fun b hb => absurd (List.contains_iff_mem.mpr hb.1) hnode
      exact (ih (List.forall_mem_cons.mpr ⟨ha, hacc⟩) h).cons
        (List.subset_cons_self _ _) List.mem_cons_self

theorem explored_of_foldlM {as done' : List α}
    (hacc : ∀ a ∈ done, Acc (Function.swap (Edge nodes next)) a)
    (h : as.foldlM (fun done a => explore nodes next [] done [a]) done = some done') :
    Explored nodes next done as done' := by
  induction as generalizing done with
  | nil =>
      cases h
      exact ⟨List.Subset.refl _, List.nil_subset _, hacc⟩
  | cons a as ih =>
      rw [List.foldlM_cons, Option.bind_eq_bind, Option.bind_eq_some_iff] at h
      obtain ⟨done₁, hfirst, h⟩ := h
      have hexplored := explored_of_explore hacc hfirst
      exact (ih hexplored.acc h).cons hexplored.kept (hexplored.reached List.mem_cons_self)

theorem exists_cycle_of_foldlM {as : List α}
    (h : as.foldlM (fun done a => explore nodes next [] done [a]) done = none) :
    ∃ a, TransGen (Edge nodes next) a a := by
  induction as generalizing done with
  | nil => cases h
  | cons a as ih =>
      rw [List.foldlM_cons] at h
      cases hfirst : explore nodes next [] done [a] with
      | none => exact exists_cycle_of_explore (fun b hb => absurd hb List.not_mem_nil) hfirst
      | some done₁ =>
          rw [hfirst] at h
          exact ih h

/-- The search finds a cycle exactly if there is one. -/
theorem hasCycle_iff : hasCycle nodes next = true ↔ ∃ a, TransGen (Edge nodes next) a a := by
  rw [hasCycle, Option.isNone_iff_eq_none]
  constructor
  · exact exists_cycle_of_foldlM
  · rintro ⟨a, ha⟩
    cases hdone : nodes.foldlM (fun done a => explore nodes next [] done [a]) [] with
    | none => rfl
    | some done =>
        have hexplored := explored_of_foldlM (fun a ha => absurd ha List.not_mem_nil) hdone
        obtain ⟨b, hb, -⟩ := TransGen.head'_iff.mp ha
        exact absurd ha (not_transGen_self_of_acc (hexplored.acc a (hexplored.reached hb.1)))

/-- The orders of the nodes and of their successors do not matter. -/
theorem hasCycle_congr {nodes' : List α} {next' : α → List α} (hnodes : ∀ a, a ∈ nodes' ↔ a ∈ nodes)
    (hnext : ∀ a ∈ nodes, ∀ b, b ∈ next' a ↔ b ∈ next a) :
    hasCycle nodes' next' = hasCycle nodes next := by
  have hedge : Edge nodes' next' = Edge nodes next := by
    funext a b
    exact propext ((and_congr_left' (hnodes a)).trans (and_congr_right fun ha => hnext a ha b))
  rw [Bool.eq_iff_iff, hasCycle_iff, hasCycle_iff, hedge]

end

end ModelExpansion
