import Mathlib.Algebra.Order.BigOperators.Group.List
import Mathlib.Algebra.Order.Ring.Nat
import Mathlib.Order.Bounds.Defs
import ModelExpansion.Proofs.Dependencies
import ModelExpansion.Vocabulary

/-! # Ancestors and descendants of a sort
A search takes one pending node after the other. It ends however the parents of the sorts lead to
each other, since each node is visited once, and what it has visited then is all that the parents
lead to. -/

namespace ModelExpansion

open Relation

/-! ## The turns of a search -/

section Turns

variable {α : Type} [DecidableEq α] {nodes : List α} {next : α → List α}
    {visited pending : List α} {a b : α}

/-- One turn of a search, with the visited and the pending nodes before and after it. The first
pending node is visited, unless it has been, and its successors become pending. -/
def turn (nodes : List α) (next : α → List α) : List α × List α → List α × List α
  | (visited, []) => (visited, [])
  | (visited, a :: pending) =>
    if visited.contains a then (visited, pending)
    else (a :: visited, (if nodes.contains a then next a else []) ++ pending)

/-- What is visited in the end does not change in a turn. -/
theorem reach_turn (s : List α × List α) :
    reach nodes next (turn nodes next s).1 (turn nodes next s).2 = reach nodes next s.1 s.2 := by
  obtain ⟨visited, pending⟩ := s
  cases pending with
  | nil => rw [turn]
  | cons a pending =>
      rw [turn, reach]
      split
      · rfl
      · split
        · rfl
        · rw [List.nil_append]

/-- Number of nodes that become pending when a node is visited. -/
def supplyOf (next : α → List α) (visited : List α) (a : α) : Nat :=
  if visited.contains a then 0 else (next a).length

/-- Number of nodes that may still become pending. -/
def supply (nodes : List α) (next : α → List α) (visited : List α) : Nat :=
  (nodes.map (supplyOf next visited)).sum

theorem supplyOf_visited : supplyOf next (a :: visited) a = 0 := by simp [supplyOf]

theorem supplyOf_cons_le : supplyOf next (a :: visited) b ≤ supplyOf next visited b := by
  rw [supplyOf, supplyOf]
  cases hb : (a :: visited).contains b with
  | true => exact Nat.zero_le _
  | false =>
      rw [List.contains_cons, Bool.or_eq_false_iff] at hb
      rw [hb.2]

theorem supply_cons_le : supply nodes next (a :: visited) ≤ supply nodes next visited :=
  List.sum_le_sum fun _ _ => supplyOf_cons_le

theorem supply_cons_add_le (ha : a ∈ nodes) (hvisited : visited.contains a = false) :
    supply nodes next (a :: visited) + (next a).length ≤ supply nodes next visited := by
  induction nodes with
  | nil => cases ha
  | cons b nodes ih =>
      have hb : supplyOf next (a :: visited) b ≤ supplyOf next visited b := supplyOf_cons_le
      have htail : supply nodes next (a :: visited) ≤ supply nodes next visited := supply_cons_le
      simp only [supply, List.map_cons, List.sum_cons] at ih htail ⊢
      rcases List.mem_cons.mp ha with rfl | ha
      · have hself : supplyOf next visited a = (next a).length := by
          rw [supplyOf, hvisited]
          rfl
        rw [supplyOf_visited, hself]
        omega
      · have hrest := ih ha
        omega

theorem supply_turn_lt (nodes : List α) (next : α → List α) (visited pending : List α) (b : α) :
    (turn nodes next (visited, b :: pending)).2.length +
    supply nodes next (turn nodes next (visited, b :: pending)).1 <
      (b :: pending).length + supply nodes next visited := by
  rw [turn, List.length_cons]
  split
  · exact Nat.add_lt_add_right (Nat.lt_succ_self _) _
  · next hvisited =>
      rw [Bool.not_eq_true] at hvisited
      rw [List.length_append]
      dsimp only
      split
      · next hnode =>
          have hsupply : supply nodes next (b :: visited) + (next b).length ≤
              supply nodes next visited :=
            supply_cons_add_le (List.contains_iff_mem.mp hnode) hvisited
          omega
      · have hsupply : supply nodes next (b :: visited) ≤ supply nodes next visited :=
          supply_cons_le
        rw [List.length_nil]
        omega

/-- A search ends after a turn for each node that is pending or may become so. -/
theorem iterate_turn {n : Nat} (hn : pending.length + supply nodes next visited ≤ n) :
    (turn nodes next)^[n] (visited, pending) = (reach nodes next visited pending, []) := by
  induction n generalizing visited pending with
  | zero =>
      obtain rfl : pending = [] := List.length_eq_zero_iff.mp (by omega)
      rw [reach, Function.iterate_zero_apply]
  | succ n ih =>
      cases pending with
      | nil =>
          rw [reach]
          exact Function.iterate_fixed rfl (n + 1)
      | cons b pending =>
          have hlt := supply_turn_lt nodes next visited pending b
          rw [Function.iterate_succ_apply, ← reach_turn (visited, b :: pending)]
          exact ih (Nat.le_of_lt_succ (Nat.lt_of_lt_of_le hlt hn))

end Turns

/-! ## Sorts and their parents -/

namespace Vocabulary

variable {V : Vocabulary} {s t : SortId}

/-- Whether a sort is declared and has another one among its parents. -/
def HasParent (V : Vocabulary) (t p : SortId) : Prop := ∃ d, V.sorts[t]? = some d ∧ p ∈ d.parents

theorem mem_sortIds_iff : t ∈ V.sortIds ↔ ∃ d, V.sorts[t]? = some d := by
  rw [sortIds, numSorts, List.mem_range]
  exact ⟨fun h => ⟨_, List.getElem?_eq_getElem h⟩, fun ⟨_, h⟩ => (List.getElem?_eq_some_iff.mp h).1⟩

theorem parents_of_sort {d : SortDecl} (h : V.sorts[t]? = some d) : V.parents t = d.parents := by
  rw [parents, h]

theorem hasParent_iff {p : SortId} : V.HasParent t p ↔ t ∈ V.sortIds ∧ p ∈ V.parents t := by
  rw [mem_sortIds_iff, HasParent]
  constructor
  · rintro ⟨d, hd, hp⟩
    rw [parents_of_sort hd]
    exact ⟨⟨d, hd⟩, hp⟩
  · rintro ⟨⟨d, hd⟩, hp⟩
    rw [parents_of_sort hd] at hp
    exact ⟨d, hd, hp⟩

theorem map_parents_sortIds (V : Vocabulary) :
    V.sortIds.map V.parents = V.sorts.map SortDecl.parents := by
  rw [sortIds, numSorts]
  refine List.ext_getElem (by simp) fun i _ hi => ?_
  rw [List.length_map] at hi
  rw [List.getElem_map, List.getElem_map, List.getElem_range,
    parents_of_sort (List.getElem?_eq_getElem hi)]

section Search

variable {next : SortId → List SortId} (hnext : ∀ t, (next t).Perm (V.parents t))

include hnext

theorem supply_sortIds :
    supply V.sortIds next [] = (V.sorts.map fun d => d.parents.length).sum := by
  have hlength : supplyOf next [] = fun t => (V.parents t).length :=
    funext fun t => (hnext t).length_eq
  have hmap : V.sorts.map (fun d => d.parents.length) =
      (V.sorts.map SortDecl.parents).map List.length :=
    List.map_map.symm
  rw [supply, hlength, hmap, ← map_parents_sortIds, List.map_map]
  rfl

/-- A search from a sort visits the sorts that its parents lead to, in whatever order they become
pending. -/
theorem mem_reach_parents_iff : t ∈ reach V.sortIds next [] [s] ↔ ReflTransGen V.HasParent s t := by
  have hstep : (fun t p => t ∈ V.sortIds ∧ p ∈ next t) = V.HasParent := by
    funext t p
    rw [hasParent_iff, (hnext t).mem_iff]
  rw [mem_reach_iff, hstep]
  simp only [List.mem_singleton, exists_eq_left]

end Search

theorem mem_ancestors_iff : t ∈ V.ancestors s ↔ ReflTransGen V.HasParent s t := by
  rw [ancestors, Std.ExtTreeSet.mem_ofList, List.contains_iff_mem]
  exact mem_reach_parents_iff fun _ => .refl _

theorem mem_descendants_iff :
    t ∈ V.descendants s ↔ (∃ d, V.sorts[t]? = some d) ∧ ReflTransGen V.HasParent t s := by
  rw [descendants, Std.ExtTreeSet.mem_ofList, List.contains_iff_mem, List.mem_filter,
    mem_sortIds_iff, Std.ExtTreeSet.contains_iff_mem, mem_ancestors_iff]

/-- Whether all parents of a declared sort in a set are in the set. -/
def ClosedUpwards (V : Vocabulary) (X : Set SortId) : Prop := ∀ t ∈ X, ∀ p, V.HasParent t p → p ∈ X

theorem isLeast_ancestors (V : Vocabulary) (s : SortId) :
    IsLeast {X | s ∈ X ∧ V.ClosedUpwards X} {t | t ∈ V.ancestors s} := by
  simp only [mem_ancestors_iff]
  refine ⟨⟨.refl, fun t ht p hp => ht.tail hp⟩, fun X hX t ht => ?_⟩
  induction ht with
  | refl => exact hX.1
  | tail _ hstep ih => exact hX.2 _ ih _ hstep

/-- Whatever the parents of the sorts are, cyclic or undeclared ones among them, the search for the
ancestors of a sort ends after at most one turn more than there are parents, in whichever order they
become pending. The ancestors are the least set that has the sort and is closed upwards, and the
descendants are the declared sorts that the sort can be reached from. -/
theorem ancestors_descendants (V : Vocabulary) (s : SortId) :
    (∀ next : SortId → List SortId, (∀ t, (next t).Perm (V.parents t)) →
      ∃ n ≤ (V.sorts.map fun d => d.parents.length).sum + 1, ∃ visited,
        (turn V.sortIds next)^[n] ([], [s]) = (visited, []) ∧
        ∀ t, t ∈ visited ↔ t ∈ V.ancestors s) ∧
    IsLeast {X | s ∈ X ∧ V.ClosedUpwards X} {t | t ∈ V.ancestors s} ∧
    ∀ t, t ∈ V.descendants s ↔ (∃ d, V.sorts[t]? = some d) ∧ ReflTransGen V.HasParent t s := by
  refine ⟨fun next hnext => ?_, V.isLeast_ancestors s, fun t => mem_descendants_iff⟩
  have hsupply := supply_sortIds hnext
  refine ⟨_, le_rfl, reach V.sortIds next [] [s], iterate_turn ?_, fun t => ?_⟩
  · rw [hsupply, List.length_singleton, Nat.add_comm]
  · rw [mem_reach_parents_iff hnext, mem_ancestors_iff]

/-- A circle of three sorts, one of which is its own parent and one of which has a parent that is
not declared. -/
def circle : Vocabulary := ⟨[⟨"rock", [1, 0]⟩, ⟨"scissors", [2, 7]⟩, ⟨"paper", [0]⟩], []⟩

/-- The search goes once around the circle, with the last parent first. All three sorts are below
the one that is not declared, which is not even below itself. -/
theorem ancestors_descendants_circle :
    (∃ n ≤ 6, ∃ visited, (turn circle.sortIds fun t => (circle.parents t).reverse)^[n] ([], [0]) =
      (visited, []) ∧
      ∀ t, t ∈ visited ↔ t ∈ circle.ancestors 0) ∧
    (∀ t ∈ circle.sortIds, t ∈ circle.descendants 7) ∧ 7 ∉ circle.descendants 7 := by
  obtain ⟨hsearch, -, -⟩ := ancestors_descendants circle 0
  obtain ⟨-, -, hbelow⟩ := ancestors_descendants circle 7
  refine ⟨hsearch _ fun t => List.reverse_perm _,
    fun t ht => (hbelow t).mpr ⟨mem_sortIds_iff.mp ht, ?_⟩, fun h => ?_⟩
  · have hundeclared : ReflTransGen circle.HasParent 1 7 := .single ⟨_, rfl, by decide⟩
    have hrock : ReflTransGen circle.HasParent 0 7 := hundeclared.head ⟨_, rfl, by decide⟩
    have hpaper : ReflTransGen circle.HasParent 2 7 := hrock.head ⟨_, rfl, by decide⟩
    have hcases : ∀ t ∈ circle.sortIds, t = 0 ∨ t = 1 ∨ t = 2 := by decide
    rcases hcases t ht with rfl | rfl | rfl
    · exact hrock
    · exact hundeclared
    · exact hpaper
  · obtain ⟨⟨d, hd⟩, -⟩ := (hbelow 7).mp h
    cases hd

end Vocabulary

end ModelExpansion
