/-! # Searches in a finite graph
A search with a list of visited and a list of pending nodes ends because every node is visited
once. -/

namespace ModelExpansion

variable {α : Type} [DecidableEq α]

def unvisited (nodes visited : List α) : Nat := nodes.countP fun a => !visited.contains a

theorem not_contains_of_cons {a b : α} {visited : List α}
    (h : (!(a :: visited).contains b) = true) : (!visited.contains b) = true := by
  simp only [List.contains_cons, Bool.not_or, Bool.and_eq_true] at h
  exact h.2

theorem unvisited_cons_le (nodes : List α) (a : α) (visited : List α) :
    unvisited nodes (a :: visited) ≤ unvisited nodes visited :=
  List.countP_mono_left fun _ _ => not_contains_of_cons

theorem unvisited_cons_lt {nodes : List α} {a : α} {visited : List α} (ha : a ∈ nodes)
    (hv : visited.contains a = false) :
    unvisited nodes (a :: visited) < unvisited nodes visited := by
  induction nodes with
  | nil => cases ha
  | cons b bs ih =>
    have tail := unvisited_cons_le bs a visited
    unfold unvisited at ih tail ⊢
    rw [List.countP_cons, List.countP_cons]
    rcases List.mem_cons.mp ha with rfl | ha
    · have here : (!(a :: visited).contains a) = false := by simp
      rw [here, hv]
      simpa using Nat.lt_succ_of_le tail
    · have := ih ha
      by_cases h : (!(a :: visited).contains b) = true
      · rw [h, not_contains_of_cons h]
        simpa using this
      · simp only [h, Bool.false_eq_true, if_false]
        omega

/-- Adds to the visited nodes everything that can be reached from the pending ones. Only the given
nodes have successors. -/
def reach (nodes : List α) (next : α → List α) (visited : List α) : List α → List α
  | [] => visited
  | a :: pending =>
    if visited.contains a then reach nodes next visited pending
    else if nodes.contains a then reach nodes next (a :: visited) (next a ++ pending)
    else reach nodes next (a :: visited) pending
termination_by pending => (unvisited nodes visited, pending.length)
decreasing_by
  · exact Prod.Lex.right _ (by simp)
  · rename_i hv ha
    exact Prod.Lex.left _ _ (unvisited_cons_lt (by simpa using ha) (by simpa using hv))
  · rcases Nat.lt_or_eq_of_le (unvisited_cons_le nodes a visited) with lt | eq
    · exact Prod.Lex.left _ _ lt
    · rw [eq]
      exact Prod.Lex.right _ (by simp)

/-! ## Cycles
In a depth-first search a node is open while its successors are explored and done afterwards. An
open node that comes up again closes a cycle. -/

/-- Explores the pending nodes, one after the other, below the open ones, and returns the nodes that
are done then, or nothing once there is a cycle. Only the given nodes have successors. -/
def explore (nodes : List α) (next : α → List α) (path done : List α) : List α → Option (List α)
  | [] => some done
  | a :: pending =>
    if path.contains a then none
    else if done.contains a then explore nodes next path done pending
    else if nodes.contains a then
      match explore nodes next (a :: path) done (next a) with
      | none => none
      | some done => explore nodes next path (a :: done) pending
    else explore nodes next path (a :: done) pending
termination_by pending => (unvisited nodes path, pending.length)
decreasing_by
  · exact Prod.Lex.right _ (by simp)
  · rename_i hpath _ ha
    exact Prod.Lex.left _ _ (unvisited_cons_lt (by simpa using ha) (by simpa using hpath))
  · exact Prod.Lex.right _ (by simp)
  · exact Prod.Lex.right _ (by simp)

/-- Whether some of the nodes lies on a cycle: each of them is explored in turn. -/
def hasCycle (nodes : List α) (next : α → List α) : Bool :=
  (nodes.foldlM (fun done a => explore nodes next [] done [a]) []).isNone

end ModelExpansion
