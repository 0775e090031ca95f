/-! # Sorted lists without repetition
Sorting by insertion keeps exactly the members of a list and puts each of them in its place once. -/

namespace ModelExpansion

variable {α : Type} [Ord α]

/-- Each element is strictly below the later ones. -/
def Ascending (xs : List α) : Prop := xs.Pairwise fun a b => compare a b = .lt

instance (xs : List α) : Decidable (Ascending xs) := by
  unfold Ascending; infer_instance

/-- Puts an element at its place in an ascending list, unless it is there already. -/
def insertAscending (x : α) : List α → List α
  | [] => [x]
  | a :: as =>
    match compare x a with
    | .lt => x :: a :: as
    | .eq => a :: as
    | .gt => a :: insertAscending x as

/-- The elements of a list in ascending order, each once. -/
def ascending (xs : List α) : List α := xs.foldr insertAscending []

theorem mem_insertAscending [Std.LawfulEqOrd α] {x y : α} {xs : List α} :
    y ∈ insertAscending x xs ↔ y = x ∨ y ∈ xs := by
  induction xs with
  | nil => simp [insertAscending]
  | cons a as ih =>
    simp only [insertAscending]
    split
    · simp
    · rename_i h
      have h : x = a := Std.LawfulEqOrd.eq_of_compare h
      simp [h]
    · simp [ih, or_left_comm]

theorem mem_ascending [Std.LawfulEqOrd α] {y : α} {xs : List α} :
    y ∈ ascending xs ↔ y ∈ xs := by
  induction xs with
  | nil => simp [ascending]
  | cons a as ih =>
    have : ascending (a :: as) = insertAscending a (ascending as) := rfl
    rw [this, mem_insertAscending, ih, List.mem_cons]

theorem Ascending.insertAscending [Std.TransOrd α] [Std.LawfulEqOrd α] {xs : List α}
    (h : Ascending xs) (x : α) : Ascending (insertAscending x xs) := by
  induction xs with
  | nil => simp [Ascending, ModelExpansion.insertAscending]
  | cons a as ih =>
    have ha := List.pairwise_cons.mp h
    simp only [ModelExpansion.insertAscending]
    split
    · rename_i hx
      refine List.pairwise_cons.mpr ⟨fun b hb => ?_, h⟩
      rcases List.mem_cons.mp hb with rfl | hb
      · exact hx
      · exact Std.TransCmp.lt_trans hx (ha.1 b hb)
    · exact h
    · rename_i hx
      refine List.pairwise_cons.mpr ⟨fun b hb => ?_, ih ha.2⟩
      rcases mem_insertAscending.mp hb with rfl | hb
      · exact Std.OrientedCmp.lt_of_gt hx
      · exact ha.1 b hb

theorem ascending_ascending [Std.TransOrd α] [Std.LawfulEqOrd α] (xs : List α) :
    Ascending (ascending xs) := by
  induction xs with
  | nil => simp [ascending, Ascending]
  | cons a as ih => exact ih.insertAscending a

end ModelExpansion
