import ModelExpansion.Sat.Literal
import ModelExpansion.SortedList

/-! # Clauses with two watched literals
A stored clause has at least two literals, so the two that are watched are fields of their own.
Turning a clause round and moving a watch only permute its literals. -/

namespace ModelExpansion.Sat

/-- A disjunction of at least two literals; the first two are watched. -/
structure Clause where
  first : Lit
  second : Lit
  rest : Array Lit
  deriving DecidableEq

/-- The first of `count` positions from `start` on at which a literal satisfies `p`. -/
@[specialize] def findFrom? (p : Lit → Bool) (lits : Array Lit) : (count start : Nat) → Option Nat
  | 0, _ => none
  | count + 1, start =>
    if p (lits.getD start default) then some start else findFrom? p lits count (start + 1)

theorem findFrom?_eq_some {p : Lit → Bool} {lits : Array Lit} {count start i : Nat}
    (h : findFrom? p lits count start = some i) :
    start ≤ i ∧ i < start + count ∧ p (lits.getD i default) = true := by
  induction count generalizing start with
  | zero => simp [findFrom?] at h
  | succ count ih =>
    rw [findFrom?] at h
    split at h
    next hp =>
      cases h
      exact ⟨Nat.le_refl _, by omega, hp⟩
    next =>
      obtain ⟨lower, upper, hp⟩ := ih h
      exact ⟨by omega, by omega, hp⟩

theorem findFrom?_eq_none {p : Lit → Bool} {lits : Array Lit} {count start i : Nat}
    (h : findFrom? p lits count start = none) (lower : start ≤ i) (upper : i < start + count) :
    p (lits.getD i default) = false := by
  induction count generalizing start with
  | zero => omega
  | succ count ih =>
    rw [findFrom?] at h
    split at h
    next => cases h
    next hp =>
      rcases Nat.eq_or_lt_of_le lower with rfl | lower
      · simpa using hp
      · exact ih h lower (by omega)

theorem perm_set {α : Type} (x : α) (xs : List α) (i : Nat) (h : i < xs.length) :
    (xs[i] :: xs.set i x).Perm (x :: xs) := by
  induction xs generalizing i with
  | nil => simp at h
  | cons a as ih =>
    cases i with
    | zero => exact .swap x a as
    | succ i =>
      have bound : i < as.length := by simpa using h
      exact (List.Perm.swap a as[i] (as.set i x)).trans (((ih i bound).cons a).trans (.swap x a as))

/-- Literals are ordered by their numbers. -/
instance : Ord Lit := ⟨compareOn Lit.code⟩

instance : Std.TransOrd Lit := inferInstanceAs (Std.TransCmp (compareOn Lit.code))

instance : Std.LawfulEqOrd Lit where
  eq_of_compare h := Lit.code_inj.mp (Std.LawfulEqOrd.eq_of_compare (α := Nat) h)

/-- Some literal is followed by its complement. In a sorted list the two are neighbours. -/
def hasComplement : List Lit → Bool
  | a :: b :: rest => a == b.negate || hasComplement (b :: rest)
  | _ => false

namespace Clause

instance : Inhabited Clause := ⟨⟨default, default, #[]⟩⟩

def lits (c : Clause) : List Lit := c.first :: c.second :: c.rest.toList

/-- The literals but for the first, which is the one the clause implies when it is a reason. -/
def tail (c : Clause) : List Lit := c.second :: c.rest.toList

/-- Makes sure that a watched literal that has become false is the second one. -/
@[inline] def orient (falsified : Lit) (c : Clause) : Clause :=
  if c.first = falsified then ⟨c.second, c.first, c.rest⟩ else c

theorem lits_orient (l : Lit) (c : Clause) : (orient l c).lits.Perm c.lits := by
  unfold orient
  split
  · exact .swap c.first c.second c.rest.toList
  · exact .refl _

@[inline] def position? (free : Lit → Bool) (c : Clause) : Option Nat :=
  findFrom? free c.rest c.rest.size 0

@[inline] def unwatched (c : Clause) (i : Nat) : Lit := c.rest.getD i default

@[inline] def rewatch (i : Nat) (c : Clause) : Clause :=
  ⟨c.first, c.unwatched i, c.rest.setIfInBounds i c.second⟩

theorem lits_rewatch {c : Clause} {i : Nat} (h : i < c.rest.size) :
    (rewatch i c).lits.Perm c.lits := by
  refine List.Perm.cons c.first ?_
  have moved := perm_set c.second c.rest.toList i (by simpa using h)
  simpa [rewatch, unwatched, h] using moved

end Clause

end ModelExpansion.Sat
