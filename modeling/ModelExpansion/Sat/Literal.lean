import ModelExpansion.Truth

/-! # Literals of propositional variables
A literal is a variable with a sign. Literals are numbered densely, and the number is all there is
to one: `signed` makes a literal from its variable and its sign, which `var` and `positive` give
back. -/

namespace ModelExpansion.Sat

/-- A literal. The two literals of variable `v` have the numbers `2 * v` and `2 * v + 1`, the
positive one first; variables are numbered from zero. -/
structure Lit where
  code : Nat
  deriving DecidableEq

namespace Lit

instance : Inhabited Lit := ⟨⟨0⟩⟩

@[inline] def var (l : Lit) : Nat := l.code / 2

@[inline] def positive (l : Lit) : Bool := l.code % 2 == 0

/-- The literal that is true when `v` has the given value. -/
@[inline] def signed (v : Nat) (value : Bool) : Lit := ⟨2 * v + (!value).toNat⟩

def pos (v : Nat) : Lit := signed v true

def neg (v : Nat) : Lit := signed v false

@[inline] def negate (l : Lit) : Lit := if l.positive then ⟨l.code + 1⟩ else ⟨l.code - 1⟩

/-- Value of the literal when its variable has the given value; an unassigned variable is
unknown. -/
@[inline] def under (l : Lit) (value : Truth) : Truth := value.withSign l.positive

def text (l : Lit) : String := (if l.positive then "" else "-") ++ toString l.var

@[simp] theorem var_signed (v : Nat) (b : Bool) : (signed v b).var = v := by
  cases b <;>
    simp only [var, signed, Bool.not_true, Bool.not_false, Bool.toNat_true, Bool.toNat_false] <;>
    omega

@[simp] theorem positive_signed (v : Nat) (b : Bool) : (signed v b).positive = b := by
  cases b <;> simp [positive, signed]

@[simp] theorem signed_var (l : Lit) : signed l.var l.positive = l := by
  cases l with | mk c =>
  rcases Nat.mod_two_eq_zero_or_one c with h | h <;> simp [signed, var, positive, h] <;> omega

theorem eq_iff {a b : Lit} : a = b ↔ a.var = b.var ∧ a.positive = b.positive :=
  ⟨fun h => h ▸ ⟨rfl, rfl⟩, fun ⟨hv, hp⟩ => by rw [← signed_var a, ← signed_var b, hv, hp]⟩

theorem negate_eq_signed (l : Lit) : l.negate = signed l.var !l.positive := by
  cases l with | mk c =>
  rcases Nat.mod_two_eq_zero_or_one c with h | h <;>
    simp [negate, signed, var, positive, h] <;> omega

@[simp] theorem var_negate (l : Lit) : l.negate.var = l.var := by simp [negate_eq_signed]

@[simp] theorem positive_negate (l : Lit) :
    l.negate.positive = !l.positive := by simp [negate_eq_signed]

@[simp] theorem negate_negate (l : Lit) : l.negate.negate = l := by simp [eq_iff]

theorem code_inj {a b : Lit} : a.code = b.code ↔ a = b :=
  ⟨fun h => by cases a; cases b; cases h; rfl, fun h => h ▸ rfl⟩

end Lit

def varText (v : Nat) : String := s!"x{v}"

end ModelExpansion.Sat
