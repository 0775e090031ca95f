/-! # Three-valued truth
Kleene's strong connectives on certainly true, certainly false and not decided. -/

namespace ModelExpansion

inductive Truth where
  | yes
  | no
  | unknown
  deriving DecidableEq

namespace Truth

instance : Inhabited Truth := ⟨unknown⟩

def ofBool : Bool → Truth
  | true => yes
  | false => no

def ofOption : Option Bool → Truth
  | some b => ofBool b
  | none => unknown

def toOption : Truth → Option Bool
  | yes => some true
  | no => some false
  | unknown => none

@[inline] def isYes : Truth → Bool
  | yes => true
  | _ => false

@[inline] def isNo : Truth → Bool
  | no => true
  | _ => false

@[inline] def isKnown : Truth → Bool
  | unknown => false
  | _ => true

protected def not : Truth → Truth
  | yes => no
  | no => yes
  | unknown => unknown

protected def and : Truth → Truth → Truth
  | no, _ => no
  | _, no => no
  | yes, yes => yes
  | _, _ => unknown

protected def or : Truth → Truth → Truth
  | yes, _ => yes
  | _, yes => yes
  | no, no => no
  | _, _ => unknown

/-- Equivalence is decided only when both sides are. -/
protected def iff : Truth → Truth → Truth
  | yes, b => b
  | no, b => b.not
  | unknown, _ => unknown

@[inline] def withSign (sign : Bool) (a : Truth) : Truth := if sign then a else a.not

@[simp] theorem withSign_true (a : Truth) : a.withSign true = a := rfl

@[simp] theorem withSign_false (a : Truth) : a.withSign false = a.not := rfl

@[simp] theorem toOption_ofBool (b : Bool) : (ofBool b).toOption = some b := by cases b <;> rfl

@[simp] theorem toOption_ofOption (o : Option Bool) : (ofOption o).toOption = o := by
  rcases o with _ | b
  · rfl
  · exact toOption_ofBool b

end Truth

end ModelExpansion
