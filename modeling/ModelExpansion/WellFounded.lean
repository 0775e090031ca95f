import ModelExpansion.Evaluation
import ModelExpansion.Theory

/-! # The well-founded model of ground rules
Negative occurrences of defined atoms are read from a fixed set while the positive ones are derived.
The alternation of such least models approaches the true atoms from below and the possible ones from
above, unless an aggregate over defined atoms makes it repeat itself. -/

namespace ModelExpansion

def Rule.headAtom (r : Rule) : Except Failure Atom :=
  match r.headTuple? with
  | some t => .ok ⟨r.head, t⟩
  | none => .error (.notGround "rule head")

def AtomSet.truth (atoms : AtomSet) (p : SymbolId) (t : Tuple) : Truth :=
  .ofBool (atoms.contains ⟨p, t⟩)

/-- Reads the defined symbols from two sets of atoms, one for each polarity, and all others from a
structure. -/
def stage (base : Structure) (defined : List SymbolId) (positive negative : AtomSet) : Valuation :=
  let atomAt (pos : Bool) (p : SymbolId) (t : Tuple) : Truth :=
    if defined.contains p then (if pos then positive else negative).truth p t else base.value p t
  { vocabulary := base.vocabulary
    domain := base.domain
    atom := atomAt true
    atomAt := atomAt
    function := fun f args =>
      if defined.contains f then Valuation.fromGraph base.vocabulary base.domain
        (atomAt true) f args
      else base.functionValue f args }

/-- The heads, not among the current atoms, of the rules whose body is true. -/
def derive (v : Valuation) (current : AtomSet) : List Rule → Except Failure (List Atom)
  | [] => return []
  | r :: rs => do
    let head ← r.headAtom
    if current.contains head then derive v current rs
    else
      let holds := (← evalFormula v true r.body) == .yes
      let rest ← derive v current rs
      return if holds then head :: rest else rest

/-- Adds derived atoms until none is new, at most so many times. -/
def closeUnder (base : Structure) (defined : List SymbolId) (fixed : AtomSet) (rules : List Rule) :
    Nat → AtomSet → Except Failure AtomSet
  | 0, current => return current
  | n + 1, current => do
    match ← derive (stage base defined current fixed) current rules with
    | [] => return current
    | new => closeUnder base defined fixed rules n (current.insertMany new)

/-- Least set closed under the rules when negative occurrences are read from a fixed set. Every
round but the last adds the head of a rule, so there are no more rounds than rules and one. -/
def leastModel (base : Structure) (defined : List SymbolId) (rules : List Rule) (fixed : AtomSet) :
    Except Failure AtomSet :=
  closeUnder base defined fixed rules (rules.length + 1) ∅

/-- A three-valued model of a definition. -/
structure WellFounded where
  /-- Atoms that are true. -/
  certain : AtomSet
  /-- Atoms that are not false. -/
  possible : AtomSet
  deriving DecidableEq

namespace WellFounded

/-- Whether the two sets are of one size. -/
def isTotal (w : WellFounded) : Bool := w.certain.size == w.possible.size

def undefined (w : WellFounded) : List Atom :=
  w.possible.toList.filter fun a => !w.certain.contains a

end WellFounded

/-- Alternates least models from a lower bound on until it stays the same, at most so many times. -/
def alternate (base : Structure) (defined : List SymbolId) (rules : List Rule) :
    Nat → AtomSet → Except Failure WellFounded
  | 0, _ => throw .unsettled
  | n + 1, lower => do
    let upper ← leastModel base defined rules lower
    let next ← leastModel base defined rules upper
    if next = lower then return ⟨lower, upper⟩ else alternate base defined rules n next

/-- A number of rounds after which a lower bound must have come back: a bound is a set of heads. -/
def alternationBound (rules : List Rule) : Nat := Nat.pow 2 rules.length + 1

/-- The well-founded model of ground rules over a structure. -/
def wellFoundedModel (base : Structure) (defined : List SymbolId) (rules : List Rule) :
    Except Failure WellFounded :=
  alternate base defined rules (alternationBound rules) ∅

end ModelExpansion
