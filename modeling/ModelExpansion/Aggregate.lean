/-! # Aggregates over weighted members
An aggregate takes the weights of the true members of a set one after the other, in words of 64 bits
that stop at their bounds. -/

namespace ModelExpansion

/-- What is computed from the weights of the true members of a set. -/
inductive Aggregate where
  | card
  | sum
  | prod
  | min
  | max
  deriving DecidableEq

namespace Aggregate

def minInt : Int := -9223372036854775808

def maxInt : Int := 9223372036854775807

def clamp (n : Int) : Int := if n < minInt then minInt else if maxInt < n then maxInt else n

/-- Value over the empty set, if it has one. -/
def identity : Aggregate → Option Int
  | card | sum => some 0
  | prod => some 1
  | min | max => none

/-- Takes one more true member into account; sums and products stay within 64 bits after each
step. -/
def combine : Aggregate → Option Int → Int → Option Int
  | card, acc, _ => some (clamp (acc.getD 0 + 1))
  | sum, acc, w => some (clamp (acc.getD 0 + w))
  | prod, acc, w => some (clamp (acc.getD 1 * w))
  | min, none, w => some w
  | min, some a, w => some (if w < a then w else a)
  | max, none, w => some w
  | max, some a, w => some (if a < w then w else a)

/-- Whether the weights of the members matter. -/
def usesWeights (k : Aggregate) : Bool := k != card

/-- Value over a whole list of weights. -/
def fold (k : Aggregate) (weights : List Int) : Option Int := weights.foldl k.combine k.identity

def text : Aggregate → String
  | card => "card"
  | sum => "sum"
  | prod => "prod"
  | min => "min"
  | max => "max"

end Aggregate

end ModelExpansion
