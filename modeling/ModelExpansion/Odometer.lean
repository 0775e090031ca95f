import ModelExpansion.Element

/-! # Enumeration by an odometer
The odometer walks through the index tuples over some sizes one by one, the last position moving
fastest. With no position there is one empty tuple; with a position of size zero there is none. -/

namespace ModelExpansion

/-- A counter with a number of positions, each with its own base. -/
structure Odometer where
  sizes : List Nat
  indices : List Nat
  exhausted : Bool
  deriving DecidableEq

namespace Odometer

/-- The greatest word of 64 bits; a total above it is given as this. -/
def maxTotal : Nat := 18446744073709551615

/-- The odometer at its first tuple. -/
def start (sizes : List Nat) : Odometer := ⟨sizes, sizes.map fun _ => 0, sizes.contains 0⟩

def reset (o : Odometer) : Odometer := start o.sizes

def width (o : Odometer) : Nat := o.sizes.length

/-- Number of tuples, cut off at the greatest machine word after each factor. -/
def total (o : Odometer) : Nat := o.sizes.foldl (fun n size => min (n * size) maxTotal) 1

def current? (o : Odometer) : Option (List Nat) := if o.exhausted then none else some o.indices

/-- Adds one at the last position and carries; the Boolean is the carry out of the first
position. -/
def increment : List Nat → List Nat → List Nat × Bool
  | size :: sizes, i :: is =>
    match increment sizes is with
    | (is, false) => (i :: is, false)
    | (is, true) => if i + 1 < size then ((i + 1) :: is, false) else (0 :: is, true)
  | _, is => (is, true)

/-- Moves to the next tuple; the Boolean says whether there is one. -/
def advance (o : Odometer) : Odometer × Bool :=
  if o.exhausted then (o, false)
  else
    match increment o.sizes o.indices with
    | (is, carry) => (⟨o.sizes, is, carry⟩, !carry)

/-- The current tuple and the odometer after it. -/
def next? (o : Odometer) : Option (List Nat × Odometer) :=
  o.current?.map fun is => (is, o.advance.1)

/-- The next tuples, at most so many. -/
def take : Nat → Odometer → List (List Nat) × Odometer
  | 0, o => ([], o)
  | n + 1, o =>
    match o.next? with
    | none => ([], o)
    | some (is, o) =>
      match take n o with
      | (rest, o) => (is :: rest, o)

end Odometer

/-- An enumeration of the tuples over domains by an odometer. -/
structure TupleCursor where
  domains : List (List Element)
  odometer : Odometer

namespace TupleCursor

def start (domains : List (List Element)) : TupleCursor :=
  ⟨domains, Odometer.start (domains.map List.length)⟩

def reset (c : TupleCursor) : TupleCursor := { c with odometer := c.odometer.reset }

def total (c : TupleCursor) : Nat := c.odometer.total

def elementsAt (domains : List (List Element)) (indices : List Nat) : Tuple :=
  List.zipWith (fun d i => d.getD i default) domains indices

def next? (c : TupleCursor) : Option (Tuple × TupleCursor) :=
  c.odometer.next?.map fun found => (elementsAt c.domains found.1, { c with odometer := found.2 })

/-- The next tuples, at most so many. -/
def take : Nat → TupleCursor → List Tuple × TupleCursor
  | 0, c => ([], c)
  | n + 1, c =>
    match c.next? with
    | none => ([], c)
    | some (t, c) =>
      match take n c with
      | (rest, c) => (t :: rest, c)

end TupleCursor

end ModelExpansion
