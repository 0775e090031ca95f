import ModelExpansion.Formula.Basic
import ModelExpansion.Structure

/-! # Three-valued evaluation of ground formulas and terms
A value is known only when every way to decide the unknown atoms agrees on it. The polarity of an
occurrence turns over below each negative sign. -/

namespace ModelExpansion

/-! ## Where atoms and functions are read
A structure is a valuation. The stages in which a definition is evaluated are others. -/

/-- A source of truth values. It may answer for an atom differently at a positive and at a negative
occurrence. -/
structure Valuation where
  vocabulary : Vocabulary
  /-- The elements of a sort. -/
  domain : SortId → Except Failure (List Element)
  /-- Value of an atom where no polarity is given. -/
  atom : SymbolId → Tuple → Truth
  /-- Value of an atom at an occurrence; the Boolean is true for a positive one. -/
  atomAt : Bool → SymbolId → Tuple → Truth
  /-- Value of a function, if determined. -/
  function : SymbolId → Tuple → Except Failure (Option Element)

namespace Valuation

def fromGraph (V : Vocabulary) (domain : SortId → Except Failure (List Element))
    (atom : SymbolId → Tuple → Truth) (f : SymbolId) (args : Tuple) :
    Except Failure (Option Element) := do
  return determined? (← domain (← V.resultSort f)) fun v => atom f (args ++ [v])

/-- A valuation that reads functions off their graphs. -/
def ofAtoms (V : Vocabulary) (domain : SortId → Except Failure (List Element))
    (atom : SymbolId → Tuple → Truth) (atomAt : Bool → SymbolId → Tuple → Truth) : Valuation :=
  ⟨V, domain, atom, atomAt, fromGraph V domain atom⟩

end Valuation

/-- A structure answers alike at every occurrence. -/
def Structure.valuation (S : Structure) : Valuation where
  vocabulary := S.vocabulary
  domain := S.domain
  atom := S.value
  atomAt _ := S.value
  function := S.functionValue

/-! ## Terms and formulas -/

/-- Value of a ground term. -/
inductive TermValue where
  /-- The same element however the unknown atoms are decided. -/
  | known (e : Element)
  /-- No value at all, such as the minimum of an empty set. -/
  | undefined
  | unknown
  deriving DecidableEq

def TermValue.known? : TermValue → Option Element
  | .known e => some e
  | _ => none

/-- Values of the arguments of an atom or a function. -/
inductive ArgValues where
  | known (t : Tuple)
  /-- Some argument has no value. -/
  | undefined
  /-- Every argument may have a value and that of some is not known. -/
  | unknown
  deriving DecidableEq

/-- One link of a comparison: a term without a value satisfies none. -/
def Comparator.linkTruth (c : Comparator) : TermValue → TermValue → Truth
  | .known a, .known b => .ofBool (c.holds a b)
  | .undefined, _ => .no
  | _, .undefined => .no
  | _, _ => .unknown

def linksTruth : List TermValue → List Comparator → Truth
  | a :: b :: rest, c :: cs => (c.linkTruth a b).and (linksTruth (b :: rest) cs)
  | _, _ => .yes

/-- Rejects a comparison that does not have one comparator between each two consecutive terms. -/
def checkChain (terms : List Term) (comparators : List Comparator) : Except Failure Unit :=
  if comparators.length + 1 = terms.length then .ok ()
  else
    .error (.invalidFormula
      (toString comparators.length ++ " comparators between " ++ toString terms.length ++ " terms"))

/-- The failure of an aggregate over a weight that is no integer. -/
def Aggregate.badWeight (kind : Aggregate) (e : Element) : Failure :=
  .invalidAggregate (kind.text ++ " over non-integer weight " ++ e.text)

/-- Value of an aggregate after its members have been read. -/
def aggregateValue (acc : Option Int) (unknown : Bool) : TermValue :=
  if unknown then .unknown
  else
    match acc with
    | some n => .known (.int n)
    | none => .undefined

mutual

/-- Truth of a formula at an occurrence; the Boolean is true for a positive one. -/
def evalFormula (v : Valuation) (positive : Bool) : Formula → Except Failure Truth
  | .atom sign p args => do
    let inner := positive == sign
    match ← evalArgs v inner args with
    | .known t => return (v.atomAt inner p t).withSign sign
    | .undefined => return Truth.no.withSign sign
    | .unknown => return .unknown
  | .junction sign conjunctive children =>
    return (← evalChildren v (positive == sign) conjunctive
      (.ofBool conjunctive) children).withSign sign
  | .quantified _ _ _ _ => throw (.notGround "quantified formula in evaluation")
  | .equivalence sign left right => do
    let inner := positive == sign
    let both := (← evalFormula v inner left).and (← evalFormula v inner right)
    let neither := (← evalFormula v (!inner) left).not.and (← evalFormula v (!inner) right).not
    return (both.or neither).withSign sign
  | .comparison sign terms comparators => do
    checkChain terms comparators
    return (linksTruth (← evalTerms v (positive == sign) terms) comparators).withSign sign

/-- Truth of a conjunction or disjunction whose earlier children have the truth `acc`. Children
after the one that decides it are not looked at. -/
def evalChildren (v : Valuation) (positive conjunctive : Bool) (acc : Truth) :
    List Formula → Except Failure Truth
  | [] => return acc
  | f :: fs => do
    let x ← evalFormula v positive f
    let acc := if conjunctive then acc.and x else acc.or x
    if acc = .ofBool (!conjunctive) then return acc
    else evalChildren v positive conjunctive acc fs

/-- Value of a term whose conditions stand at an occurrence of the given polarity. -/
def evalTerm (v : Valuation) (positive : Bool) : Term → Except Failure TermValue
  | .var x => throw (.notGround ("variable `" ++ x.name ++ "`"))
  | .element e => return .known e
  | .apply f args => do
    match ← evalArgs v positive args with
    | .known t =>
      match ← v.function f t with
      | some e => return .known e
      | none => return .unknown
    | .undefined => return .undefined
    | .unknown => return .unknown
  | .aggregate kind set => evalSet v positive kind set

/-- Values of terms, from left to right. -/
def evalTerms (v : Valuation) (positive : Bool) : List Term → Except Failure (List TermValue)
  | [] => return []
  | t :: ts => return (← evalTerm v positive t) :: (← evalTerms v positive ts)

/-- Values of arguments; those after the first without a value are not looked at. -/
def evalArgs (v : Valuation) (positive : Bool) : List Term → Except Failure ArgValues
  | [] => return .known []
  | t :: ts => do
    match ← evalTerm v positive t with
    | .undefined => return .undefined
    | .known e =>
      match ← evalArgs v positive ts with
      | .known es => return .known (e :: es)
      | other => return other
    | .unknown =>
      match ← evalArgs v positive ts with
      | .undefined => return .undefined
      | _ => return .unknown

def evalSet (v : Valuation) (positive : Bool) (kind : Aggregate) :
    SetExpr → Except Failure TermValue
  | .enumerated members => evalMembers v positive kind kind.identity false members
  | .comprehension _ _ _ => throw (.notGround "quantified set in evaluation")

/-- Value of an aggregate whose earlier members have the value `acc`; `unknown` says whether one of
them was not decided. -/
def evalMembers (v : Valuation) (positive : Bool) (kind : Aggregate) (acc : Option Int)
    (unknown : Bool) :
    List Member → Except Failure TermValue
  | [] => return aggregateValue acc unknown
  | (condition, weight) :: ms => do
    match ← evalFormula v positive condition with
    | .no => evalMembers v positive kind acc unknown ms
    | .unknown => evalMembers v positive kind acc true ms
    | .yes =>
      if kind.usesWeights then
        match ← evalTerm v positive weight with
        | .known (.int w) => evalMembers v positive kind (kind.combine acc w) unknown ms
        | .known e => throw (kind.badWeight e)
        | .undefined => return .undefined
        | .unknown => evalMembers v positive kind acc true ms
      else evalMembers v positive kind (kind.combine acc 0) unknown ms

end

/-- The element a term denotes at a positive occurrence, if it is determined. -/
def elementOf? (v : Valuation) (t : Term) : Except Failure (Option Element) :=
  return (← evalTerm v true t).known?

end ModelExpansion
