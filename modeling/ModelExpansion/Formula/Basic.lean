import ModelExpansion.Aggregate
import ModelExpansion.Vocabulary

/-! # Terms, set expressions and formulas
Every formula carries a sign, and negation turns the sign over, so neither negation nor grounding
changes the shape of a formula. -/

namespace ModelExpansion

/-- A variable, bound by an enclosing quantifier, set or rule. -/
structure Var where
  id : Nat
  name : String
  sort : SortId
  deriving DecidableEq

/-- The relations between consecutive terms of a comparison. -/
inductive Comparator where
  | eq
  | ne
  | lt
  | le
  | gt
  | ge
  deriving DecidableEq

namespace Comparator

def holds (c : Comparator) (a b : Element) : Bool :=
  let o := compare a b
  match c with
  | eq => o == .eq
  | ne => o != .eq
  | lt => o == .lt
  | le => o != .gt
  | gt => o == .gt
  | ge => o != .lt

def isOrder : Comparator → Bool
  | eq | ne => false
  | _ => true

def text : Comparator → String
  | eq => "="
  | ne => "~="
  | lt => "<"
  | le => "=<"
  | gt => ">"
  | ge => ">="

end Comparator

mutual

inductive Term where
  | var (x : Var)
  | element (e : Element)
  | apply (f : SymbolId) (args : List Term)
  | aggregate (kind : Aggregate) (set : SetExpr)

/-- The set of an aggregate: conditions with weights. -/
inductive SetExpr where
  | enumerated (members : List (Formula × Term))
  /-- One member for each tuple of the variables' domains. -/
  | comprehension (vars : List Var) (condition : Formula) (weight : Term)

inductive Formula where
  | atom (sign : Bool) (symbol : SymbolId) (args : List Term)
  /-- A conjunction or, when the second Boolean is false, a disjunction. -/
  | junction (sign conjunctive : Bool) (children : List Formula)
  /-- A universal or, when the second Boolean is false, an existential quantification. -/
  | quantified (sign universal : Bool) (vars : List Var) (body : Formula)
  | equivalence (sign : Bool) (left right : Formula)
  /-- A chain of comparisons with one comparator between each two consecutive terms. -/
  | comparison (sign : Bool) (terms : List Term) (comparators : List Comparator)

end

abbrev Member := Formula × Term

instance : Inhabited Term := ⟨.element default⟩

instance : Inhabited Formula := ⟨.junction true true []⟩

namespace Term

def element? : Term → Option Element
  | element e => some e
  | _ => none

/-- The declared sort of the value, for a variable or a function. -/
def sort? (V : Vocabulary) : Term → Option SortId
  | var x => some x.sort
  | apply f _ => V.symbols[f]?.bind Symbol.result
  | _ => none

end Term

namespace Formula

def sign : Formula → Bool
  | atom s _ _ | junction s _ _ | quantified s _ _ _ | equivalence s _ _ | comparison s _ _ => s

def withSign (sign : Bool) : Formula → Formula
  | atom _ p args => atom sign p args
  | junction _ c children => junction sign c children
  | quantified _ u vars body => quantified sign u vars body
  | equivalence _ l r => equivalence sign l r
  | comparison _ ts cs => comparison sign ts cs

def negate (f : Formula) : Formula := f.withSign !f.sign

def pred (symbol : SymbolId) (args : List Term) : Formula := atom true symbol args

def conj (children : List Formula) : Formula := junction true true children

def disj (children : List Formula) : Formula := junction true false children

def ofBool (b : Bool) : Formula := junction true b []

def implies (premise conclusion : Formula) : Formula := disj [premise.negate, conclusion]

def iff (left right : Formula) : Formula := equivalence true left right

def forAll (vars : List Var) (body : Formula) : Formula := quantified true true vars body

def exist (vars : List Var) (body : Formula) : Formula := quantified true false vars body

def compare (left : Term) (c : Comparator) (right : Term) : Formula :=
  comparison true [left, right] [c]

def chain (terms : List Term) (comparators : List Comparator) : Formula :=
  comparison true terms comparators

def constant? : Formula → Option Bool
  | junction sign c [] => some (c == sign)
  | _ => none

@[simp] theorem sign_withSign (s : Bool) (f : Formula) : (f.withSign s).sign = s := by
  cases f <;> rfl

@[simp] theorem withSign_withSign (s t : Bool) (f : Formula) :
    (f.withSign s).withSign t = f.withSign t := by
  cases f <;> rfl

@[simp] theorem withSign_sign (f : Formula) : f.withSign f.sign = f := by cases f <;> rfl

@[simp] theorem negate_negate (f : Formula) : f.negate.negate = f := by simp [negate]

end Formula

end ModelExpansion
