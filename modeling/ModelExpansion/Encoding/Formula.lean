import ModelExpansion.Encoding.Gate
import ModelExpansion.Evaluation

/-! # Encoding of ground formulas and terms
A formula becomes an equivalent literal. A term becomes its cases: the values it may have, each with
a literal. Aggregates run through their members and keep the cases of the partial results. -/

namespace ModelExpansion

open ModelExpansion.Sat

namespace Encoding

/-- The argument tuples that cases allow, each with the conjunction of its literals. -/
def argumentCases (cases : List Cases) : Encoding (List (Tuple × Lit)) :=
  (product cases).mapM fun choice => return (choice.map Prod.fst, ← and (choice.map Prod.snd))

def valueCases {α : Type} : List (α × List Lit) → Encoding (List (α × Lit))
  | [] => return []
  | (a, lits) :: rest => do
    let l ← or lits
    let falsity ← read Encoder.falsity
    let others ← valueCases rest
    return if l = falsity then others else (a, l) :: others

/-- Literal of an atom at each of some argument cases; arguments outside the tables are left out. -/
def atomAlternatives (p : SymbolId) : List (Tuple × Lit) → Encoding (List Lit)
  | [] => return []
  | (t, guard) :: rest => do
    match ← read fun e => e.atomLit? p t with
    | some atom =>
      let l ← and [guard, atom]
      return l :: (← atomAlternatives p rest)
    | none => atomAlternatives p rest

/-- For each value of a function, the literal that it is the value at one argument case. -/
def graphRow (f : SymbolId) (values : List Element) (t : Tuple) (guard : Lit) :
    Encoding (List (Option Lit)) :=
  values.mapM fun v => do
    match ← read fun e => e.atomLit? f (t ++ [v]) with
    | some atom => return some (← and [guard, atom])
    | none => return none

def applicationCases (f : SymbolId) (values : List Element) (args : List (Tuple × Lit)) :
    Encoding Cases := do
  let rows ← args.mapM fun a => graphRow f values a.1 a.2
  let columns := rows.foldr (fun row acc => List.zipWith (fun o lits => o.toList ++ lits) row acc)
    (values.map fun _ => [])
  valueCases (values.zip columns)

def resultValues (f : SymbolId) : Encoding (List Element) := do
  lift ((← read Encoder.base).resultDomain f)

def linkChoices (c : Comparator) (left right : Cases) : List (Lit × Lit) :=
  left.flatMap fun a => (right.filter fun b => c.holds a.1 b.1).map fun b => (a.2, b.2)

def link (c : Comparator) (left right : Cases) : Encoding Lit := do
  or (← (linkChoices c left right).mapM fun ab => and [ab.1, ab.2])

def links : List Cases → List Comparator → Encoding (List Lit)
  | a :: b :: rest, c :: cs => return (← link c a b) :: (← links (b :: rest) cs)
  | _, _ => return []

/-- Partial results of an aggregate; `none` is the result over no member where there is none. -/
abbrev Partials := Std.ExtTreeMap (Option Int) Lit

/-- Literals collected for each partial result. -/
abbrev Collected := Std.ExtTreeMap (Option Int) (List Lit)

def collect (c : Collected) (key : Option Int) (l : Lit) : Collected :=
  c.insert key (c.getD key [] ++ [l])

/-- Extends one partial result by a member that is present with one of some weights. -/
def extendPartial (kind : Aggregate) (acc : Option Int) (reached present : Lit) :
    List (Int × Lit) → Collected → Encoding Collected
  | [], c => return c
  | (w, lw) :: rest, c => do
    let taken ← and [reached, present, lw]
    extendPartial kind acc reached present rest (collect c (kind.combine acc w) taken)

/-- Extends partial results by a member, which may be absent. -/
def extendPartials (kind : Aggregate) (present : Lit) (weights : List (Int × Lit)) :
    List (Option Int × Lit) → Collected → Encoding Collected
  | [], c => return c
  | (acc, reached) :: rest, c => do
    let skipped ← and [reached, present.negate]
    let c ← extendPartial kind acc reached present weights (collect c acc skipped)
    extendPartials kind present weights rest c

/-- The partial results after one more member. -/
def addMember (kind : Aggregate) (present : Lit) (weights : List (Int × Lit)) (states : Partials) :
    Encoding Partials := do
  let collected ← extendPartials kind present weights states.toList ∅
  return .ofList (← valueCases collected.toList)

/-- The integer weights among cases; all of them must be integers. -/
def weightCases (kind : Aggregate) : Cases → Except Failure (List (Int × Lit))
  | [] => return []
  | (.int w, l) :: rest => return (w, l) :: (← weightCases kind rest)
  | (e, _) :: _ => throw (.invalidAggregate (kind.text ++ " weight " ++ e.text))

def resultCases (states : Partials) : Cases :=
  states.toList.filterMap fun s => s.1.map fun n => (.int n, s.2)

end Encoding

open ModelExpansion.Encoding in
mutual

/-- Literal equivalent to a ground formula. -/
def encodeFormula : Formula → Encoding Lit
  | .atom sign p args => do
    let choices ← argumentCases (← encodeTerms args)
    let l ← or (← atomAlternatives p choices)
    return if sign then l else l.negate
  | .junction sign conjunctive children => do
    let lits ← encodeFormulas children
    let l ← if conjunctive then and lits else or lits
    return if sign then l else l.negate
  | .quantified _ _ _ _ => throw .quantifierLeft
  | .equivalence sign left right => do
    let a ← encodeFormula left
    let b ← encodeFormula right
    let l ← iff a b
    return if sign then l else l.negate
  | .comparison sign terms comparators => do
    lift (checkChain terms comparators)
    let cases ← encodeTerms terms
    let l ← and (← links cases comparators)
    return if sign then l else l.negate

def encodeFormulas : List Formula → Encoding (List Lit)
  | [] => return []
  | f :: fs => return (← encodeFormula f) :: (← encodeFormulas fs)

/-- Cases of a ground term. -/
def encodeTerm : Term → Encoding Cases
  | .var x => throw (.notGround x.name)
  | .element e => return [(e, ← read Encoder.truth)]
  | .apply f args => do
    let values ← resultValues f
    applicationCases f values (← argumentCases (← encodeTerms args))
  | .aggregate kind set => encodeSet kind set

def encodeTerms : List Term → Encoding (List Cases)
  | [] => return []
  | t :: ts => return (← encodeTerm t) :: (← encodeTerms ts)

/-- Cases of an aggregate over an enumerated set. -/
def encodeSet (kind : Aggregate) : SetExpr → Encoding Cases
  | .enumerated members => do
    let truth ← read Encoder.truth
    return resultCases (← encodeMembers kind members (.ofList [(kind.identity, truth)]))
  | .comprehension _ _ _ => throw .quantifierLeft

/-- Partial results after some more members. -/
def encodeMembers (kind : Aggregate) : List Member → Partials → Encoding Partials
  | [], states => return states
  | (condition, weight) :: ms, states => do
    let present ← encodeFormula condition
    let weights ←
      if kind.usesWeights then do lift (weightCases kind (← encodeTerm weight))
      else pure [(1, ← read Encoder.truth)]
    encodeMembers kind ms (← addMember kind present weights states)

end

end ModelExpansion
