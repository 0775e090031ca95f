import ModelExpansion.Structure
import ModelExpansion.Theory

/-! # Grounding over finite tables
A quantifier becomes the conjunction or disjunction over all tuples of its variables' domains, in
lexicographic order; everything else keeps its shape. Variables are bound by their numbers. -/

namespace ModelExpansion

/-- Values of bound variables, the innermost binding first. -/
abbrev Binding := List (Nat × Element)

/-- Binds variables to the elements of a tuple; of two with one number the later one counts. -/
def Binding.extend (b : Binding) (vars : List Var) (t : Tuple) : Binding :=
  (vars.zip t).foldl (fun b xe => (xe.1.id, xe.2) :: b) b

/-- What a function gives for the tuples that variables may be bound to, up to its first failure. -/
def Structure.instances {α : Type} (S : Structure) (vars : List Var)
    (f : Tuple → Except Failure α) :
    Except Failure (List α) := do
  mapTuplesM f (← S.domains (vars.map Var.sort))

mutual

def groundTerm (S : Structure) (b : Binding) : Term → Except Failure Term
  | .var x =>
    match b.lookup x.id with
    | some e => return .element e
    | none => return .var x
  | .element e => return .element e
  | .apply f args => return .apply f (← groundTerms S b args)
  | .aggregate kind set => return .aggregate kind (← groundSet S b set)

def groundTerms (S : Structure) (b : Binding) : List Term → Except Failure (List Term)
  | [] => return []
  | t :: ts => return (← groundTerm S b t) :: (← groundTerms S b ts)

/-- A member of a comprehension with variables weighs the element bound to the first of them. -/
def groundSet (S : Structure) (b : Binding) : SetExpr → Except Failure SetExpr
  | .enumerated ms => return .enumerated (← groundMembers S b ms)
  | .comprehension vars condition weight => do
    let members ← S.instances vars fun t => do
      let b := b.extend vars t
      let condition ← groundFormula S b condition
      match t with
      | e :: _ => return (condition, Term.element e)
      | [] => return (condition, ← groundTerm S b weight)
    return .enumerated members

def groundMembers (S : Structure) (b : Binding) : List Member → Except Failure (List Member)
  | [] => return []
  | (condition, weight) :: ms =>
    return (← groundFormula S b condition, ← groundTerm S b weight) :: (← groundMembers S b ms)

def groundFormula (S : Structure) (b : Binding) : Formula → Except Failure Formula
  | .atom sign p args => return .atom sign p (← groundTerms S b args)
  | .junction sign conjunctive children =>
    return .junction sign conjunctive (← groundFormulas S b children)
  | .quantified sign universal vars body =>
    return .junction sign universal
      (← S.instances vars fun t => groundFormula S (b.extend vars t) body)
  | .equivalence sign left right =>
    return .equivalence sign (← groundFormula S b left) (← groundFormula S b right)
  | .comparison sign terms comparators =>
    return .comparison sign (← groundTerms S b terms) comparators

def groundFormulas (S : Structure) (b : Binding) : List Formula → Except Failure (List Formula)
  | [] => return []
  | f :: fs => return (← groundFormula S b f) :: (← groundFormulas S b fs)

end

/-- The instances of a rule, one for each tuple of its variables. -/
def groundRule (S : Structure) (r : Rule) : Except Failure (List Rule) :=
  S.instances r.vars fun t => do
    let b := Binding.extend [] r.vars t
    return ⟨[], r.head, ← groundTerms S b r.args, ← groundFormula S b r.body⟩

def groundRules (S : Structure) (rules : List Rule) : Except Failure (List Rule) :=
  return (← rules.mapM (groundRule S)).flatten

def groundDefinition (S : Structure) (D : Definition) : Except Failure Definition :=
  return ⟨← groundRules S D.rules⟩

mutual

/-- Grounds the rules of every level. -/
def groundFixpoint (S : Structure) : Fixpoint → Except Failure Fixpoint
  | .level least rules nested =>
    return .level least (← groundRules S rules) (← groundFixpoints S nested)

def groundFixpoints (S : Structure) : List Fixpoint → Except Failure (List Fixpoint)
  | [] => return []
  | l :: ls => return (← groundFixpoint S l) :: (← groundFixpoints S ls)

end

/-- The formula that an atom holds; the atom of a function is an equation. -/
def atomFormula (V : Vocabulary) (a : Atom) : Except Failure Formula := do
  let s ← V.symbol a.symbol
  match s.isFunction, a.tuple.getLast? with
  | true, some value =>
    let app := Term.apply a.symbol (a.tuple.dropLast.map Term.element)
    return .compare app .eq (.element value)
  | _, _ => return .pred a.symbol (a.tuple.map Term.element)

/-- What a structure records, as ground formulas. -/
def factFormulas (S : Structure) : Except Failure (List Formula) :=
  S.certainFacts.mapM fun fact => return (← atomFormula S.vocabulary fact.1).withSign fact.2

/-- Grounds a theory and adds what the structure records to its sentences. -/
def groundTheory (S : Structure) (T : Theory) : Except Failure Theory := do
  let definitions ← T.definitions.mapM (groundDefinition S)
  let fixpoints ← groundFixpoints S T.fixpoints
  let sentences ← groundFormulas S [] T.sentences
  return ⟨definitions, fixpoints, sentences ++ (← factFormulas S)⟩

end ModelExpansion
