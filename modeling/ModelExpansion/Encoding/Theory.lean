import ModelExpansion.Encoding.Formula

/-! # Encoding of ground theories
Sentences are asserted. A definition is replaced by its completion: a defined atom is equivalent to
the disjunction of the bodies of the rules with that head. -/

namespace ModelExpansion

open ModelExpansion.Sat ModelExpansion.Encoding

mutual

def assertFormula : Formula → Encoding Unit
  | .junction true true children => assertFormulas children
  | .junction true false children => do clause (← encodeFormulas children)
  | f => do clause [← encodeFormula f]

def assertFormulas : List Formula → Encoding Unit
  | [] => return ()
  | f :: fs => do
    assertFormula f
    assertFormulas fs

end

/-- Bodies of rules by head, that of the last rule first. -/
abbrev Bodies := Std.ExtTreeMap Atom (List Formula)

def collectBodies : List Rule → Bodies → Except Failure Bodies
  | [], bodies => return bodies
  | r :: rs, bodies =>
    match r.headTuple? with
    | none => throw (.notGround ("head of rule for " ++ Vocabulary.symbolIdText r.head))
    | some t =>
      if r.vars.isEmpty then
        let a : Atom := ⟨r.head, t⟩
        collectBodies rs (bodies.insert a (r.body :: bodies.getD a []))
      else throw (.notGround ("rule for " ++ Vocabulary.symbolIdText r.head))

/-- Literal of the disjunction of the bodies of an atom, which are encoded in the order of the
rules. -/
def encodeBodies (bodies : Bodies) (a : Atom) : Encoding Lit := do
  match bodies[a]? with
  | some formulas => or (← encodeFormulas formulas.reverse)
  | none => read Encoder.falsity

def completeTuples (bodies : Bodies) (p : SymbolId) : List Tuple → Encoding Unit
  | [] => return ()
  | t :: ts => do
    match ← read fun e => e.atomLit? p t with
    | none => completeTuples bodies p ts
    | some atom =>
      let body ← encodeBodies bodies ⟨p, t⟩
      clause [atom.negate, body]
      clause [atom, body.negate]
      completeTuples bodies p ts

def completeSymbols (bodies : Bodies) : List SymbolId → Encoding Unit
  | [] => return ()
  | p :: ps => do
    completeTuples bodies p (← lift ((← read Encoder.base).tuples p))
    completeSymbols bodies ps

/-- Adds the completion of ground rules. -/
def addCompletion (rules : List Rule) : Encoding Unit := do
  completeSymbols (← lift (collectBodies rules ∅)) (headSymbols rules)

/-- Adds a ground definition. One that is recursive is kept, to check models against it. -/
def addDefinition (D : Definition) : Encoding Unit := do
  addCompletion D.rules
  if D.isRecursive then step fun e => ({ e with definitions := e.definitions ++ [D] }, ())

/-- Adds a ground fixpoint definition, with the rules of all its levels, and keeps it. -/
def addFixpoint (F : Fixpoint) : Encoding Unit := do
  addCompletion F.allRules
  step fun e => ({ e with fixpoints := e.fixpoints ++ [F] }, ())

def addDefinitions : List Definition → Encoding Unit
  | [] => return ()
  | D :: Ds => do
    addDefinition D
    addDefinitions Ds

def addFixpoints : List Fixpoint → Encoding Unit
  | [] => return ()
  | F :: Fs => do
    addFixpoint F
    addFixpoints Fs

/-- Adds a ground theory. -/
def addTheory (T : Theory) : Encoding Unit := do
  assertFormulas T.sentences
  addDefinitions T.definitions
  addFixpoints T.fixpoints

end ModelExpansion
