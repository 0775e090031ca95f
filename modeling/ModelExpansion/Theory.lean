import ModelExpansion.Formula.Equality
import ModelExpansion.Formula.Occurrence

/-! # Rules, definitions and theories
A theory consists of definitions by induction, nested fixpoint definitions and sentences. -/

namespace ModelExpansion

/-- A rule: for all values of the variables, the head holds if the body does. -/
structure Rule where
  vars : List Var
  head : SymbolId
  args : List Term
  body : Formula
  deriving DecidableEq

namespace Rule

def headFormula (r : Rule) : Formula := .pred r.head r.args

def isGround (r : Rule) : Bool := r.vars.isEmpty && Term.areGround r.args && r.body.isGround

/-- Occurrences of variables that the rule does not bind. -/
def freeVars (r : Rule) : List Var :=
  (Term.freeVarsList r.args ++ r.body.freeVars).filter fun x => !r.vars.contains x

def symbols (r : Rule) : List SymbolId := r.body.symbols ++ Term.symbolsList r.args

def elements (r : Rule) : List Element := Term.elementsList r.args ++ r.body.elements

def headTuple? (r : Rule) : Option Tuple := r.args.mapM Term.element?

end Rule

/-- The symbols that head rules, in the order of first appearance. -/
def headSymbols (rules : List Rule) : List SymbolId := (rules.map Rule.head).eraseDups

theorem mem_headSymbols {rules : List Rule} {p : SymbolId} :
    p ∈ headSymbols rules ↔ ∃ r ∈ rules, r.head = p := by
  rw [headSymbols, List.mem_eraseDups, List.mem_map]

/-- The symbols that occur in rules but head none of them. -/
def openSymbols (rules : List Rule) : SymbolSet :=
  let heads := headSymbols rules
  .ofList ((rules.flatMap Rule.symbols).filter fun p => !heads.contains p)

/-- Rules that define the symbols in their heads by simultaneous induction. -/
structure Definition where
  rules : List Rule
  deriving DecidableEq

namespace Definition

def defined (D : Definition) : List SymbolId := headSymbols D.rules

def dependencies (D : Definition) (p : SymbolId) : List SymbolId :=
  let used := ascending ((D.rules.filter fun r => r.head == p).flatMap Rule.symbols)
  used.filter D.defined.contains

/-- Whether some defined symbol depends on itself, directly or through others. -/
def isRecursive (D : Definition) : Bool :=
  let edges := D.defined.map fun p => (p, D.dependencies p)
  let next := fun p => (edges.lookup p).getD []
  hasCycle D.defined next

def isGround (D : Definition) : Bool := D.rules.all Rule.isGround

end Definition

/-- One level of a nested fixpoint definition, with the levels evaluated inside it. -/
inductive Fixpoint where
  | level (least : Bool) (rules : List Rule) (nested : List Fixpoint)

namespace Fixpoint

def least : Fixpoint → Bool
  | level l _ _ => l

def rules : Fixpoint → List Rule
  | level _ rs _ => rs

def nested : Fixpoint → List Fixpoint
  | level _ _ ns => ns

instance : Inhabited Fixpoint := ⟨level true [] []⟩

mutual

def allRules : Fixpoint → List Rule
  | level _ rs ns => rs ++ allRulesList ns

def allRulesList : List Fixpoint → List Rule
  | [] => []
  | l :: ls => l.allRules ++ allRulesList ls

end

def defined (F : Fixpoint) : List SymbolId := headSymbols F.allRules

def isGround (F : Fixpoint) : Bool := F.allRules.all Rule.isGround

end Fixpoint

structure Theory where
  definitions : List Definition
  fixpoints : List Fixpoint
  sentences : List Formula

namespace Theory

def rules (T : Theory) : List Rule :=
  T.definitions.flatMap Definition.rules ++ T.fixpoints.flatMap Fixpoint.allRules

def isEmpty (T : Theory) : Bool :=
  T.definitions.isEmpty && T.fixpoints.isEmpty && T.sentences.isEmpty

def isGround (T : Theory) : Bool :=
  T.sentences.all Formula.isGround && T.definitions.all Definition.isGround
    && T.fixpoints.all Fixpoint.isGround

def elements (T : Theory) : List Element :=
  T.sentences.flatMap Formula.elements ++ T.rules.flatMap Rule.elements

def size (T : Theory) : Nat := T.sentences.length + T.rules.length

end Theory

end ModelExpansion
