import Mathlib.Tactic.Common
import ModelExpansion.Grounding

/-! # Classical worlds
A world decides every atom. Formulas are true or false in it, and a term has a value or none: a
function has none outside its tables, a minimum none over no members, an aggregate none when a true
member has a weight without a value. -/

namespace ModelExpansion

/-- Two-valued truth of atoms over the tables of some sorts. -/
structure World where
  elements : SortId → List Element
  /-- The possible values of a function. -/
  results : SymbolId → List Element
  atom : SymbolId → Tuple → Bool
  /-- Whether the members of an aggregate need weights. -/
  weighted : Aggregate → Bool

namespace World

/-- The value of a function whose graph holds. -/
def image (W : World) (f : SymbolId) (t : Tuple) : Option Element :=
  (W.results f).find? fun v => W.atom f (t ++ [v])

/-- The tuples that variables may be bound to. -/
def tuples (W : World) (vars : List Var) : List Tuple :=
  product (vars.map fun x => W.elements x.sort)

/-- The weights of the true members, in order; nothing when one of them has no weight. -/
def weights : List (Bool × Option Int) → Option (List Int)
  | [] => some []
  | (false, _) :: rest => weights rest
  | (true, none) :: _ => none
  | (true, some w) :: rest => (weights rest).map (w :: ·)

/-- The weight that a value is; where members need none, all of them weigh the same. -/
def weight (W : World) (kind : Aggregate) (v : Option Element) : Option Int :=
  if W.weighted kind then v.bind Element.toInt? else some 1

/-- Value of an aggregate, which takes the weights one after the other. -/
def fold (kind : Aggregate) (members : List (Bool × Option Int)) : Option Element :=
  ((weights members).bind kind.fold).map .int

def link (c : Comparator) : Option Element → Option Element → Bool
  | some a, some b => c.holds a b
  | _, _ => false

def links : List (Option Element) → List Comparator → Bool
  | a :: b :: rest, c :: cs => link c a b && links (b :: rest) cs
  | _, _ => true

def junction (conjunctive : Bool) (truths : List Bool) : Bool :=
  if conjunctive then truths.all id else truths.any id

/-- An atom needs the values of all arguments. -/
def holdsAt (W : World) (p : SymbolId) (args : List (Option Element)) : Bool :=
  match args.mapM id with
  | some t => W.atom p t
  | none => false

mutual

/-- Value of a term under a binding of its variables, if it has one. -/
def value (W : World) (b : Binding) : Term → Option Element
  | .var x => b.lookup x.id
  | .element e => some e
  | .apply f args => ((W.values b args).mapM id).bind (W.image f)
  | .aggregate kind set => fold kind (W.members b kind set)

def values (W : World) (b : Binding) : List Term → List (Option Element)
  | [] => []
  | t :: ts => W.value b t :: W.values b ts

/-- The members of a set, each with its truth and its weight. In a comprehension with variables a
member weighs the element bound to the first of them. -/
def members (W : World) (b : Binding) (kind : Aggregate) : SetExpr → List (Bool × Option Int)
  | .enumerated ms => W.listed b kind ms
  | .comprehension vars condition weightTerm =>
    (W.tuples vars).map fun t =>
      let b := b.extend vars t
      (W.truth b condition,
        W.weight kind (match t with | e :: _ => some e | [] => W.value b weightTerm))

def listed (W : World) (b : Binding) (kind : Aggregate) : List Member → List (Bool × Option Int)
  | [] => []
  | (condition, weightTerm) :: ms =>
    (W.truth b condition, W.weight kind (W.value b weightTerm)) :: W.listed b kind ms

/-- Truth of a formula under a binding of its variables. -/
def truth (W : World) (b : Binding) : Formula → Bool
  | .atom sign p args => W.holdsAt p (W.values b args) == sign
  | .junction sign conjunctive children => junction conjunctive (W.truths b children) == sign
  | .quantified sign universal vars body =>
    junction universal ((W.tuples vars).map fun t => W.truth (b.extend vars t) body) == sign
  | .equivalence sign left right => (W.truth b left == W.truth b right) == sign
  | .comparison sign terms comparators => links (W.values b terms) comparators == sign

def truths (W : World) (b : Binding) : List Formula → List Bool
  | [] => []
  | f :: fs => W.truth b f :: W.truths b fs

end

/-- Whether an instance of a rule has an atom as its head and a true body. -/
def Derives (W : World) (rules : List Rule) (a : Atom) : Prop :=
  ∃ r ∈ rules, ∃ u ∈ W.tuples r.vars, r.head = a.symbol ∧
    W.values (Binding.extend [] r.vars u) r.args = a.tuple.map some ∧
    W.truth (Binding.extend [] r.vars u) r.body = true

end World

namespace Structure

/-- The elements of a sort; none when the table cannot be enumerated. -/
def elements (S : Structure) (sort : SortId) : List Element := (S.domain sort).toOption.getD []

/-- The possible values of a function; a predicate has none. -/
def results (S : Structure) (f : SymbolId) : List Element := (S.resultDomain f).toOption.getD []

/-- The world over the tables of a structure in which some atoms are true. Counting needs no
weights. -/
def worldOf (S : Structure) (atom : Atom → Bool) : World :=
  ⟨S.elements, S.results, fun p t => atom ⟨p, t⟩, Aggregate.usesWeights⟩

/-- The atoms that are recorded as true. -/
def isTrue (S : Structure) (a : Atom) : Bool := S.facts[a]? == some true

/-- The world that a structure describes: what is not recorded as true is false. -/
def world (S : Structure) : World := S.worldOf S.isTrue

/-- Whether the elements of an atom are in the tables at their positions. -/
def InTables (S : Structure) (a : Atom) : Prop := S.checkTuple a.symbol a.tuple = .ok ()

instance (S : Structure) (a : Atom) : Decidable (S.InTables a) :=
  inferInstanceAs (Decidable (S.checkTuple a.symbol a.tuple = .ok ()))

/-- Every application of a function over its tables has exactly one of its values. -/
def Functional (S : Structure) (W : World) : Prop :=
  ∀ f s result, S.vocabulary.symbols[f]? = some s → s.result = some result →
    ∀ t ∈ product (s.args.map S.elements), ∃! v, v ∈ S.elements result ∧ W.atom f (t ++ [v]) = true

/-- Whether a world agrees with everything that a structure records. -/
def Keeps (S : Structure) (W : World) : Prop :=
  ∀ {a : Atom} {v}, S.facts[a]? = some v → W.atom a.symbol a.tuple = v

/-- A total structure over the same vocabulary and tables that keeps every fact, gives every
function application one value and makes the sentences true. -/
structure IsExpansion (S : Structure) (sentences : List Formula) (M : Structure) : Prop where
  vocabulary : M.vocabulary = S.vocabulary
  tables : M.tables = S.tables
  total : ∀ a, a ∈ M.facts ↔ M.InTables a
  keeps : ∀ {a : Atom} {v}, S.facts[a]? = some v → M.facts[a]? = some v
  functional : M.Functional M.world
  holds : ∀ f ∈ sentences, M.world.truth [] f = true

end Structure

end ModelExpansion
