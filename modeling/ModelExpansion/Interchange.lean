import ModelExpansion.Grounding

/-! # Interchangeable elements
Elements of one sort are interchangeable when every permutation of them maps the recorded facts onto
themselves and the theory neither names one of them nor computes with them. -/

namespace ModelExpansion

/-! ## Sorts with arithmetic meaning
Elements whose order or integer value matters to a theory must not be exchanged. These are the sorts
of terms in ordered comparisons, in comparisons with an aggregate, and of weights. -/

def sortsOf (V : Vocabulary) (ts : List Term) : List SortId := ts.filterMap (Term.sort? V)

def Term.isAggregate : Term → Bool
  | .aggregate _ _ => true
  | _ => false

def weightSorts (V : Vocabulary) : List Var → Term → List SortId
  | x :: _, _ => [x.sort]
  | [], weight => sortsOf V [weight]

mutual

def Formula.arithmetic (V : Vocabulary) : Formula → List SortId
  | .atom _ _ args => Term.arithmeticList V args
  | .junction _ _ fs => Formula.arithmeticList V fs
  | .quantified _ _ _ body => body.arithmetic V
  | .equivalence _ l r => l.arithmetic V ++ r.arithmetic V
  | .comparison _ ts cs =>
    (if cs.any Comparator.isOrder || ts.any Term.isAggregate then sortsOf V ts else [])
      ++ Term.arithmeticList V ts

def Term.arithmetic (V : Vocabulary) : Term → List SortId
  | .var _ | .element _ => []
  | .apply _ args => Term.arithmeticList V args
  | .aggregate kind set => set.arithmetic V kind

def SetExpr.arithmetic (V : Vocabulary) (kind : Aggregate) : SetExpr → List SortId
  | .enumerated ms => SetExpr.arithmeticMembers V kind ms
  | .comprehension vars condition weight =>
    (if kind.usesWeights then weightSorts V vars weight else [])
      ++ condition.arithmetic V ++ weight.arithmetic V

def Formula.arithmeticList (V : Vocabulary) : List Formula → List SortId
  | [] => []
  | f :: fs => f.arithmetic V ++ Formula.arithmeticList V fs

def Term.arithmeticList (V : Vocabulary) : List Term → List SortId
  | [] => []
  | t :: ts => t.arithmetic V ++ Term.arithmeticList V ts

def SetExpr.arithmeticMembers (V : Vocabulary) (kind : Aggregate) : List Member → List SortId
  | [] => []
  | (condition, weight) :: ms =>
    (if kind.usesWeights then sortsOf V [weight] else []) ++ condition.arithmetic V
      ++ weight.arithmetic V ++ SetExpr.arithmeticMembers V kind ms

end

/-- The sorts with arithmetic meaning in a theory. -/
def Theory.arithmeticSorts (T : Theory) (V : Vocabulary) : SortSet :=
  .ofList (Formula.arithmeticList V T.sentences
    ++ T.rules.flatMap fun r => Term.arithmeticList V r.args ++ r.body.arithmetic V)

/-! ## Detection
Candidates are elements that occur equally often at each position; then swaps are tried. -/

def swapElement (a b e : Element) : Element := if e = a then b else if e = b then a else e

def swapTuple (a b : Element) (t : Tuple) : Tuple := t.map (swapElement a b)

def swapAtom (a b : Element) (x : Atom) : Atom := ⟨x.symbol, swapTuple a b x.tuple⟩

/-- Interchangeable elements of a structure. -/
structure Interchange where
  /-- In ascending order, at least two. -/
  elements : List Element
  /-- The sorts that contain them. -/
  sorts : List SortId
  /-- The symbols with an argument or result in one of the sorts. -/
  symbols : List SymbolId
  deriving DecidableEq

/-- The pairs of consecutive elements. Their swaps generate all permutations. -/
def Interchange.swaps (I : Interchange) : List (Element × Element) := I.elements.zip I.elements.tail

/-- What can be told of an element without trying a swap. -/
structure Signature where
  /-- Which sorts contain it. -/
  sorts : List Bool
  /-- How often it stands at each position of the true and the false tuples of each symbol. -/
  counts : List (Nat × Nat)
  /-- Its place among the elements that the theory names. -/
  mention : Option Nat
  deriving DecidableEq

/-- How often an element stands at a position of the tuples that facts give a symbol with a truth
value. -/
def countAt (facts : List (Atom × Bool)) (e : Element) (p : SymbolId) (position : Nat)
    (value : Bool) : Nat :=
  facts.countP fun f => f.1.symbol == p && f.2 == value && f.1.tuple[position]? == some e

def positions (V : Vocabulary) : List (SymbolId × Nat) :=
  V.symbols.zipIdx.flatMap fun s => (List.range s.1.graphSorts.length).map fun i => (s.2, i)

def signature (S : Structure) (facts : List (Atom × Bool)) (named : List Element) (e : Element) :
    Signature where
  sorts := S.tables.map fun t => t.contains e
  counts := (positions S.vocabulary).map fun q =>
    (countAt facts e q.1 q.2 true, countAt facts e q.1 q.2 false)
  mention := named.idxOf? e

/-- Whether a swap maps the recorded facts onto themselves. -/
def swapInvariant (S : Structure) (a b : Element) : Bool :=
  S.certainFacts.all fun f => S.facts[swapAtom a b f.1]? == some f.2

/-- Puts an item into the first group whose first item is related to it, or else into a new one. -/
def insertIntoGroup {α : Type} (related : α → α → Bool) (x : α) : List (List α) → List (List α)
  | [] => [[x]]
  | g :: gs =>
    if g.head?.any fun y => related y x then (g ++ [x]) :: gs else g :: insertIntoGroup related x gs

/-- Groups items, in the order of first appearance. -/
def groupBy {α : Type} (related : α → α → Bool) (items : List α) : List (List α) :=
  items.foldl (fun groups x => insertIntoGroup related x groups) []

def signatureClasses (S : Structure) (named : List Element) (elements : List Element) :
    List (List Element) :=
  let facts := S.certainFacts
  let signed := elements.map fun e => (e, signature S facts named e)
  ((groupBy (fun a b => a.2 == b.2) signed).map fun g => g.map Prod.fst).filter fun g =>
    1 < g.length

/-- The interchangeable groups among elements. -/
def interchangeGroups (S : Structure) (named : List Element) (elements : List Element) :
    List (List Element) :=
  ((signatureClasses S named elements).flatMap (groupBy (swapInvariant S))).filter fun g =>
    1 < g.length

def Interchange.ofGroup (S : Structure) (elements : List Element) : Interchange :=
  let V := S.vocabulary
  let sorts := V.sortIds.filter fun s => (S.tables.getD s .empty).contains (elements.headD default)
  let sortSet : SortSet := .ofList sorts
  let touches := fun p => (V.symbols[p]?.map fun s => s.touches sortSet).getD false
  ⟨elements, sorts, V.symbolIds.filter touches⟩

/-- The elements of a sort, if they may be interchangeable: the sort is finite with two elements at
least, no sort above or below it has arithmetic meaning, and some symbol ranges over it or a sort
above. -/
def candidates (S : Structure) (arithmetic : SortSet) (sort : SortId) : List Element :=
  let V := S.vocabulary
  let ancestors := V.ancestors sort
  let related := ancestors ∪ V.descendants sort
  match (S.tables.getD sort .empty).elements? with
  | none => []
  | some elements =>
    if related.toList.any arithmetic.contains then []
    else if V.symbols.any fun s => s.touches ancestors then
      if 1 < elements.length then elements else []
    else []

/-- All sets of interchangeable elements, sort by sort, each once. -/
def interchanges (S : Structure) (T : Theory) : List Interchange :=
  let arithmetic := T.arithmeticSorts S.vocabulary
  let named := ascending T.elements
  let groups := S.vocabulary.sortIds.flatMap fun sort =>
    interchangeGroups S named (candidates S arithmetic sort)
  groups.eraseDups.map (Interchange.ofGroup S)

/-! ## Breaking symmetry
For each swap, formulas that keep only the models which do not come after their image in the order
of the unknown atoms. -/

/-- An atom that a swap moves, with its image. -/
structure Moved where
  atom : Atom
  image : Atom
  deriving DecidableEq

/-- Adds an atom to those found before it if a swap moves it and it is unknown. When the limit has
been reached before this atom, the atoms found are thrown and end the search; a limit of zero is
none. -/
def addMoved (S : Structure) (a b : Element) (limit : Nat) (p : SymbolId) (acc : Array Moved)
    (t : Tuple) :
    Except (Array Moved) (Array Moved) :=
  if limit ≠ 0 ∧ limit ≤ acc.size then throw acc
  else
    let image := swapTuple a b t
    if image ≠ t ∧ S.value p t = .unknown then return acc.push ⟨⟨p, t⟩, ⟨p, image⟩⟩ else return acc

/-- The unknown atoms of some symbols that a swap moves, in the order of atoms. -/
def moved (S : Structure) (a b : Element) (limit : Nat) :
    List SymbolId → Array Moved → Except Failure (Array Moved)
  | [], acc => return acc
  | p :: ps, acc => do
    match foldTuplesM (addMoved S a b limit p) (← S.graphDomains p) acc with
    | .error acc => return acc
    | .ok acc => moved S a b limit ps acc

/-- One formula for each moved atom: if all earlier atoms agree with their images, the atom implies
its image. `earlier` holds the disagreements so far. -/
def lexLeader (V : Vocabulary) : List Formula → List Moved → Except Failure (List Formula)
  | _, [] => return []
  | earlier, m :: ms => do
    let x ← atomFormula V m.atom
    let y ← atomFormula V m.image
    let rest ← lexLeader V (earlier ++ [(Formula.iff x y).negate]) ms
    return .disj (earlier ++ [x.negate, y]) :: rest

/-- The formulas for all swaps of an interchangeable set. A limit bounds their number for each
swap. -/
def Interchange.breakingFormulas (I : Interchange) (S : Structure) (limit : Nat) :
    Except Failure (List Formula) :=
  return (← I.swaps.mapM fun ab => do
    lexLeader S.vocabulary [] (← moved S ab.1 ab.2 limit I.symbols #[]).toList).flatten

end ModelExpansion
