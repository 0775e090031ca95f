/-! # Failures
One type for every way in which a stage of the expansion can be given up, with the texts that report
them. -/

namespace ModelExpansion

/-- Why grounding, evaluation or expansion was given up. -/
inductive Failure where
  /-- A quantifier, set or rule ranges over a sort without a finite table. -/
  | infiniteDomain (sort : String)
  | unknownSort (sort : String)
  | unknownSymbol (symbol : String)
  /-- A symbol was applied to the wrong number of arguments. -/
  | arityMismatch (symbol : String) (expected found : Nat)
  /-- An element is not in the table at its position of the graph tuple. -/
  | outOfDomain (symbol : String) (position : Nat) (sort element : String)
  | invalidFormula (detail : String)
  /-- Variables or quantifiers are left where there should be none. -/
  | notGround (detail : String)
  /-- A quantified formula or set was met where only ground ones may stand. -/
  | quantifierLeft
  | invalidAggregate (detail : String)
  /-- A tuple was to become both certainly true and certainly false. -/
  | inconsistent (symbol tuple : String)
  | solver (detail : String)
  | invalidConfig (detail : String)
  /-- The alternation that evaluates a definition repeats itself for ever. -/
  | unsettled
  deriving DecidableEq

namespace Failure

def message? : Failure → Option String
  | infiniteDomain sort => some ("cannot enumerate the infinite domain of sort `" ++ sort ++ "`")
  | unknownSort sort => some ("unknown sort `" ++ sort ++ "`")
  | unknownSymbol symbol => some ("unknown symbol `" ++ symbol ++ "`")
  | arityMismatch symbol expected found =>
    some ("`" ++ symbol ++ "` expects " ++ toString expected ++ " arguments, found " ++
      toString found)
  | outOfDomain symbol position sort element =>
    some ("`" ++ element ++ "` is not in the domain of sort `" ++ sort ++ "` (argument "
      ++ toString position ++ " of `" ++ symbol ++ "`)")
  | invalidFormula detail => some ("malformed formula: " ++ detail)
  | notGround detail => some ("expected a ground node: " ++ detail)
  | quantifierLeft => none
  | invalidAggregate detail => some ("invalid aggregate: " ++ detail)
  | inconsistent symbol tuple =>
    some ("inconsistent interpretation of `" ++ symbol ++ "` at " ++ tuple)
  | solver detail => some ("solver error: " ++ detail)
  | invalidConfig detail => some ("invalid configuration: " ++ detail)
  | unsettled => none

def isInputError : Failure → Bool
  | infiniteDomain _ | unknownSort _ | unknownSymbol _ | arityMismatch _ _ _ | outOfDomain _ _ _ _
  | invalidFormula _ => true
  | _ => false

end Failure

end ModelExpansion
