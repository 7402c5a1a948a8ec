/-! Why an expression of the grammar is no filter. Fragments are the one-line text of
the part that is refused. -/

namespace RowFilter

/-- A form that the grammar has and filters do not. -/
inductive Construct where
  | emptyChain
  | chainedComparison
  | identityComparison
  deriving DecidableEq

/-- What a method or helper wants in its parentheses. -/
inductive Wanted where
  | oneList
  | oneInteger
  | nothing
  | someVariables
  deriving DecidableEq

/-- What a single argument has to be. -/
inductive WantedKind where
  | uniformList
  | integer
  | variableNames
  deriving DecidableEq

inductive Rejection where
  | unsupported (construct : Construct) (fragment : String)
  | notCondition (fragment : String)
  | invalidOperand (fragment : String)
  | mixedList (fragment : String)
  | unknownMethod (name : String)
  | unknownHelper (name : String)
  | invalidCallee (fragment : String)
  | notPositional (function : String)
  | wrongCount (function : String) (wanted : Wanted) (given : Nat)
  | wrongArgument (function : String) (wanted : WantedKind) (fragment : String)
  deriving DecidableEq

def Construct.text : Construct → String
  | .emptyChain => "an empty boolean chain"
  | .chainedComparison => "a chained comparison"
  | .identityComparison => "an identity comparison"

def Wanted.text : Wanted → String
  | .oneList => "exactly one list argument"
  | .oneInteger => "exactly one integer argument"
  | .nothing => "no arguments"
  | .someVariables => "at least one variable"

def WantedKind.text : WantedKind → String
  | .uniformList => "a list of integers or strings"
  | .integer => "an integer"
  | .variableNames => "variable names"

def Rejection.message : Rejection → String
  | .unsupported construct fragment => construct.text ++ " is not supported: `" ++ fragment ++ "`"
  | .notCondition fragment => "`" ++ fragment ++ "` is not a condition"
  | .invalidOperand fragment => "invalid comparison operand `" ++ fragment ++ "`"
  | .mixedList fragment =>
    "list literals must hold only integers or only strings: `" ++ fragment ++ "`"
  | .unknownMethod name => "unknown method `" ++ name ++ "`"
  | .unknownHelper name => "unknown function `" ++ name ++ "`"
  | .invalidCallee fragment =>
    "calls must target a variable method or a helper function: `" ++ fragment ++ "`"
  | .notPositional function =>
    "`" ++ function ++ "` does not accept keyword or starred arguments"
  | .wrongCount function wanted given =>
    "`" ++ function ++ "` expects " ++ wanted.text ++ ", got " ++ toString given ++ " argument(s)"
  | .wrongArgument function wanted fragment =>
    "`" ++ function ++ "` expects " ++ wanted.text ++ ", got `" ++ fragment ++ "`"

end RowFilter
