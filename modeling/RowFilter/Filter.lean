import RowFilter.Canonical.Form
import RowFilter.Parse
import RowFilter.Query.Payload
import RowFilter.Resolution.Resolve

/-! From source text to a query, and on to a resolved one. -/

namespace RowFilter

/-- What can be wrong with a filter, by the stage that finds it. -/
inductive FilterError where
  | parse (error : ParseError)
  | rejection (error : Rejection)
  | resolve (error : ResolveError)
  deriving DecidableEq

namespace FilterError

/-- The finding without the stage. -/
def cause : FilterError → String
  | .parse e => e.message
  | .rejection e => e.message
  | .resolve e => e.message

def message : FilterError → String
  | .parse e => "Syntax error: " ++ e.message
  | .rejection e => "Unsupported expression: " ++ e.message
  | .resolve e => "Resolve error: " ++ e.message

end FilterError

/-- The unresolved query of a source text. -/
def compile (source : String) : Except FilterError Query := do
  let tree ← (Tree.parse source).mapError .parse
  tree.canonical.mapError .rejection

/-- The query of a source text with its variables resolved. -/
def compileAndResolve (source : String) (lookup : Lookup) : Traced FilterError Query := do
  let query ← Traced.ofExcept (compile source)
  (query.resolve lookup).mapError .resolve

end RowFilter
