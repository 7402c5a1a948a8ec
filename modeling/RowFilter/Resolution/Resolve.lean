import RowFilter.Query.Basic
import RowFilter.Resolution.Traced

/-! Resolution: every name becomes the address that the look-up gives. A test of a
whole array is rewritten over its sub-elements, or to the service's own test of arrays.
Names are asked from left to right, a call's own rule is checked behind its arguments,
and the first failure ends the run. Addresses and values pass unchanged. -/

namespace RowFilter

/-- Why an operation cannot be applied to an array. -/
inductive ArrayFault where
  | needsList (operation : Operation)
  | needsSingleTarget
  | noSubvariables
  | undefined (operation : Operation)
  deriving DecidableEq

def ArrayFault.text : ArrayFault → String
  | .needsList op => "`" ++ op.name ++ "` over an array needs a list of values"
  | .needsSingleTarget => "has_all over an array only supports a single target value"
  | .noSubvariables => "the array has no subvariables"
  | .undefined op => "`" ++ op.name ++ "` is not defined over array variables"

inductive ResolveError where
  | undefinedVariable (name : String)
  | invalidArrayOperation (variableName : String) (fault : ArrayFault)
  | lookupFailed (reason : String)
  deriving DecidableEq

def ResolveError.message : ResolveError → String
  | .undefinedVariable name => "undefined variable `" ++ name ++ "`"
  | .invalidArrayOperation name fault =>
    "invalid array operation on `" ++ name ++ "`: " ++ fault.text
  | .lookupFailed reason => (LookupError.provider reason).message

def ResolveError.ofLookup : LookupError → ResolveError
  | .notFound name => .undefinedVariable name
  | .provider reason => .lookupFailed reason

/-- A whole array that a query refers to. -/
structure ArrayTarget where
  name : String
  address : String
  subvariables : List Subvariable

/-- A resolved query; `array` is there only for a direct reference to an array. -/
structure Resolved where
  query : Query
  array : Option ArrayTarget

/-- What an operation means on a whole array. -/
inductive ArrayRule where
  /-- Some sub-element is in the list. -/
  | someElement
  /-- Every sub-element equals the one value of the list. -/
  | everyElement
  /-- The service has a test of its own. -/
  | ownTest (operation : Operation)
  | undefined

def Operation.arrayRule? : Operation → Option ArrayRule
  | .any => some .someElement
  | .all => some .everyElement
  | .isValid => some (.ownTest .allValid)
  | .isMissing => some (.ownTest .allMissing)
  | .hasCount | .duplicates => some .undefined
  | _ => none

namespace Query

/-- The list that a test of the sub-elements compares with. -/
def listArgument (op : Operation) : List Query → Except ArrayFault Value
  | .value v :: _ => if v.isList then .ok v else .error (.needsList op)
  | _ => .error (.needsList op)

/-- One test for each sub-element in its order, joined to one query. -/
def perSubvariable (array : ArrayTarget) (join : Operation) (test : Query → Query) :
    Except ArrayFault Query :=
  match foldRight join (array.subvariables.map fun sub => test (.address sub.address)) with
  | some query => .ok query
  | none => .error .noSubvariables

/-- The call of `op` on `array` and the arguments `rest` behind it, under a rule. -/
def expandArray (rule : ArrayRule) (op : Operation) (array : ArrayTarget) (rest : List Query) :
    Except ArrayFault Query :=
  match rule with
  | .someElement => do
    let values ← listArgument op rest
    perSubvariable array .or fun element => .call .isIn [element, .value values]
  | .everyElement => do
    let values ← listArgument op rest
    match values.single? with
    | some target => perSubvariable array .and fun element => .call .eq [element, .value target]
    | none => throw .needsSingleTarget
  | .ownTest test => pure (.call test [.address array.address])
  | .undefined => throw (.undefined op)

/-- A call whose arguments are resolved. -/
def callResolved (op : Operation) (args : List Resolved) : Except ResolveError Query :=
  match op.arrayRule?, args with
  | some rule, ⟨_, some array⟩ :: rest =>
    (expandArray rule op array (rest.map Resolved.query)).mapError
      (.invalidArrayOperation array.name)
  | _, _ => .ok (.call op (args.map Resolved.query))

def resolveName (lookup : Lookup) (name : String) : Traced ResolveError Resolved := do
  let metadata ← (Traced.ask lookup name).mapError ResolveError.ofLookup
  match metadata.kind with
  | .array subvariables =>
    pure ⟨.address metadata.address, some ⟨name, metadata.address, subvariables⟩⟩
  | _ => pure ⟨.address metadata.address, none⟩

mutual

def resolveNode (lookup : Lookup) : Query → Traced ResolveError Resolved
  | .named name => resolveName lookup name
  | .address text => pure ⟨.address text, none⟩
  | .value v => pure ⟨.value v, none⟩
  | .call op args => do
    let args ← resolveNodes lookup args
    let query ← Traced.ofExcept (callResolved op args)
    pure ⟨query, none⟩
termination_by structural q => q

def resolveNodes (lookup : Lookup) : List Query → Traced ResolveError (List Resolved)
  | [] => pure []
  | q :: qs => do
    let first ← resolveNode lookup q
    let more ← resolveNodes lookup qs
    pure (first :: more)
termination_by structural qs => qs

end

def resolve (q : Query) (lookup : Lookup) : Traced ResolveError Query :=
  Resolved.query <$> resolveNode lookup q

/-- Resolves queries one after the other until one fails. -/
def resolveAll (lookup : Lookup) : List Query → Traced ResolveError (List Query)
  | [] => pure []
  | q :: qs => do
    let first ← q.resolve lookup
    let more ← resolveAll lookup qs
    pure (first :: more)

end Query

end RowFilter
