import RowFilter.Catalog.Table

/-! The catalog of variables. A scalar and an array are declared under a name; the
sub-elements of an array are found under their own names, before any variable of the
same name. Declaring a name again replaces what it declared before. -/

namespace RowFilter

structure Subvariable where
  name : String
  address : String
  deriving DecidableEq

/-- What a name stands for. -/
inductive VariableKind where
  | scalar
  | array (subvariables : List Subvariable)
  | subvariable (parent : String)
  deriving DecidableEq

structure Metadata where
  address : String
  kind : VariableKind
  deriving DecidableEq

def Metadata.isArray (m : Metadata) : Bool :=
  match m.kind with
  | .array _ => true
  | _ => false

/-- A look-up fails because it knows no such name or for a reason of its own. -/
inductive LookupError where
  | notFound (name : String)
  | provider (reason : String)
  deriving DecidableEq

def LookupError.message : LookupError → String
  | .notFound name => "no variable named `" ++ name ++ "`"
  | .provider reason => "variable lookup failed: " ++ reason

/-- Where the resolver asks for names. -/
def Lookup : Type := String → Except LookupError Metadata

namespace Lookup

/-- Answers from a list; the first entry for a name counts. -/
def ofList (answers : List (String × Metadata)) : Lookup := fun name =>
  match answers.lookup name with
  | some answer => .ok answer
  | none => .error (.notFound name)

/-- The same look-up, failing for the listed names with the reasons beside them. -/
def failingFor (reasons : List (String × String)) (lookup : Lookup) : Lookup := fun name =>
  match reasons.lookup name with
  | some reason => .error (.provider reason)
  | none => lookup name

end Lookup

/-- A variable as declared: an array if it has sub-elements, be they none. -/
structure Declaration where
  name : String
  address : String
  subvariables : Option (List Subvariable)
  deriving DecidableEq

/-- Names that clash in a catalog. -/
inductive Warning where
  | variableShadowed (name : String)
  | subvariableShadows (sub name : String)
  | subvariableReplaces (sub name parent : String)
  deriving DecidableEq

def Warning.message : Warning → String
  | .variableShadowed name =>
    "Variable `" ++ name ++ "` is shadowed by a subvariable with the same alias"
  | .subvariableShadows sub name =>
    "Subvariable `" ++ sub ++ "` of `" ++ name ++ "` shadows a variable with the same alias"
  | .subvariableReplaces sub name parent =>
    "Subvariable `" ++ sub ++ "` of `" ++ name ++ "` replaces the one declared under `" ++
      parent ++ "`"

namespace Catalog

/-- A declared variable without its name. -/
structure Variable where
  address : String
  subvariables : Option (List Subvariable)
  deriving DecidableEq

/-- A sub-element without its name. -/
structure Element where
  parent : String
  address : String
  deriving DecidableEq

end Catalog

structure Catalog where
  declared : Table Catalog.Variable
  elements : Table Catalog.Element

namespace Catalog

def empty : Catalog := ⟨.empty, .empty⟩

def size (c : Catalog) : Nat := c.declared.size

/-- The names of variables in the order of their first declaration. -/
def names (c : Catalog) : List String := c.declared.keys

def lookup (c : Catalog) : Lookup := fun name =>
  match c.elements.find? name with
  | some element => .ok ⟨element.address, .subvariable element.parent⟩
  | none => match c.declared.find? name with
    | some ⟨address, some subvariables⟩ => .ok ⟨address, .array subvariables⟩
    | some ⟨address, none⟩ => .ok ⟨address, .scalar⟩
    | none => .error (.notFound name)

/-- The elements that stay when `name` is declared: those of its former declaration
leave. -/
def elementsWithout (c : Catalog) (name : String) : Table Element :=
  match c.declared.find? name with
  | some ⟨_, some _⟩ => c.elements.keep fun element => element.parent != name
  | _ => c.elements

/-- Enters a sub-element of `name` beside the variables, and the warnings it causes. -/
def enter (declared : Table Variable) (name : String) (elements : Table Element)
    (sub : Subvariable) : Table Element × List Warning :=
  let shadows :=
    if declared.contains sub.name || sub.name == name then
      [Warning.subvariableShadows sub.name name]
    else []
  let replaces := match elements.find? sub.name with
    | some former =>
      if former.parent = name then []
      else [Warning.subvariableReplaces sub.name name former.parent]
    | none => []
  (elements.insert sub.name ⟨name, sub.address⟩, shadows ++ replaces)

/-- Enters sub-elements one after the other. -/
def enterAll (declared : Table Variable) (name : String) (elements : Table Element) :
    List Subvariable → Table Element × List Warning
  | [] => (elements, [])
  | sub :: subs =>
    let (elements, warnings) := enter declared name elements sub
    let (elements, more) := enterAll declared name elements subs
    (elements, warnings ++ more)

/-- The catalog after a declaration, and the warnings in the order of their causes. -/
def declare (c : Catalog) (d : Declaration) : Catalog × List Warning :=
  let elements := c.elementsWithout d.name
  let shadowed := if elements.contains d.name then [Warning.variableShadowed d.name] else []
  let (elements, warnings) :=
    enterAll c.declared d.name elements (d.subvariables.getD [])
  (⟨c.declared.insert d.name ⟨d.address, d.subvariables⟩, elements⟩, shadowed ++ warnings)

/-- Declares a scalar. -/
def withScalar (c : Catalog) (name address : String) : Catalog × List Warning :=
  c.declare ⟨name, address, none⟩

/-- Declares an array. -/
def withArray (c : Catalog) (name address : String) (subvariables : List Subvariable) :
    Catalog × List Warning :=
  c.declare ⟨name, address, some subvariables⟩

/-- Declarations one after the other. -/
def declareAll (c : Catalog) : List Declaration → Catalog × List Warning
  | [] => (c, [])
  | d :: ds =>
    let (c, warnings) := c.declare d
    let (c, more) := c.declareAll ds
    (c, warnings ++ more)

def ofDeclarations (ds : List Declaration) : Catalog := (empty.declareAll ds).1

theorem names_declare (c : Catalog) (d : Declaration) :
    (c.declare d).1.names =
      if d.name ∈ c.names then c.names else c.names ++ [d.name] :=
  c.declared.keys_insert d.name _

theorem length_names (c : Catalog) : c.names.length = c.size := c.declared.length_keys

theorem nodup_names (c : Catalog) : c.names.Nodup := c.declared.nodup

end Catalog

end RowFilter
