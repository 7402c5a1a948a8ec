import RowFilter.Catalog.Basic
import RowFilter.Json.Basic
import RowFilter.Json.Scan
import RowFilter.Text.Shown

/-! Catalogs as JSON documents: a record with `variables`, each with `alias`, `address`
and, for an array, `subvariables`. Every record may also be a list of its fields in that
order. Unknown fields are skipped, a field may stand only once, and reading stops at the
first fault, be it of the JSON or of the shape. -/

namespace RowFilter.Catalog.File

open Json

/-- The records of a catalog file. -/
inductive RecordKind where
  | ofCatalog
  | ofVariable
  | ofSubvariable
  deriving DecidableEq

def RecordKind.name : RecordKind → String
  | .ofCatalog => "CatalogConfig"
  | .ofVariable => "VariableConfig"
  | .ofSubvariable => "Subvariable"

def RecordKind.sizeText : RecordKind → String
  | .ofCatalog => "1 element"
  | .ofVariable => "3 elements"
  | .ofSubvariable => "2 elements"

/-- A value where another kind of value was due. -/
inductive Found where
  | null
  | bool (value : Bool)
  | number (value : Number)
  | text (value : String)
  | list
  | record

def Found.description : Found → String
  | .null => "null"
  | .bool true => "boolean `true`"
  | .bool false => "boolean `false`"
  | .number (.int value) => "integer `" ++ toString value ++ "`"
  | .number (.float value) => "floating point `" ++ floatText value ++ "`"
  | .text value => "string " ++ Text.shown value
  | .list => "sequence"
  | .record => "map"

inductive Due where
  | text
  | list
  | record (kind : RecordKind)

def Due.description : Due → String
  | .text => "a string"
  | .list => "a sequence"
  | .record kind => "struct " ++ kind.name

/-- JSON of another shape than a catalog. -/
inductive ShapeFault where
  | missingField (name : String)
  | repeatedField (name : String)
  | wrongType (found : Found) (due : Due)
  | tooFewItems (count : Nat) (kind : RecordKind)

def ShapeFault.message : ShapeFault → String
  | .missingField name => "missing field `" ++ name ++ "`"
  | .repeatedField name => "duplicate field `" ++ name ++ "`"
  | .wrongType found due => "invalid type: " ++ found.description ++ ", expected " ++ due.description
  | .tooFewItems count kind =>
    "invalid length " ++ toString count ++ ", expected struct " ++ kind.name ++ " with " ++
      kind.sizeText

inductive Fault where
  | json (flaw : Flaw)
  | shape (fault : ShapeFault)

def Fault.message : Fault → String
  | .json .malformed => "malformed JSON"
  | .json .cutShort => "the JSON ends too early"
  | .shape fault => fault.message

/-- Reads from what is left of a document. -/
abbrev Load : Type → Type := StateT (List Char) (Except Fault)

def malformed {α : Type} : Load α := throw (.json .malformed)

def cutShort {α : Type} : Load α := throw (.json .cutShort)

def scan {α : Type} (scanner : List Char → Except Flaw (α × List Char)) : Load α := fun cs =>
  (scanner cs).mapError .json

def skip (scanner : List Char → Except Flaw (List Char)) : Load Unit :=
  scan fun cs => (scanner cs).map fun rest => ((), rest)

/-- Skips blanks and shows the next character. -/
def peek : Load (Option Char) := fun cs => .ok ((skipGap cs).head?, skipGap cs)

/-- Takes the character that was shown. -/
def take : Load Unit := modify List.tail

/-- Classifies a value that is not the one due. Lists and records are not looked into,
all else has to be well formed. -/
def found : Load Found := do
  match ← peek with
  | some 'n' => do take; skip (wordRest ['u', 'l', 'l']); pure .null
  | some 't' => do take; skip (wordRest ['r', 'u', 'e']); pure (.bool true)
  | some 'f' => do take; skip (wordRest ['a', 'l', 's', 'e']); pure (.bool false)
  | some '-' => do take; let value ← scan (numberRest true); pure (.number value)
  | some '"' => do take; let value ← scan textRest; pure (.text value)
  | some '[' => pure .list
  | some '\x7b' => pure .record
  | some c =>
    if c.isDigit then do
      let value ← scan (numberRest false)
      pure (.number value)
    else malformed
  | none => cutShort

def refuse {α : Type} (due : Due) : Load α := do
  let found ← found
  throw (.shape (.wrongType found due))

def text : Load String := do
  match ← peek with
  | some '"' => do take; scan textRest
  | some _ => refuse .text
  | none => cutShort

/-- The next key of a record, or nothing before its end. -/
def nextKey (first : Bool) : Load (Option String) := do
  match ← peek with
  | none => cutShort
  | some '\x7d' => pure none
  | some c =>
    if first then
      if c = '"' then do take; some <$> scan textRest else malformed
    else if c = ',' then do
      take
      match ← peek with
      | some '"' => do take; some <$> scan textRest
      | some _ => malformed
      | none => cutShort
    else malformed

/-- The next item of a list, or nothing before its end. -/
def nextItem {α : Type} (first : Bool) (item : Load α) : Load (Option α) := do
  match ← peek with
  | none => cutShort
  | some ']' => pure none
  | some c =>
    if first then some <$> item
    else if c = ',' then do
      take
      match ← peek with
      | some ']' => malformed
      | some _ => some <$> item
      | none => cutShort
    else malformed

/-- Takes the sign that has to come next. -/
def sign (c : Char) : Load Unit := do
  match ← peek with
  | some d => if d = c then take else malformed
  | none => cutShort

/-- The fields of a record in their order, each handed to `field` behind its key. -/
def fieldsUpTo {σ : Type} (field : σ → String → Load σ) : Nat → Bool → σ → Load σ
  | 0, _, _ => malformed
  | fuel + 1, first, state => do
    match ← nextKey first with
    | none => pure state
    | some key => do
      let state ← field state key
      fieldsUpTo field fuel false state

def fields {σ : Type} (start : σ) (field : σ → String → Load σ) : Load σ := do
  let rest ← get
  fieldsUpTo field (rest.length + 1) true start

def itemsUpTo {α : Type} (item : Load α) : Nat → Bool → Load (List α)
  | 0, _ => malformed
  | fuel + 1, first => do
    match ← nextItem first item with
    | none => pure []
    | some value => do
      let more ← itemsUpTo item fuel false
      pure (value :: more)

/-- A list of any length. -/
def list {α : Type} (item : Load α) : Load (List α) := do
  match ← peek with
  | some '[' => do
    take
    let rest ← get
    let items ← itemsUpTo item (rest.length + 1) true
    sign ']'
    pure items
  | some _ => refuse .list
  | none => cutShort

/-- `null` or a value. -/
def nullable {α : Type} (value : Load α) : Load (Option α) := do
  match ← peek with
  | some 'n' => do take; skip (wordRest ['u', 'l', 'l']); pure none
  | _ => some <$> value

/-- A record, written as one or as the list of its fields. -/
def record {α : Type} (kind : RecordKind) (ofItems ofFields : Load α) : Load α := do
  match ← peek with
  | some '[' => do take; let value ← ofItems; sign ']'; pure value
  | some '\x7b' => do take; let value ← ofFields; sign '\x7d'; pure value
  | some _ => refuse (.record kind)
  | none => cutShort

/-- An item that a record written as a list cannot leave off. -/
def dueItem {α : Type} (kind : RecordKind) (position : Nat) (item : Load α) : Load α := do
  match ← nextItem (position == 0) item with
  | some value => pure value
  | none => throw (.shape (.tooFewItems position kind))

/-- The value of a field that has not been seen yet. -/
def fill {α : Type} (name : String) (seen : Option α) (value : Load α) : Load (Option α) := do
  if seen.isSome then throw (.shape (.repeatedField name))
  sign ':'
  some <$> value

def skipField : Load Unit := do
  sign ':'
  skip skipValue

def dueField {α : Type} (name : String) (seen : Option α) : Load α :=
  match seen with
  | some value => pure value
  | none => throw (.shape (.missingField name))

/-- The fields of a variable or sub-element seen so far. -/
structure Seen where
  name : Option String
  address : Option String
  subvariables : Option (Option (List Subvariable))

def Seen.nothing : Seen := ⟨none, none, none⟩

def subvariableField (seen : Seen) (key : String) : Load Seen := do
  if key = "alias" then do
    let name ← fill key seen.name text
    pure { seen with name := name }
  else if key = "address" then do
    let address ← fill key seen.address text
    pure { seen with address := address }
  else do
    skipField
    pure seen

def subvariable : Load Subvariable := record .ofSubvariable
  (do
    let name ← dueItem .ofSubvariable 0 text
    let address ← dueItem .ofSubvariable 1 text
    pure ⟨name, address⟩)
  (do
    let seen ← fields .nothing subvariableField
    let name ← dueField "alias" seen.name
    let address ← dueField "address" seen.address
    pure ⟨name, address⟩)

def variableField (seen : Seen) (key : String) : Load Seen := do
  if key = "subvariables" then do
    let subvariables ← fill key seen.subvariables (nullable (list subvariable))
    pure { seen with subvariables := subvariables }
  else subvariableField seen key

def declaration : Load Declaration := record .ofVariable
  (do
    let name ← dueItem .ofVariable 0 text
    let address ← dueItem .ofVariable 1 text
    let subvariables ← nextItem false (nullable (list subvariable))
    pure ⟨name, address, subvariables.join⟩)
  (do
    let seen ← fields .nothing variableField
    let name ← dueField "alias" seen.name
    let address ← dueField "address" seen.address
    pure ⟨name, address, seen.subvariables.join⟩)

def catalogField (seen : Option (List Declaration)) (key : String) :
    Load (Option (List Declaration)) := do
  if key = "variables" then fill key seen (list declaration)
  else do
    skipField
    pure seen

def declarations : Load (List Declaration) := record .ofCatalog
  (do
    let found ← nextItem true (list declaration)
    pure (found.getD []))
  (do
    let found ← fields none catalogField
    pure (found.getD []))

/-- The declarations of a whole document. -/
def read (document : String) : Except Fault (List Declaration) :=
  match declarations document.toList with
  | .error fault => .error fault
  | .ok (found, rest) => match skipGap rest with
    | [] => .ok found
    | _ => .error (.json .malformed)

end RowFilter.Catalog.File

namespace RowFilter.Catalog

/-- The catalog of a document, and the warnings of all its declarations. -/
def ofDocument (document : String) : Except File.Fault (Catalog × List Warning) :=
  (File.read document).map empty.declareAll

end RowFilter.Catalog
