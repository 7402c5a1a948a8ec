import RowFilter.Catalog.File
import RowFilter.Filter

/-! The command line, up to reading the catalog file and printing: what the arguments
ask for, and the exit code and texts that a run answers with. -/

namespace RowFilter.CommandLine

/-- What a valid command line asks for. -/
structure Invocation where
  expression : String
  catalog : Option String
  compact : Bool
  deriving DecidableEq

/-- What was given so far. Nothing may be given twice. -/
structure Given where
  expression : Option String
  catalog : Option String
  compact : Bool

namespace Given

def nothing : Given := ⟨none, none, false⟩

def withExpression? (g : Given) (text : String) : Option Given :=
  if g.expression.isSome then none else some { g with expression := text }

/-- The name of a file is never empty. -/
def withCatalog? (g : Given) (file : String) : Option Given :=
  if g.catalog.isSome || file == "" then none else some { g with catalog := file }

def withCompact? (g : Given) : Option Given :=
  if g.compact then none else some { g with compact := true }

def invocation? (g : Given) : Option Invocation :=
  g.expression.map fun expression => ⟨expression, g.catalog, g.compact⟩

end Given

/-- A dash with anything behind it starts an option. -/
def isOption (arg : String) : Bool :=
  match arg.toList with
  | '-' :: _ :: _ => true
  | _ => false

/-- The value written onto the short option, with or without an equals sign. -/
def attached? (arg : String) : Option String :=
  match arg.toList with
  | '-' :: 'c' :: '=' :: value => some (String.ofList value)
  | '-' :: 'c' :: c :: value => some (String.ofList (c :: value))
  | _ => none

/-- The value written behind `--catalog=`. -/
def assigned? (arg : String) : Option String :=
  (Grammar.dropSymbol? "--catalog=".toList arg.toList).map String.ofList

/-- Everything behind the double dash is an expression. -/
def readPlain (g : Given) : List String → Option Given
  | [] => some g
  | arg :: args => (g.withExpression? arg).bind fun g => readPlain g args

def read (g : Given) : List String → Option Given
  | [] => some g
  | "--" :: args => readPlain g args
  | "--compact" :: args => g.withCompact?.bind fun g => read g args
  | ["-c"] => none
  | ["--catalog"] => none
  | "-c" :: file :: args =>
    if isOption file then none else (g.withCatalog? file).bind fun g => read g args
  | "--catalog" :: file :: args =>
    if isOption file then none else (g.withCatalog? file).bind fun g => read g args
  | arg :: args => match attached? arg, assigned? arg with
    | some file, _ => (g.withCatalog? file).bind fun g => read g args
    | none, some file => (g.withCatalog? file).bind fun g => read g args
    | none, none =>
      if isOption arg then none else (g.withExpression? arg).bind fun g => read g args

def invocation? (args : List String) : Option Invocation :=
  (read .nothing args).bind Given.invocation?

structure Outcome where
  exitCode : Nat
  output : String
  report : String
  deriving DecidableEq

def usage : String := "usage: rowfilter [-c FILE | --catalog FILE] [--compact] [--] EXPRESSION\n"

/-- A run that ends with an error and what caused it. -/
def failure (title cause : String) : Outcome :=
  ⟨1, "", "Error: " ++ title ++ "\n\nCaused by:\n    " ++ cause ++ "\n"⟩

/-- The payload asked for. The catalog is read before the expression is looked at. -/
def answer (contents : String → Except String String) (i : Invocation) : Outcome :=
  let finish (result : Except FilterError Query) : Outcome :=
    match result with
    | .error e => failure e.message e.cause
    | .ok query =>
      let payload := if i.compact then query.payload else query.toJson.indented
      ⟨0, payload ++ "\n", ""⟩
  match i.catalog with
  | none => finish (compile i.expression)
  | some file => match contents file with
    | .error reason => failure ("Failed to read catalog " ++ file) reason
    | .ok document => match Catalog.ofDocument document with
      | .error fault => failure ("Failed to parse catalog " ++ file) fault.message
      | .ok (catalog, _) => finish (compileAndResolve i.expression catalog.lookup).outcome

/-- A whole run; `contents` gives the text of a file or says why it cannot. -/
def run (contents : String → Except String String) (args : List String) : Outcome :=
  match invocation? args with
  | none => ⟨2, "", usage⟩
  | some i => answer contents i

end RowFilter.CommandLine
