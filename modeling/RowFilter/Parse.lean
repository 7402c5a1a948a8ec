import RowFilter.Grammar.Condition
import RowFilter.Text.Blank
import RowFilter.Text.Place

/-! From source text to the generic tree. Blanks at both ends are dropped first, and
places in faults refer to what is left. -/

namespace RowFilter

open Text Grammar

/-- What is wrong with a source text. -/
inductive Fault where
  | empty
  /-- A condition was read, and more than blanks follows it. -/
  | trailing
  | invalid
  | tooDeep
  deriving DecidableEq

def Fault.text : Fault → String
  | .empty => "empty expression"
  | .trailing => "unexpected trailing input"
  | .invalid => "invalid syntax"
  | .tooDeep => "expression nested too deeply"

structure ParseError where
  fault : Fault
  place : Place
  deriving DecidableEq

def ParseError.message (e : ParseError) : String :=
  e.fault.text ++ " (line " ++ toString e.place.line ++ ", column " ++ toString e.place.column ++
    ", offset " ++ toString e.place.offset ++ ")"

namespace Tree

/-- The verdict on a reply to the whole of `text`. A refused reading tells no place;
trailing input is placed at its first character that is no blank. -/
def ofReply (text : List Char) : Reply Tree → Except ParseError Tree
  | .read tree rest _ =>
    match dropBlanks rest with
    | [] => .ok tree
    | extra => .error ⟨.trailing, placeOf text extra⟩
  | .refused _ => .error ⟨.invalid, .start⟩
  | .halted n => .error ⟨.tooDeep, placeOf text (n.past.getD [])⟩

/-- Reads the whole of a text under a guard, with at most `depth` levels. -/
def parseUnder (guard : Guard) (depth : Nat) (source : String) : Except ParseError Tree :=
  match trim source.toList with
  | [] => .error ⟨.empty, .start⟩
  | text => ofReply text (condition guard depth ⟨0, none⟩ text)

def parse (source : String) : Except ParseError Tree := parseUnder .enforced maxNesting source

end Tree

end RowFilter
