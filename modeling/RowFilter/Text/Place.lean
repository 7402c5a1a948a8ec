/-! Places in a text. A place counts the bytes of the UTF-8 form before it, the
lines (only a line feed ends one) and the characters since the last line feed. -/

namespace RowFilter.Text

/-- The length of the UTF-8 form. -/
def byteLength : List Char → Nat
  | [] => 0
  | c :: cs => c.utf8Size + byteLength cs

theorem byteLength_append (front back : List Char) :
    byteLength (front ++ back) = byteLength front + byteLength back := by
  induction front with
  | nil => simp [byteLength]
  | cons c front ih => rw [List.cons_append, byteLength, byteLength, ih, Nat.add_assoc]

/-- What stands behind the last line feed. -/
def lastLine (cs : List Char) : List Char := (cs.reverse.takeWhile (· ≠ '\n')).reverse

/-- Line and column count from one, the offset from zero. -/
structure Place where
  offset : Nat
  line : Nat
  column : Nat
  deriving DecidableEq

namespace Place

/-- The place at the start of a text. -/
def start : Place := ⟨0, 1, 1⟩

def next (p : Place) (c : Char) : Place :=
  if c = '\n' then ⟨p.offset + c.utf8Size, p.line + 1, 1⟩
  else ⟨p.offset + c.utf8Size, p.line, p.column + 1⟩

/-- The place behind the characters `before`. -/
def after (before : List Char) : Place := before.foldl next start

end Place

/-- What stands in `text` before its suffix `rest`. -/
def before (text rest : List Char) : List Char := text.take (text.length - rest.length)

/-- The place where the suffix `rest` of `text` begins. -/
def placeOf (text rest : List Char) : Place := .after (before text rest)

theorem before_append (front rest : List Char) : before (front ++ rest) rest = front := by
  simp [before]

theorem placeOf_append (front rest : List Char) : placeOf (front ++ rest) rest = .after front := by
  rw [placeOf, before_append]

namespace Place

theorem after_append (front back : List Char) :
    after (front ++ back) = back.foldl next (after front) := by
  simp [after]

private theorem offset_foldl (cs : List Char) (p : Place) :
    (cs.foldl next p).offset = p.offset + byteLength cs := by
  induction cs generalizing p with
  | nil => rfl
  | cons c cs ih =>
    rw [List.foldl_cons, ih]
    by_cases h : c = '\n' <;> simp [next, byteLength, h] <;> omega

/-- The offset is the byte length of what stands before. -/
theorem offset_after (front : List Char) :
    (after front).offset = byteLength front := by
  simp [after, offset_foldl, start]

private theorem line_foldl (cs : List Char) (p : Place) :
    (cs.foldl next p).line = p.line + cs.count '\n' := by
  induction cs generalizing p with
  | nil => simp
  | cons c cs ih =>
    rw [List.foldl_cons, ih]
    by_cases h : c = '\n'
    · simp [next, h]
      omega
    · simp [next, h]

theorem line_after (front : List Char) : (after front).line = 1 + front.count '\n' := by
  simp [after, line_foldl, start]

theorem column_after (front : List Char) :
    (after front).column = 1 + (lastLine front).length := by
  generalize hback : front.reverse = back
  obtain rfl : front = back.reverse := by rw [← hback, List.reverse_reverse]
  induction back with
  | nil => rfl
  | cons c back ih =>
    have hcolumn := ih (List.reverse_reverse back)
    rw [List.reverse_cons, after_append, List.foldl_cons, List.foldl_nil, next]
    by_cases h : c = '\n'
    · have hline : lastLine (back.reverse ++ [c]) = [] := by simp [lastLine, h]
      rw [if_pos h, hline, List.length_nil]
    · have hline : lastLine (back.reverse ++ [c]) = lastLine back.reverse ++ [c] := by
        simp [lastLine, h]
      rw [if_neg h, hline, List.length_append, hcolumn, Nat.add_assoc, List.length_singleton]

end Place

end RowFilter.Text
