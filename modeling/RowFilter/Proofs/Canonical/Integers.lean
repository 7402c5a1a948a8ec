import RowFilter.Filter
import RowFilter.Proofs.Grammar.Locality
import RowFilter.Proofs.Grammar.Brackets
import RowFilter.Proofs.Grammar.Sentence

/-! Integers of any size. Digits with or without a sign are read as the one integer that they
denote. Within 64 bits this integer is compared and sent, beyond them the text is refused as
it stands there. -/

namespace RowFilter

open Text Grammar

/-- Digits, perhaps behind a sign with blanks of the grammar between. -/
structure IntegerText where
  /-- The blanks behind the sign, if there is one. -/
  sign : Option (List Char)
  digits : List Char
  isGap : ∀ blanks ∈ sign, ∀ c ∈ blanks, isGap c = true
  nonempty : digits ≠ []
  isDigit : ∀ c ∈ digits, c.isDigit = true

namespace IntegerText

def chars (i : IntegerText) : List Char :=
  match i.sign with
  | none => i.digits
  | some blanks => '-' :: (blanks ++ i.digits)

/-- The sign and the digits, nothing between them. -/
def tight (i : IntegerText) : List Char :=
  match i.sign with
  | none => i.digits
  | some _ => '-' :: i.digits

/-- The integer that the text denotes. -/
def value (i : IntegerText) : Int :=
  match i.sign with
  | none => Nat.ofDigitChars 10 i.digits 0
  | some _ => -(Nat.ofDigitChars 10 i.digits 0 : Int)

/-- The digits as a numeral of the grammar. -/
def magnitude (i : IntegerText) : Numeral := ⟨false, i.digits, none, none⟩

def numeral (i : IntegerText) : Numeral := ⟨i.sign.isSome, i.digits, none, none⟩

def tokens (i : IntegerText) : List Token :=
  match i.sign with
  | none => [.number i.magnitude]
  | some _ => [.symbol "-", .number i.magnitude]

variable (i : IntegerText)

theorem written : i.magnitude.Written :=
  ⟨rfl, i.isDigit, nofun, .inl i.nonempty, nofun⟩

theorem phrase : LiteralPhrase (literalOf i.numeral) i.tokens := by
  rw [tokens, numeral]
  cases i.sign with
  | none => exact .number i.written
  | some blanks => exact .negative i.written

theorem next?_digits : next? i.digits = some (.number i.magnitude, []) := by
  have hread := (Lexeme.number i.written).read
  have hchars : i.magnitude.chars = i.digits := by simp [magnitude, Numeral.chars]
  rw [hchars] at hread
  exact next?_of_lexeme? hread

theorem locally_chars : Locally i.tokens i.chars := by
  apply Spells.locally
  rw [tokens, chars]
  cases hsign : i.sign with
  | none => exact .single i.next?_digits
  | some blanks =>
    have hminus : next? ('-' :: (blanks ++ i.digits)) = some (.symbol "-", blanks ++ i.digits) :=
      next?_of_lexeme? (lexeme?_symbol (show "-" ∈ symbols by decide) rfl)
    have hskip : skipGap (blanks ++ i.digits) = skipGap i.digits :=
      List.dropWhile_append_of_pos (i.isGap blanks hsign)
    refine .cons hminus (.single ?_)
    rw [next?, hskip]
    exact i.next?_digits

theorem unpadded : Unpadded i.chars := by
  have hblank : ∀ c ∈ i.digits, isBlank c = false := fun c hc =>
    isBlank_eq_false_of_isDigit (i.isDigit c hc)
  obtain ⟨front, last, hlast, hblank_last⟩ := exists_last i.nonempty hblank
  obtain ⟨first, more, hfirst⟩ := List.exists_cons_of_ne_nil i.nonempty
  have hblank_first := hblank first (by simp [hfirst])
  rw [chars]
  cases i.sign with
  | none => exact ⟨⟨first, more, hfirst, hblank_first⟩, front, last, hlast, hblank_last⟩
  | some blanks =>
    exact ⟨⟨'-', _, rfl, rfl⟩, '-' :: (blanks ++ front), last, by simp [hlast], hblank_last⟩

theorem int64?_numeral : i.numeral.int64? = int64? i.value := by
  rw [Numeral.int64?, numeral, value]
  cases i.sign <;> simp [Numeral.significand]

theorem text_numeral : i.numeral.text = String.ofList i.tight := by
  rw [Numeral.text, numeral, tight]
  cases i.sign <;> simp [Numeral.chars]

/-- An integer of 64 bits is this number, any other one its text. -/
theorem literalOf_numeral : literalOf i.numeral = match int64? i.value with
    | some n => .int n
    | none => .outOfRange (String.ofList i.tight) := by
  rw [literalOf, int64?_numeral, text_numeral]
  rfl

end IntegerText

theorem int64?_eq_some {z : Int} (hlow : -9223372036854775808 ≤ z)
    (hhigh : z < 9223372036854775808) : ∃ n : Int64, int64? z = some n ∧ n.toInt = z := by
  have hmin : Int64.minValue.toInt = -9223372036854775808 := by decide
  have hmax : Int64.maxValue.toInt = 9223372036854775807 := by decide
  refine ⟨Int64.ofInt z, ?_, Int64.toInt_ofInt_of_le hlow hhigh⟩
  rw [int64?, if_pos (by omega)]

theorem int64?_eq_none {z : Int} (h : z < -9223372036854775808 ∨ 9223372036854775808 ≤ z) :
    int64? z = none := by
  have hmin : Int64.minValue.toInt = -9223372036854775808 := by decide
  have hmax : Int64.maxValue.toInt = 9223372036854775807 := by decide
  rw [int64?, if_neg (by omega)]

theorem compile_of_parse {source : String} {t : Tree} (h : Tree.parse source = .ok t) :
    compile source = t.canonical.mapError .rejection := by
  rw [compile, h]
  rfl

theorem unpadded_word {w : String} (h : IsWord w) : Unpadded w.toList := by
  obtain ⟨c, more, hchars, hc, hmore⟩ := h
  have hinked : ∀ d ∈ c :: more, isBlank d = false := List.forall_mem_cons.2
    ⟨isBlank_eq_false_of_isWordStart hc, fun d hd => isBlank_eq_false_of_isWordChar (hmore d hd)⟩
  rw [hchars]
  exact ⟨⟨c, more, rfl, hinked c List.mem_cons_self⟩, exists_last (List.cons_ne_nil c more) hinked⟩

theorem payload_equation (name : String) (n : Int64) :
    (Query.call .eq [.named name, .value (.int n)]).payload =
      "\x7b\"function\":\"==\",\"args\":[\x7b\"variable\":" ++ Json.quoted name ++
        "\x7d,\x7b\"value\":" ++ toString n.toInt ++ "\x7d]\x7d" := by
  have hquoted : Json.quoted "function" = "\"function\"" ∧ Json.quoted "args" = "\"args\"" ∧
      Json.quoted "variable" = "\"variable\"" ∧ Json.quoted "value" = "\"value\"" ∧
      Json.quoted "==" = "\"==\"" := by decide
  simp only [Query.payload, Query.toJson, Query.toJsonAll, Value.toJson, Json.compact,
    Json.compactFields, Json.compactItems, Operation.name, hquoted]
  rw [← String.toList_inj]
  simp

/-- A comparison of a variable with an integer is read as one, whatever the size. -/
theorem parse_equation {name : String} (hname : IsName name) (i : IntegerText) :
    Tree.parse (name ++ " == " ++ String.ofList i.chars) =
      .ok (.compare (.ident name) [(.eq, .literal (literalOf i.numeral))]) := by
  have htext : (name ++ " == " ++ String.ofList i.chars).toList =
      name.toList ++ (' ' :: '=' :: '=' :: [' '] ++ i.chars) := by simp
  have hequals : Locally [.symbol "=="] ['=', '='] := Spells.locally (.single rfl)
  have hlocally := (Locally.word hname.word).spaced (hequals.spaced i.locally_chars i.phrase.ne_nil)
    (by simp)
  have hspells := hlocally [] quiet_nil
  have hunpadded := (unpadded_word hname.word).append (' ' :: '=' :: '=' :: [' ']) i.unpadded
  have hside : Operand (phrases 63) (.literal (literalOf i.numeral)) i.tokens :=
    .primary (.literal i.phrase)
  have hcompare : Comparison (phrases 63)
      (.compare (.ident name) [(.eq, .literal (literalOf i.numeral))])
      ([.word name] ++ (relationTokens .eq ++ i.tokens ++ [])) :=
    .compare (.primary (.ident hname)) (.cons (.mk .eq hside) .nil)
  refine Tree.parse_eq_ok_iff.2 ⟨_, [], Negation.disjunction (.comparison hcompare), ?_, rfl⟩
  rw [htext, (trim_eq_self_iff (by simp)).2 hunpadded]
  simpa [relationTokens] using hspells

/-- In the range of 64 bits an integer is compared and sent as the number that it denotes,
whatever zeros lead it and whatever blanks stand behind its sign. Out of this range it is
refused, and the refusal quotes the sign and the digits. -/
theorem compile_integer {name : String} (hname : IsName name) (i : IntegerText) :
    let source := name ++ " == " ++ String.ofList i.chars
    let query (n : Int64) : Query := .call .eq [.named name, .value (.int n)]
    (-9223372036854775808 ≤ i.value → i.value < 9223372036854775808 → ∃ n : Int64,
      n.toInt = i.value ∧
      Tree.parse source = .ok (.compare (.ident name) [(.eq, .literal (.int n))]) ∧
      compile source = .ok (query n) ∧
      (query n).payload = "\x7b\"function\":\"==\",\"args\":[\x7b\"variable\":" ++
        Json.quoted name ++ "\x7d,\x7b\"value\":" ++ toString i.value ++ "\x7d]\x7d") ∧
    (i.value < -9223372036854775808 ∨ 9223372036854775808 ≤ i.value →
      Tree.parse source = .ok (.compare (.ident name)
        [(.eq, .literal (.outOfRange (String.ofList i.tight)))]) ∧
      compile source = .error (.rejection (.invalidOperand (String.ofList i.tight)))) := by
  intro source query
  have hparse := parse_equation hname i
  rw [i.literalOf_numeral] at hparse
  refine ⟨fun hlow hhigh => ?_, fun hrange => ?_⟩
  · obtain ⟨n, hn, hvalue⟩ := int64?_eq_some hlow hhigh
    rw [hn] at hparse
    rw [← hvalue]
    exact ⟨n, rfl, hparse, compile_of_parse hparse, payload_equation name n⟩
  · rw [int64?_eq_none hrange] at hparse
    exact ⟨hparse, compile_of_parse hparse⟩

/-- The least integer of 64 bits is in range, written with a zero before it and blanks behind
its sign. Without the sign it is out of range. -/
theorem compile_integer_bounds :
    (∃ n : Int64, n.toInt = -9223372036854775808 ∧
      compile "x == - \n09223372036854775808" = .ok (.call .eq [.named "x", .value (.int n)])) ∧
    compile "x == 09223372036854775808" =
      .error (.rejection (.invalidOperand "09223372036854775808")) := by
  have hname : IsName "x" := ⟨isWord_of_all rfl rfl rfl, by decide⟩
  let digits := "09223372036854775808".toList
  have hdigits : ∀ c ∈ digits, c.isDigit = true := List.all_eq_true.1 (by decide)
  let least : IntegerText := ⟨some [' ', '\n'], digits, by simp [isGap], by decide, hdigits⟩
  let beyond : IntegerText := ⟨none, digits, by simp, by decide, hdigits⟩
  have hleast : least.value = -9223372036854775808 := rfl
  have hbeyond : beyond.value = 9223372036854775808 := rfl
  obtain ⟨n, hn, -, hcompile, -⟩ :=
    (compile_integer hname least).1 (by omega) (by omega)
  exact ⟨⟨n, hn.trans hleast, hcompile⟩,
    ((compile_integer hname beyond).2 (.inr (by omega))).2⟩

end RowFilter
