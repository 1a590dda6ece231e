import DrillCode.Json.Value
import DrillCode.Number.Reading

/-! # Lexemes of JSON

A JSON text is cut into punctuation and scalars, with white space between them passed over. Each rule
tells how many characters it takes behind the first one. -/

namespace DrillCode.Json

inductive Lexeme where
  | openArray
  | closeArray
  | openObject
  | closeObject
  | comma
  | colon
  | scalar (value : Value)

/-- A piece of a string: a character, or a 16-bit code that was written as an escape. -/
inductive StringUnit where
  | char (c : Char)
  | code (n : Nat)

namespace Lexeme

def isBlank (c : Char) : Bool :=
  c == ' ' || c == '\t' || c == '\n' || c == '\r'

/-! ### Strings -/

def hexDigit? (c : Char) : Option Nat :=
  if '0' ≤ c && c ≤ '9' then some (c.toNat - 48)
  else if 'a' ≤ c && c ≤ 'f' then some (c.toNat - 87)
  else if 'A' ≤ c && c ≤ 'F' then some (c.toNat - 55)
  else none

/-- The number that four hexadecimal digits spell. -/
def hexCode? (a b c d : Char) : Option Nat := do
  let a ← hexDigit? a
  let b ← hexDigit? b
  let c ← hexDigit? c
  let d ← hexDigit? d
  pure (((a * 16 + b) * 16 + c) * 16 + d)

/-- The character that a letter behind a backslash stands for. -/
def escape? : Char → Option Char
  | '"' => some '"'
  | '\\' => some '\\'
  | '/' => some '/'
  | 'b' => some '\x08'
  | 'f' => some '\x0c'
  | 'n' => some '\n'
  | 'r' => some '\r'
  | 't' => some '\t'
  | _ => none

/-- The units of a string behind its opening quote, and how many characters they take with the closing
    one. -/
def stringUnits? : (text : List Char) → Option (List StringUnit × Nat)
  | [] => none
  | '"' :: _ => some ([], 1)
  | '\\' :: 'u' :: a :: b :: c :: d :: text => do
    let n ← hexCode? a b c d
    let (units, taken) ← stringUnits? text
    pure (.code n :: units, taken + 6)
  | '\\' :: letter :: text => do
    let c ← escape? letter
    let (units, taken) ← stringUnits? text
    pure (.char c :: units, taken + 2)
  | c :: text =>
    if c.toNat < 0x20 then none
    else do
      let (units, taken) ← stringUnits? text
      pure (.char c :: units, taken + 1)

/-- The code is the first half of a surrogate pair. -/
def isLead (n : Nat) : Bool := 0xD800 ≤ n && n < 0xDC00

/-- The code is the second half of a surrogate pair. -/
def isTrail (n : Nat) : Bool := 0xDC00 ≤ n && n < 0xE000

/-- The text of a string; two codes that are a surrogate pair make one character. -/
def unitsText? : (units : List StringUnit) → Option (List Char)
  | [] => some []
  | .char c :: units => (c :: ·) <$> unitsText? units
  | .code lead :: .code trail :: units =>
    if isLead lead && isTrail trail then
      (Char.ofNat (0x10000 + (lead - 0xD800) * 0x400 + (trail - 0xDC00)) :: ·) <$> unitsText? units
    else if isLead lead || isTrail lead then none
    else (Char.ofNat lead :: ·) <$> unitsText? (.code trail :: units)
  | .code n :: units =>
    if isLead n || isTrail n then none else (Char.ofNat n :: ·) <$> unitsText? units

/-! ### Numbers -/

/-- The digits at the front of a text. -/
def digits (text : List Char) : List Digit :=
  (text.takeWhile Reading.isDigit).filterMap Digit.ofChar?

/-- The digits behind a point, if there is one, and how many characters they take with it. A point
    without digits is refused. -/
def fraction? : (text : List Char) → Option (List Digit × Nat)
  | '.' :: text => if (digits text).isEmpty then none else some (digits text, (digits text).length + 1)
  | _ => some ([], 0)

/-- The exponent, if there is one, and how many characters it takes. A mark without digits is refused. -/
def exponent? : (text : List Char) → Option (Option Int × Nat)
  | mark :: text =>
    if mark == 'e' || mark == 'E' then
      let (negative, rest) := Reading.splitSign text
      let ds := digits rest
      let n : Int := Digit.append 0 ds
      if ds.isEmpty then none
      else some (some (if negative then -n else n), ds.length + 1 + (text.length - rest.length))
    else some (none, 0)
  | [] => some (none, 0)

/-- The number at the front of a text, and how many characters it takes. No zero may stand before another
    digit in front of the point. -/
def number? (text : List Char) : Option (Numeral × Nat) := do
  let (negative, body) := match text with
    | '-' :: body => (true, body)
    | body => (false, body)
  let whole := digits body
  if whole.isEmpty || (1 < whole.length && whole.head? == some Digit.zero) then none
  else do
    let rest := body.drop whole.length
    let (fraction, m) ← fraction? rest
    let (exponent, n) ← exponent? (rest.drop m)
    pure (⟨negative, Digit.append 0 whole, fraction, exponent⟩,
      (if negative then 1 else 0) + whole.length + m + n)

/-! ### All lexemes -/

/-- A word, if the text behind its first letter goes on with its rest. -/
def word? (rest : String) (value : Value) (text : List Char) : Option (Lexeme × Nat) :=
  if rest.toList.isPrefixOf text then some (scalar value, rest.length) else none

/-- The lexeme that starts with a character, and how many characters it takes behind that. -/
def next? (c : Char) (text : List Char) : Option (Lexeme × Nat) :=
  match c with
  | '[' => some (openArray, 0)
  | ']' => some (closeArray, 0)
  | '\x7b' => some (openObject, 0)
  | '\x7d' => some (closeObject, 0)
  | ',' => some (comma, 0)
  | ':' => some (colon, 0)
  | 'n' => word? "ull" .null text
  | 't' => word? "rue" (.bool true) text
  | 'f' => word? "alse" (.bool false) text
  | '"' => (stringUnits? text).map fun (units, taken) =>
      (scalar (.string ((unitsText? units).map String.ofList)), taken)
  | c => (number? (c :: text)).map fun (n, taken) => (scalar (.number n), taken - 1)

def ofText? : (text : List Char) → Option (List Lexeme)
  | [] => some []
  | c :: text =>
    if isBlank c then ofText? text
    else match next? c text with
      | none => none
      | some (lexeme, taken) => (lexeme :: ·) <$> ofText? (text.drop taken)
termination_by text => text.length
decreasing_by
  all_goals simp only [List.length_drop, List.length_cons]; omega

end Lexeme
end DrillCode.Json
