import DrillCode.Number.Reading
import DrillCode.Text.Letters
import DrillCode.Text.Space

/-! # Lexemes of a formula

A formula is a text with numbers, names, operators and parentheses. Whatever else it holds is passed
over, and so are numbers that cannot be read and words that are no names. A minus sign belongs to the
number right behind it if it stands where an operand is due: at the start, or behind an operator or an
opening parenthesis. -/

namespace DrillCode.Formula

inductive Operator where
  | add
  | sub
  | mul
  | div
  | pow
  deriving DecidableEq, Repr

namespace Operator

/-- How tightly an operator binds. -/
def precedence : Operator → Nat
  | add | sub => 1
  | mul | div => 2
  | pow => 3

def ofChar? : Char → Option Operator
  | '+' => some add
  | '-' => some sub
  | '*' => some mul
  | '/' => some div
  | '^' => some pow
  | _ => none

end Operator

inductive Lexeme where
  | number (value : Float)
  | name (text : String)
  | operator (op : Operator)
  | openParen
  | closeParen
  deriving DecidableEq

namespace Lexeme

/-- The character belongs to a number. -/
def isNumeric (c : Char) : Bool :=
  Reading.isDigit c || c == '.'

/-- The character may stand behind the first letter of a word. -/
def isWordChar (c : Char) : Bool :=
  Text.isAlphanumeric c || c == '_'

/-- The character may stand behind the first letter of a name. -/
def isNameChar (c : Char) : Bool :=
  c.isAlpha || c.isDigit || c == '_'

/-- A word is a name if it holds only ASCII letters, digits and underscores, and starts with a letter. -/
def isName : (word : List Char) → Bool
  | [] => false
  | c :: word => c.isAlpha && word.all isNameChar

/-- The lexeme of a number, if it can be read. -/
def ofNumber (text : List Char) : List Lexeme :=
  ((Reading.number? text).map number).toList

/-- The lexeme of a word, if it is a name. -/
def ofWord (text : List Char) : List Lexeme :=
  if isName text then [name (String.ofList text)] else []

/-- The lexeme of a single character, if it has one. -/
def ofSign (c : Char) : List Lexeme :=
  if c = '(' then [openParen]
  else if c = ')' then [closeParen]
  else ((Operator.ofChar? c).map operator).toList

/-- An operand is due behind the character. -/
def expectsOperand (c : Char) : Bool :=
  c == '(' || (Operator.ofChar? c).isSome

/-- The lexemes of a text; `start` says that an operand is due in front of it. -/
def lex (start : Bool) : (text : List Char) → List Lexeme
  | [] => []
  | c :: text =>
    if Text.isSpace c then lex start text
    else if isNumeric c then
      ofNumber (c :: text.takeWhile isNumeric) ++ lex false (text.dropWhile isNumeric)
    else if Text.isAlphabetic c then
      ofWord (c :: text.takeWhile isWordChar) ++ lex false (text.dropWhile isWordChar)
    else if c = '-' && start && (text.takeWhile isNumeric) != [] then
      ofNumber ('-' :: text.takeWhile isNumeric) ++ lex false (text.dropWhile isNumeric)
    else ofSign c ++ lex (expectsOperand c) text
termination_by text => text.length
decreasing_by
  all_goals
    have h (p : Char → Bool) := (List.dropWhile_sublist (l := text) p).length_le
    simp only [List.length_cons]
    first | omega | exact Nat.lt_succ_of_le (h _)

def ofText (text : List Char) : List Lexeme :=
  lex true text

end Lexeme
end DrillCode.Formula
