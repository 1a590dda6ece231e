import DrillCode.Bits.Elias
import DrillCode.Payload.TextField

/-! # Tokens of an expression

The expression of an exercise is written as a sequence of tokens, each a bit code that stands for a piece
of text. A code starts with a one bit for an operator and with a zero bit for an operand; some codes are
set aside and stand for no text. The operator code 110 ends the sequence. -/

namespace DrillCode

/-- A piece of an expression. -/
inductive Token where
  | plus
  | minus
  | times
  | divide
  | power
  | equals
  /-- An operator of the second table, which holds the two parentheses; the low four bits of its number
      count. -/
  | extended (number : Nat)
  /-- A variable, or any other text. -/
  | name (text : String)
  | integer (value : Int)
  /-- A truth value, which has no text. -/
  | boolean
  /-- A constant of a kind that is set aside, 2 or 3. -/
  | reservedConstant (kind : Nat)
  /-- An operand of a kind that is set aside, 2 or 3. -/
  | reservedOperand (kind : Nat)
  deriving DecidableEq, Repr

namespace Token

def openParen : Token := extended 10

def closeParen : Token := extended 11

/-- The text of an operator of the second table. -/
def extendedText (number : Nat) : List Char :=
  if number % 16 = 10 then " ( ".toList
  else if number % 16 = 11 then " ) ".toList
  else " ?ext".toList ++ (toString (number % 16)).toList ++ "? ".toList

/-- The text that a token stands for. -/
def text : Token → List Char
  | plus => " + ".toList
  | minus => " - ".toList
  | times => " * ".toList
  | divide => " / ".toList
  | power => " ^ ".toList
  | equals => " = ".toList
  | extended number => extendedText number
  | name text => text.toList
  | integer value => (toString value).toList
  | boolean | reservedConstant _ | reservedOperand _ => []

/-- The token has a code: every one but the integer zero has. -/
def hasCode : Token → Bool
  | integer value => value != 0
  | _ => true

def bits : Token → List Bool
  | plus => true :: Bits.ofNat 3 0
  | minus => true :: Bits.ofNat 3 1
  | times => true :: Bits.ofNat 3 2
  | divide => true :: Bits.ofNat 3 3
  | power => true :: Bits.ofNat 3 4
  | equals => true :: Bits.ofNat 3 5
  | extended number => true :: Bits.ofNat 3 7 ++ Bits.ofNat 4 number
  | name text => false :: Bits.ofNat 2 0 ++ TextField.textBits text
  | integer value => false :: Bits.ofNat 2 1 ++ Bits.ofNat 2 0 ++ decide (value < 0) :: Elias.code value.natAbs
  | boolean => false :: Bits.ofNat 2 1 ++ Bits.ofNat 2 1
  | reservedConstant kind => false :: Bits.ofNat 2 1 ++ Bits.ofNat 2 kind
  | reservedOperand kind => false :: Bits.ofNat 2 kind

/-- What ends a sequence of tokens. -/
def endBits : List Bool := true :: Bits.ofNat 3 6

/-! ### Reading -/

/-- Reads an operator after its first bit, or finds the end of the sequence. -/
def readOperator : Scan (Option Token) := do
  let number ← readBits 3
  match number with
  | 0 => pure (some plus)
  | 1 => pure (some minus)
  | 2 => pure (some times)
  | 3 => pure (some divide)
  | 4 => pure (some power)
  | 5 => pure (some equals)
  | 6 => pure none
  | _ => (fun number => some (extended number)) <$> readBits 4

/-- Reads an integer after its kind: a sign and a magnitude. -/
def readInteger : Scan Token := do
  let negative ← readBit
  let magnitude ← Elias.readUnsigned
  pure (integer (if negative then -(magnitude : Int) else magnitude))

/-- Reads a constant after the kind of operand. -/
def readConstant : Scan Token := do
  let kind ← readBits 2
  match kind with
  | 0 => readInteger
  | 1 => pure boolean
  | _ => pure (reservedConstant kind)

/-- Reads an operand after its first bit. -/
def readOperand : Scan Token := do
  let kind ← readBits 2
  match kind with
  | 0 => name <$> TextField.readText
  | 1 => readConstant
  | _ => pure (reservedOperand kind)

/-- Reads a token, or finds the end of the sequence. -/
def read : Scan (Option Token) := do
  let operator ← readBit
  if operator then readOperator else some <$> readOperand

/-! ### Reading moves forward -/

theorem readOperator_advances : Scan.Advances 3 readOperator := by
  refine (readBits_advances 3).bind (k := 0) fun number => ?_
  split
  case h_8 => exact ((readBits_advances 4).map _).mono (by decide)
  all_goals exact .pure _

theorem readInteger_advances : Scan.Advances 2 readInteger :=
  readBit_advances.bind fun _ => Elias.readUnsigned_advances.bind fun _ => .pure _

theorem readConstant_advances : Scan.Advances 2 readConstant := by
  refine (readBits_advances 2).bind (k := 0) fun kind => ?_
  split
  · exact readInteger_advances.mono (by decide)
  · exact .pure _
  · exact .pure _

theorem readOperand_advances : Scan.Advances 2 readOperand := by
  refine (readBits_advances 2).bind (k := 0) fun kind => ?_
  split
  · exact (TextField.readText_advances.map _).mono (by decide)
  · exact readConstant_advances.mono (by decide)
  · exact .pure _

theorem read_advances : Scan.Advances 3 read := by
  refine readBit_advances.bind (k := 2) fun operator => ?_
  split
  · exact readOperator_advances.mono (by decide)
  · exact readOperand_advances.map _

end Token
end DrillCode
