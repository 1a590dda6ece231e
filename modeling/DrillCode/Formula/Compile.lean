import DrillCode.Formula.Postfix
import DrillCode.Machine.Instruction
import DrillCode.Text.Replace

/-! # Compiling formulas

The code of an expression pushes its operands and applies its operators in postfix order. An equation
has one equals sign; its code is that of its two sides, compared. A text with more equals signs is no
formula, and nothing else is wrong with any text. -/

namespace DrillCode.Formula

/-- Why a text is no formula. -/
inductive CompileError where
  /-- There is more than one equals sign in the text. -/
  | malformedEquation (source : String)
  deriving DecidableEq, Repr

namespace CompileError

def message : CompileError → String
  | malformedEquation source => "malformed equation (more than one '='): " ++ source

end CompileError

/-- The instruction that applies an operator. -/
def Operator.instruction : Operator → Instruction
  | add => .add
  | sub => .sub
  | mul => .mul
  | div => .div
  | pow => .pow

/-- The instruction of a lexeme in postfix order; a parenthesis has none. -/
def Lexeme.instruction? : Lexeme → Option Instruction
  | number value => some (.push value)
  | name text => some (.load text)
  | operator op => some op.instruction
  | openParen | closeParen => none

def expressionCode (text : List Char) : List Instruction :=
  (Lexeme.toPostfix (Lexeme.ofText text)).filterMap Lexeme.instruction?

def compile (source : String) : Except CompileError Program :=
  match source.toList.splitOn '=' with
  | [text] => .ok ⟨expressionCode text ++ [.halt], false, source⟩
  | [left, right] => .ok ⟨expressionCode left ++ expressionCode right ++ [.equal, .halt], true, source⟩
  | _ => .error (.malformedEquation source)

end DrillCode.Formula
