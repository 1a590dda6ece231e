import DrillCode.Formula.Lexeme

/-! # Operators behind their operands

The lexemes of a formula are rearranged so that each operator stands behind its operands. Operators that
bind less tightly wait on a stack, as do opening parentheses, which hold back what is below them until
they are closed. A closing parenthesis without an opening one releases everything; an opening one that
is never closed comes out at the end. -/

namespace DrillCode.Formula

namespace Lexeme

/-- The lexeme is an operator that is applied before `op` when it stands to the left of it. -/
def goesBefore (op : Operator) : Lexeme → Bool
  | operator top => op.precedence ≤ top.precedence
  | _ => false

/-- The lexeme is not an opening parenthesis. -/
def isInside : Lexeme → Bool
  | openParen => false
  | _ => true

/-- Rearranges lexemes, given those that wait, topmost first. -/
def rearrange (stack : List Lexeme) : (lexemes : List Lexeme) → List Lexeme
  | [] => stack
  | operator op :: lexemes =>
    stack.takeWhile (goesBefore op) ++
      rearrange (operator op :: stack.dropWhile (goesBefore op)) lexemes
  | openParen :: lexemes => rearrange (openParen :: stack) lexemes
  | closeParen :: lexemes =>
    stack.takeWhile isInside ++ rearrange (stack.dropWhile isInside).tail lexemes
  | operand :: lexemes => operand :: rearrange stack lexemes

/-- The lexemes of a formula with each operator behind its operands. -/
def toPostfix (lexemes : List Lexeme) : List Lexeme :=
  rearrange [] lexemes

end Lexeme
end DrillCode.Formula
