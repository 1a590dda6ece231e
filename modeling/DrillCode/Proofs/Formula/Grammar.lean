import DrillCode.Formula.Compile
import DrillCode.Machine.Run

/-! # The grammar of formulas

A formula is an expression or an equation of two. Expressions are built from numbers, names and expressions
in parentheses with operators of three precedences, all of which group to the left. Between its pieces a
formula may be spaced in any way. The code of a tree has each operator behind its operands, and the value of a
tree is computed from the left to the right. -/

namespace DrillCode.Formula

/-! ### Pieces -/

/-- A number as it is written: digits and points that can be read, and a minus sign right in front of them or
    none. -/
structure Literal where
  negative : Bool
  digits : List Char
  magnitude : Float
  numeric : ∀ c ∈ digits, Lexeme.isNumeric c = true
  reads : Reading.number? digits = some magnitude

namespace Literal

def text (l : Literal) : List Char := if l.negative then '-' :: l.digits else l.digits

def value (l : Literal) : Float := if l.negative then -l.magnitude else l.magnitude

end Literal

/-- An ASCII letter with ASCII letters, digits and underscores behind it. -/
structure Name where
  text : List Char
  proper : Lexeme.isName text = true

/-- A piece of a formula as it is written. -/
inductive Piece where
  | literal (l : Literal)
  | name (n : Name)
  | operator (op : Operator)
  | openParen
  | closeParen

namespace Operator

/-- The sign of an operator. -/
def char : Operator → Char
  | add => '+'
  | sub => '-'
  | mul => '*'
  | div => '/'
  | pow => '^'

end Operator

namespace Piece

def text : Piece → List Char
  | literal l => l.text
  | name n => n.text
  | operator op => [op.char]
  | openParen => ['(']
  | closeParen => [')']

def lexeme : Piece → Lexeme
  | literal l => .number l.value
  | name n => .name (String.ofList n.text)
  | operator op => .operator op
  | openParen => .openParen
  | closeParen => .closeParen

end Piece

/-- The text spells the pieces one behind the other, with white space before, between and behind them. -/
inductive Layout : (pieces : List Piece) → (text : List Char) → Prop
  | nil {spaces : List Char} (h : ∀ c ∈ spaces, Text.isSpace c = true) : Layout [] spaces
  | cons {spaces text : List Char} {pieces : List Piece} (h : ∀ c ∈ spaces, Text.isSpace c = true) (piece : Piece)
      (rest : Layout pieces text) : Layout (piece :: pieces) (spaces ++ (piece.text ++ text))

/-! ### Trees -/

/-- An expression, without its parentheses. -/
inductive Tree where
  | number (l : Literal)
  | name (n : Name)
  | binary (op : Operator) (left right : Tree)

/-- The pieces spell the tree as an operand of an operator of precedence `level`, or of a greater one. From 4 on
    only numbers, names and parentheses do. An operator's right operand binds more tightly than the operator. -/
inductive Derives : (level : Nat) → (tree : Tree) → (pieces : List Piece) → Prop
  | number (l : Literal) : Derives 4 (.number l) [.literal l]
  | name (n : Name) : Derives 4 (.name n) [.name n]
  | paren {tree : Tree} {pieces : List Piece} (inner : Derives 1 tree pieces) :
      Derives 4 tree (.openParen :: (pieces ++ [.closeParen]))
  | binary {op : Operator} {left right : Tree} {before behind : List Piece}
      (hleft : Derives op.precedence left before) (hright : Derives (op.precedence + 1) right behind) :
      Derives op.precedence (.binary op left right) (before ++ .operator op :: behind)
  | tighter {level : Nat} {tree : Tree} {pieces : List Piece} (h : Derives (level + 1) tree pieces) :
      Derives level tree pieces

namespace Operator

/-- The value of an operator on two numbers; nothing is divided by zero. -/
def apply (op : Operator) (a b : Float) : Except Fault Float :=
  match op with
  | add => .ok (a + b)
  | sub => .ok (a - b)
  | mul => .ok (a * b)
  | div => if b == 0.0 then .error .divisionByZero else .ok (a / b)
  | pow => .ok (a.pow b)

end Operator

namespace Tree

/-- The text spells the expression. -/
def Spells (tree : Tree) (text : List Char) : Prop := ∃ pieces, Derives 1 tree pieces ∧ Layout pieces text

/-- The code of a tree: operands first. -/
def code : Tree → List Instruction
  | number l => [.push l.value]
  | name n => [.load (String.ofList n.text)]
  | binary op left right => left.code ++ right.code ++ [op.instruction]

/-- The value of a tree, or the first fault from the left. -/
def eval (bindings : Bindings) : Tree → Except Fault Float
  | number l => .ok l.value
  | name n =>
    match bindings.get? (String.ofList n.text) with
    | some value => .ok value
    | none => .error (.undefinedVariable (String.ofList n.text))
  | binary op left right => do
    let a ← left.eval bindings
    let b ← right.eval bindings
    op.apply a b

end Tree

/-! ### Every tree can be written -/

theorem Derives.mono {level high : Nat} {tree : Tree} {pieces : List Piece} (hle : level ≤ high)
    (h : Derives high tree pieces) : Derives level tree pieces := by
  induction hle with
  | refl => exact h
  | step _ ih => exact ih (.tighter h)

/-- Each operand may stand in parentheses. -/
theorem Tree.derived : ∀ tree : Tree, ∃ pieces, Derives 4 tree pieces
  | number l => ⟨_, .number l⟩
  | name n => ⟨_, .name n⟩
  | binary op left right => by
    obtain ⟨before, hleft⟩ := left.derived
    obtain ⟨behind, hright⟩ := right.derived
    have hlow : 1 ≤ op.precedence := by cases op <;> decide
    have hhigh : op.precedence + 1 ≤ 4 := by cases op <;> decide
    have hbinary := Derives.binary (hleft.mono (Nat.le_of_succ_le hhigh)) (hright.mono hhigh)
    exact ⟨_, .paren (hbinary.mono hlow)⟩

theorem Layout.packed : ∀ pieces : List Piece, Layout pieces (pieces.flatMap Piece.text)
  | [] => .nil nofun
  | piece :: pieces => @Layout.cons [] _ _ nofun piece (packed pieces)

theorem Tree.spelled (tree : Tree) : ∃ text, tree.Spells text := by
  obtain ⟨pieces, h⟩ := tree.derived
  exact ⟨_, pieces, h.mono (by decide), .packed pieces⟩

/-! ### Formulas -/

/-- A formula: an expression, or an equation of two. -/
inductive Sentence where
  | expression (tree : Tree)
  | equation (left right : Tree)

namespace Sentence

/-- The text spells the formula. -/
def Spells : Sentence → (text : List Char) → Prop
  | expression tree, text => tree.Spells text
  | equation left right, text =>
    ∃ before behind, text = before ++ '=' :: behind ∧ left.Spells before ∧ right.Spells behind

/-- The code of a formula; that of an equation compares its sides. -/
def code : Sentence → List Instruction
  | expression tree => tree.code ++ [.halt]
  | equation left right => left.code ++ right.code ++ [.equal, .halt]

def isEquation : Sentence → Bool
  | expression _ => false
  | equation _ _ => true

/-- What a formula comes to. The sides of an equation are equal if they differ by less than the tolerance. -/
def eval (tolerance : Float) (bindings : Bindings) : Sentence → Except Fault Evaluation
  | expression tree => do
    let value ← tree.eval bindings
    pure (.expression value)
  | equation left right => do
    let a ← left.eval bindings
    let b ← right.eval bindings
    pure (.equation (decide ((a - b).abs < tolerance)))

end Sentence
end DrillCode.Formula
