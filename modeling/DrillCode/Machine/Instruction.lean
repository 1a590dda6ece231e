import DrillCode.Number.Numeral

/-! # Instructions of the stack machine

An instruction has a mnemonic and possibly an operand, and needs some numbers on the stack. Its text is
its mnemonic with the operand behind it. -/

namespace DrillCode

inductive Instruction where
  | push (value : Float)
  | pop
  | dup
  | swap
  | add
  | sub
  | mul
  | div
  | pow
  | neg
  | equal
  | notEqual
  | greater
  | less
  | load (name : String)
  | store (name : String)
  | jump (target : Nat)
  /-- Jumps if the number it takes from the stack is zero. -/
  | jumpIfZero (target : Nat)
  /-- Jumps if the number it takes from the stack is not zero. -/
  | jumpIfNonzero (target : Nat)
  | halt
  | nop
  deriving DecidableEq

namespace Instruction

def mnemonic : Instruction → String
  | push _ => "PUSH"
  | pop => "POP"
  | dup => "DUP"
  | swap => "SWAP"
  | add => "ADD"
  | sub => "SUB"
  | mul => "MUL"
  | div => "DIV"
  | pow => "POW"
  | neg => "NEG"
  | equal => "EQ"
  | notEqual => "NEQ"
  | greater => "GT"
  | less => "LT"
  | load _ => "LOAD"
  | store _ => "STORE"
  | jump _ => "JMP"
  | jumpIfZero _ => "JF"
  | jumpIfNonzero _ => "JT"
  | halt => "HALT"
  | nop => "NOP"

/-- How many numbers an instruction needs on the stack. -/
def minStack : Instruction → Nat
  | push _ | load _ | jump _ | halt | nop => 0
  | pop | dup | neg | store _ | jumpIfZero _ | jumpIfNonzero _ => 1
  | swap | add | sub | mul | div | pow | equal | notEqual | greater | less => 2

def operand? : Instruction → Option String
  | push value => some (plainText value)
  | load name | store name => some name
  | jump target | jumpIfZero target | jumpIfNonzero target => some (toString target)
  | _ => none

def text (ins : Instruction) : String :=
  match ins.operand? with
  | some operand => ins.mnemonic ++ " " ++ operand
  | none => ins.mnemonic

end Instruction

/-- Instructions, whether they compare the two sides of an equation, and the text they come from. -/
structure Program where
  code : List Instruction
  isEquation : Bool
  source : String
  deriving DecidableEq

namespace Program

/-- A number with spaces before it up to three places. -/
def address (n : Nat) : List Char :=
  let digits := Nat.toDigits 10 n
  List.replicate (3 - digits.length) ' ' ++ digits

/-- The lines of a listing that starts at an address. -/
def linesFrom (n : Nat) : (code : List Instruction) → List String
  | [] => []
  | ins :: code => String.ofList (address n ++ ": ".toList ++ ins.text.toList) :: linesFrom (n + 1) code

/-- The lines of a listing: each instruction behind its address. -/
def lines (p : Program) : List String :=
  linesFrom 0 p.code

/-- The listing of a program, without a line break at its end. -/
def disassembly (p : Program) : String :=
  String.intercalate "\n" p.lines

end Program
end DrillCode
