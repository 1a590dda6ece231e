import DrillCode.Machine.Instruction
import DrillCode.OrderedMap

/-! # One step of the stack machine

An instruction takes its operands from the top of the stack and puts its result there. It fails, and then
touches nothing, if the stack is too short or a variable has no value; a division by zero fails after its
operands were taken. -/

namespace DrillCode

abbrev Bindings := OrderedMap String Float

inductive Fault where
  /-- There are too few numbers on the stack for the instruction of that name. -/
  | stackUnderflow (mnemonic : String)
  | undefinedVariable (name : String)
  | divisionByZero
  /-- More instructions were executed than the limit allows. -/
  | runaway (limit : Nat)
  deriving DecidableEq, Repr

namespace Fault

def message : Fault → String
  | stackUnderflow mnemonic => "stack underflow on " ++ mnemonic
  | undefinedVariable name => "undefined variable: " ++ name
  | divisionByZero => "division by zero"
  | runaway limit => "execution steps exceeded limit of " ++ toString limit

end Fault

/-- What instructions work on. -/
structure Memory where
  /-- The numbers on the stack, topmost first. -/
  stack : List Float
  values : Bindings
  deriving DecidableEq

namespace Memory

def withStack (m : Memory) (stack : List Float) : Memory :=
  ⟨stack, m.values⟩

end Memory

/-- Where a run goes on after an instruction. -/
inductive Flow where
  | next
  | goto (target : Nat)
  | halt
  deriving DecidableEq, Repr

/-- What comes of an instruction. -/
inductive StepResult where
  | done (flow : Flow) (memory : Memory)
  | failed (fault : Fault) (memory : Memory)

/-- The memory has another stack, and the next instruction follows. -/
def StepResult.put (m : Memory) (stack : List Float) : StepResult :=
  done .next (m.withStack stack)

namespace Instruction

/-- A truth value as a number. -/
def truth (b : Bool) : Float :=
  if b then 1.0 else 0.0

/-- The operation of an instruction that makes one number out of two, of which the second was on top. -/
def binary? (tolerance : Float) : Instruction → Option (Float → Float → Float)
  | add => some fun a b => a + b
  | sub => some fun a b => a - b
  | mul => some fun a b => a * b
  | pow => some Float.pow
  | equal => some fun a b => truth ((a - b).abs < tolerance)
  | notEqual => some fun a b => truth (tolerance ≤ (a - b).abs)
  | greater => some fun a b => truth (b < a)
  | less => some fun a b => truth (a < b)
  | _ => none

/-- Executes an instruction. Two numbers count as equal if they differ by less than the tolerance. -/
def step (tolerance : Float) (ins : Instruction) (m : Memory) : StepResult :=
  match ins, m.stack with
  | push v, stack => .put m (v :: stack)
  | pop, _ :: stack => .put m stack
  | dup, a :: stack => .put m (a :: a :: stack)
  | swap, b :: a :: stack => .put m (a :: b :: stack)
  | neg, a :: stack => .put m (-a :: stack)
  | div, b :: a :: stack =>
    if b == 0.0 then .failed .divisionByZero (m.withStack stack) else .put m (a / b :: stack)
  | load name, stack =>
    match m.values.get? name with
    | some v => .put m (v :: stack)
    | none => .failed (.undefinedVariable name) m
  | store name, v :: stack => .done .next ⟨stack, m.values.insert name v⟩
  | jump target, _ => .done (.goto target) m
  | jumpIfZero target, c :: stack =>
    .done (if c == 0.0 then .goto target else .next) (m.withStack stack)
  | jumpIfNonzero target, c :: stack =>
    .done (if c == 0.0 then .next else .goto target) (m.withStack stack)
  | halt, _ => .done .halt m
  | nop, _ => .done .next m
  | ins, stack =>
    match binary? tolerance ins, stack with
    | some f, b :: a :: stack => .put m (f a b :: stack)
    | _, _ => .failed (.stackUnderflow ins.mnemonic) m

end Instruction
end DrillCode
