import DrillCode.Machine.Step

/-! # Runs of the stack machine

A run executes the instruction at a counter that starts at zero, until an instruction halts it or fails,
or the counter leaves the program. It fails as well once it has executed more instructions than a limit
allows. -/

namespace DrillCode

/-- How programs are run. -/
structure MachineSettings where
  /-- How many instructions a run may execute. -/
  stepLimit : Nat
  /-- Numbers that differ by less count as equal. -/
  tolerance : Float
  deriving DecidableEq

namespace MachineSettings

/-- The settings where nothing else is asked for. -/
def standard : MachineSettings := ⟨10000, 0.0001⟩

end MachineSettings

/-- How a run ended: its fault if it failed, the number of executed instructions, and what they left. -/
structure RunEnd where
  fault : Option Fault
  steps : Nat
  memory : Memory
  deriving DecidableEq

namespace Program

/-- Runs code from a counter on, after `steps` instructions and with `left` more before the last one that
    the limit allows. -/
def runFrom (settings : MachineSettings) (code : List Instruction) :
    (left steps counter : Nat) → (m : Memory) → RunEnd
  | left, steps, counter, m =>
    match code[counter]? with
    | none => ⟨none, steps, m⟩
    | some ins =>
      match ins.step settings.tolerance m with
      | .failed fault m => ⟨some fault, steps, m⟩
      | .done flow m =>
        match left with
        | 0 => ⟨some (.runaway settings.stepLimit), steps + 1, m⟩
        | left + 1 =>
          match flow with
          | .next => runFrom settings code left (steps + 1) (counter + 1) m
          | .goto target => runFrom settings code left (steps + 1) target m
          | .halt => ⟨none, steps + 1, m⟩

/-- Runs a program with values for its variables. -/
def run (settings : MachineSettings) (p : Program) (bindings : Bindings) : RunEnd :=
  runFrom settings p.code settings.stepLimit 0 0 ⟨[], bindings⟩

end Program

/-- What a program computes: the number it leaves on top, or whether the sides of an equation are equal. -/
inductive Evaluation where
  | equation (isEqual : Bool)
  | expression (value : Float)
  deriving DecidableEq

structure Execution where
  result : Except Fault Evaluation
  steps : Nat
  /-- The numbers left on the stack, topmost last. -/
  stack : List Float

namespace Execution

def value? (e : Execution) : Option Float :=
  match e.result with
  | .ok (.expression value) => some value
  | _ => none

def isEqual? (e : Execution) : Option Bool :=
  match e.result with
  | .ok (.equation isEqual) => some isEqual
  | _ => none

def isSuccess (e : Execution) : Bool :=
  match e.result with
  | .ok _ => true
  | .error _ => false

def evaluation? (e : Execution) : Option Evaluation :=
  match e.result with
  | .ok evaluation => some evaluation
  | .error _ => none

def fault? (e : Execution) : Option Fault :=
  match e.result with
  | .ok _ => none
  | .error fault => some fault

end Execution

namespace Program

/-- What a stack holds as the result of a program: equal sides leave a one on top, and an expression
    without a number is zero. -/
def evaluation (p : Program) (stack : List Float) : Evaluation :=
  if p.isEquation then .equation (stack.head?.any fun top => top == 1.0)
  else .expression (stack.head?.getD 0.0)

/-- Runs a program with values for its variables and takes its result from the stack. -/
def execute (settings : MachineSettings) (p : Program) (bindings : Bindings) : Execution :=
  let last := p.run settings bindings
  { result := match last.fault with
      | some fault => .error fault
      | none => .ok (p.evaluation last.memory.stack)
    steps := last.steps
    stack := last.memory.stack.reverse }

end Program
end DrillCode
