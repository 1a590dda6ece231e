import DrillCode.Proofs.Machine.Turn

/-! # One machine for many programs

A machine keeps its stack, its variables, its counter and the number of its steps when an execution ends, however it
ends. Each execution starts by putting all of them back, so what a machine ran before, and whether that failed, makes
no difference: it computes what the program computes. -/

namespace DrillCode

/-- A machine as an earlier execution left it. -/
structure Machine where
  settings : MachineSettings
  memory : Memory
  counter : Nat
  steps : Nat

namespace Machine

/-- A machine that has not run anything. -/
def new (settings : MachineSettings) : Machine := ⟨settings, ⟨[], .empty⟩, 0, 0⟩

/-- The machine with an empty stack and other variables, at the start of a program. -/
def reset (machine : Machine) (bindings : Bindings) : Machine :=
  { machine with memory := ⟨[], bindings⟩, counter := 0, steps := 0 }

/-- Counts a step, which may be one too many. -/
def count (machine : Machine) : Option Fault × Machine :=
  let machine := { machine with steps := machine.steps + 1 }
  (if machine.settings.stepLimit < machine.steps then some (.runaway machine.settings.stepLimit) else none, machine)

/-- Takes turns from the counter on until one of them is the last or there have been too many. -/
def loop (code : List Instruction) (machine : Machine) : Option Fault × Machine :=
  match Program.turn machine.settings.tolerance code machine.counter machine.memory with
  | .stop fault memory => (fault, { machine with memory })
  | .halt memory => { machine with memory }.count
  | .go counter memory =>
    if machine.settings.stepLimit < machine.steps + 1 then { machine with memory }.count
    else loop code { machine with memory, counter, steps := machine.steps + 1 }
termination_by machine.settings.stepLimit - machine.steps

/-- Executes a program on the machine, whatever it executed before. -/
def execute (machine : Machine) (p : Program) (bindings : Bindings) : Execution × Machine :=
  let (fault, machine) := loop p.code (machine.reset bindings)
  ({ result := match fault with
      | some fault => .error fault
      | none => .ok (p.evaluation machine.memory.stack)
     steps := machine.steps
     stack := machine.memory.stack.reverse }, machine)

/-- How a run on the machine ended. -/
def ended (out : Option Fault × Machine) : RunEnd := ⟨out.1, out.2.steps, out.2.memory⟩

variable {machine : Machine}

theorem settings_count : machine.count.2.settings = machine.settings := rfl

theorem ended_count_of_lt (h : machine.settings.stepLimit < machine.steps + 1) :
    ended machine.count = ⟨some (.runaway machine.settings.stepLimit), machine.steps + 1, machine.memory⟩ := by
  simp only [ended, count, if_pos h]

theorem ended_count_of_le (h : machine.steps + 1 ≤ machine.settings.stepLimit) :
    ended machine.count = ⟨none, machine.steps + 1, machine.memory⟩ := by
  simp only [ended, count, if_neg (Nat.not_lt.mpr h)]

/-- Induction on the turns that the limit leaves: the machine takes the turns of a run. -/
theorem ended_loop (code : List Instruction) : ∀ (left : Nat) (machine : Machine),
    machine.steps + left = machine.settings.stepLimit → (loop code machine).2.settings = machine.settings ∧
      ended (loop code machine) =
        Program.runFrom machine.settings code left machine.steps machine.counter machine.memory
  | left, machine, hleft => by
    rw [loop, Program.runFrom_eq_turn]
    cases Program.turn machine.settings.tolerance code machine.counter machine.memory with
    | stop fault memory => exact ⟨rfl, rfl⟩
    | halt memory =>
      refine ⟨settings_count, ?_⟩
      cases left with
      | zero => exact ended_count_of_lt (by dsimp only; omega)
      | succ left => exact ended_count_of_le (by dsimp only; omega)
    | go counter memory =>
      cases left with
      | zero =>
        dsimp only
        rw [if_pos (by omega)]
        exact ⟨settings_count, ended_count_of_lt (by dsimp only; omega)⟩
      | succ left =>
        dsimp only
        rw [if_neg (by omega)]
        exact ended_loop code left _ (by dsimp only; omega)

/-- Whatever state the machine was left in, it computes what the program computes, and keeps its settings. -/
theorem execute_eq (machine : Machine) (p : Program) (bindings : Bindings) :
    (machine.execute p bindings).1 = p.execute machine.settings bindings ∧
      (machine.execute p bindings).2.settings = machine.settings := by
  obtain ⟨hsettings, hended⟩ := ended_loop p.code machine.settings.stepLimit (machine.reset bindings) (Nat.zero_add _)
  refine ⟨?_, hsettings⟩
  have hrun : ended (loop p.code (machine.reset bindings)) = p.run machine.settings bindings := hended
  rw [Program.execute, ← hrun]
  rfl

end Machine
end DrillCode
