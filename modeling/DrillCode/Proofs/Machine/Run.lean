import DrillCode.Machine.Run

/-! # Runs, instruction by instruction

A run whose next instruction is known goes on behind it, halts, or fails. -/

namespace DrillCode

namespace Instruction

theorem step_load_ok {name : String} {m : Memory} {value : Float} (h : m.values.get? name = some value)
    (tolerance : Float) : (load name).step tolerance m = .put m (value :: m.stack) := by
  unfold step
  simp only [h]

theorem step_load_error {name : String} {m : Memory} (h : m.values.get? name = none) (tolerance : Float) :
    (load name).step tolerance m = .failed (.undefinedVariable name) m := by
  unfold step
  simp only [h]

theorem step_div (tolerance a b : Float) (stack : List Float) (values : Bindings) :
    div.step tolerance ⟨b :: a :: stack, values⟩ =
      if b == 0.0 then .failed .divisionByZero ⟨stack, values⟩ else .done .next ⟨a / b :: stack, values⟩ := rfl

/-- Only a true comparison leaves a one. -/
theorem truth_beq_one (b : Bool) : (truth b == 1.0) = b := by cases b <;> decide

end Instruction

/-- The number on the stack that an evaluation is taken from. -/
def Evaluation.number : Evaluation → Float
  | .expression value => value
  | .equation isEqual => Instruction.truth isEqual

namespace Program
variable {settings : MachineSettings} {code more : List Instruction} {ins : Instruction} {left steps counter : Nat}
  {m m' : Memory}

theorem getElem?_of_drop (h : code.drop counter = ins :: more) : code[counter]? = some ins := by
  rw [← List.head?_drop, h]
  rfl

/-- What stands behind a part of the code. -/
theorem drop_add_of_drop {part : List Instruction} (h : code.drop counter = part ++ more) :
    code.drop (counter + part.length) = more := by
  rw [← List.drop_drop, h, List.drop_left]

/-- An instruction that is done takes one of the instructions that are left. -/
theorem runFrom_next (h : code.drop counter = ins :: more) (hstep : ins.step settings.tolerance m = .done .next m') :
    runFrom settings code (left + 1) steps counter m = runFrom settings code left (steps + 1) (counter + 1) m' := by
  conv =>
    lhs
    rw [runFrom, getElem?_of_drop h]
  simp only [hstep]

theorem runFrom_halt (h : code.drop counter = .halt :: more) :
    runFrom settings code (left + 1) steps counter m = ⟨none, steps + 1, m⟩ := by
  rw [runFrom, getElem?_of_drop h]
  rfl

theorem runFrom_failed {fault : Fault} (h : code.drop counter = ins :: more)
    (hstep : ins.step settings.tolerance m = .failed fault m') :
    runFrom settings code left steps counter m = ⟨some fault, steps, m'⟩ := by
  rw [runFrom, getElem?_of_drop h]
  simp only [hstep]

/-! ### What is taken from a run -/

variable {p : Program} {bindings : Bindings}

theorem execute_of_ok (h : p.run settings bindings = ⟨none, steps, m⟩) :
    p.execute settings bindings = ⟨.ok (p.evaluation m.stack), steps, m.stack.reverse⟩ := by
  rw [execute, h]

theorem fault_run_iff {fault : Fault} : (p.run settings bindings).fault = some fault ↔
    (p.execute settings bindings).result = .error fault := by
  simp only [execute]
  cases (p.run settings bindings).fault <;> simp

theorem execute_of_fault {fault : Fault} (h : (p.run settings bindings).fault = some fault) :
    (p.execute settings bindings).result = .error fault := by
  simp only [execute, h]

end Program
end DrillCode
