import DrillCode.Proofs.Machine.Run
import DrillCode.Proofs.Machine.Turn

/-! # Straight-line code

In code that only puts numbers on the stack and joins the two on top, and then halts, every instruction is followed by
the next one. A run either fails for a reason of its own or executes each instruction once, and how many numbers are
left is known from the code alone. -/

namespace DrillCode

namespace Instruction

/-- The instruction puts a number on the stack. -/
def isOperand : Instruction → Bool
  | push _ | load _ => true
  | _ => false

/-- The instruction computes with the two numbers on top. -/
def isArithmetic : Instruction → Bool
  | add | sub | mul | div | pow => true
  | _ => false

/-- The instruction puts one number in the place of the two on top. -/
def joins : Instruction → Bool
  | equal | notEqual | greater | less => true
  | ins => ins.isArithmetic

theorem joins_eq_isArithmetic {ins : Instruction} (h : ins.isOperand = true ∨ ins.isArithmetic = true) :
    ins.joins = ins.isArithmetic := by
  cases ins with
  | equal | notEqual | greater | less => rcases h with h | h <;> cases h
  | _ => rfl

/-- The instruction neither jumps nor sets a variable: it puts a number on the stack, or one in the place of two. -/
def IsStraight (ins : Instruction) : Prop := ins.isOperand = true ∨ ins.joins = true

theorem isStraight_of_isArithmetic {ins : Instruction} (h : ins.isOperand = true ∨ ins.isArithmetic = true) :
    ins.IsStraight := by rwa [← joins_eq_isArithmetic h] at h

end Instruction

/-- An instruction failed, or it was done, the next one follows, and the stack has the height that the instruction says
    itself. -/
inductive StepResult.Straight (ins : Instruction) (m : Memory) : StepResult → Prop
  | failed (fault : Fault) (m' : Memory) : Straight ins m (.failed fault m')
  | next {m' : Memory} (h : m'.stack.length + ins.joins.toNat = m.stack.length + ins.isOperand.toNat) :
    Straight ins m (.done .next m')

theorem Instruction.step_straight {ins : Instruction} (h : ins.IsStraight) (tolerance : Float) (m : Memory) :
    StepResult.Straight ins m (ins.step tolerance m) := by
  obtain ⟨stack, values⟩ := m
  cases ins with
  | push value => exact .next rfl
  | load name =>
    cases hvalue : values.get? name with
    | none =>
      rw [step_load_error hvalue]
      exact .failed _ _
    | some value =>
      rw [step_load_ok hvalue]
      exact .next rfl
  | div =>
    match stack with
    | [] | [_] => exact .failed _ _
    | b :: a :: stack =>
      rw [step_div]
      split
      · exact .failed _ _
      · exact .next rfl
  | add | sub | mul | pow | equal | notEqual | greater | less =>
    match stack with
    | [] | [_] => exact .failed _ _
    | b :: a :: stack => exact .next rfl
  | pop | dup | swap | neg | store | jump | jumpIfZero | jumpIfNonzero | halt | nop => rcases h with h | h <;> cases h

/-- How a run of straight-line code ends: with a fault that is not the limit's, or behind all its instructions, with
    as many numbers as they leave on a stack of the given height. -/
inductive RunEnd.Straight (part : List Instruction) (steps height : Nat) : RunEnd → Prop
  | failed {fault : Fault} {executed : Nat} {m : Memory} (h : ∀ limit, fault ≠ .runaway limit) :
    Straight part steps height ⟨some fault, executed, m⟩
  | halted {m : Memory}
    (h : m.stack.length + part.countP Instruction.joins = height + part.countP Instruction.isOperand) :
    Straight part steps height ⟨none, steps + part.length + 1, m⟩

/-- What holds behind an instruction that was done holds in front of it. -/
theorem RunEnd.Straight.cons {ins : Instruction} {part : List Instruction} {steps height before : Nat} {last : RunEnd}
    (h : Straight part (steps + 1) height last)
    (hheight : height + ins.joins.toNat = before + ins.isOperand.toNat) :
    Straight (ins :: part) steps before last := by
  have hcount : ∀ p : Instruction → Bool, (ins :: part).countP p = part.countP p + (p ins).toNat := fun p => by
    rw [List.countP_cons]
    cases p ins <;> rfl
  cases h with
  | failed h => exact .failed h
  | @halted m h =>
    have hsteps : steps + 1 + part.length + 1 = steps + (ins :: part).length + 1 := by
      rw [List.length_cons]
      omega
    rw [hsteps]
    refine .halted ?_
    rw [hcount, hcount]
    omega

namespace Program
variable {settings : MachineSettings} {code more : List Instruction}

/-- Induction on the instructions that are left in front of the halt. -/
theorem runFrom_straight : ∀ {part : List Instruction} {left steps counter : Nat} {m : Memory},
    (∀ ins ∈ part, ins.IsStraight) → code.drop counter = part ++ .halt :: more →
      part.length < left →
        RunEnd.Straight part steps m.stack.length (runFrom settings code left steps counter m)
  | [], left + 1, steps, counter, m, _, hcode, _ => by
    rw [runFrom_halt hcode]
    exact .halted rfl
  | ins :: part, left + 1, steps, counter, m, h, hcode, hleft => by
    have hstep := Instruction.step_straight (h ins List.mem_cons_self) settings.tolerance m
    generalize hresult : ins.step settings.tolerance m = result at hstep
    cases hstep with
    | failed fault m' =>
      rw [runFrom_failed hcode hresult]
      exact .failed (Instruction.step_ne_runaway hresult)
    | @next m' hheight =>
      have hfront : code.drop counter = [ins] ++ (part ++ .halt :: more) := hcode
      rw [runFrom_next hcode hresult]
      exact (runFrom_straight (fun x hx => h x (List.mem_cons_of_mem ins hx)) (drop_add_of_drop hfront)
        (Nat.lt_of_succ_lt_succ hleft)).cons hheight

/-- A limit that the whole code fits under is never met, and a run that succeeds has executed the whole code. -/
theorem execute_straight {p : Program} {part : List Instruction} (hcode : p.code = part ++ [.halt])
    (h : ∀ ins ∈ part, ins.IsStraight) (hlimit : p.code.length ≤ settings.stepLimit)
    (bindings : Bindings) :
    (∀ limit, (p.execute settings bindings).result ≠ .error (.runaway limit)) ∧
      ((p.execute settings bindings).isSuccess = true →
        (p.execute settings bindings).steps = p.code.length ∧
        (p.execute settings bindings).stack.length + part.countP Instruction.joins =
          part.countP Instruction.isOperand) := by
  have hlength : p.code.length = part.length + 1 := by
    rw [hcode, List.length_append]
    rfl
  have hdrop : p.code.drop 0 = part ++ .halt :: [] := hcode
  have hlast : RunEnd.Straight part 0 0 (p.run settings bindings) :=
    runFrom_straight (m := ⟨[], bindings⟩) h hdrop (by omega)
  generalize hrun : p.run settings bindings = last at hlast
  cases hlast with
  | failed hfault =>
    have herror := execute_of_fault (congrArg RunEnd.fault hrun)
    refine ⟨fun limit hlimit => hfault limit ?_, fun hsuccess => ?_⟩
    · rw [herror] at hlimit
      exact Except.error.inj hlimit
    · rw [Execution.isSuccess, herror] at hsuccess
      cases hsuccess
  | @halted m hheight =>
    rw [execute_of_ok hrun]
    refine ⟨fun limit => nofun, fun _ => ⟨by dsimp only; omega, ?_⟩⟩
    rw [List.length_reverse, hheight, Nat.zero_add]

end Program
end DrillCode
