import DrillCode.Machine.Run

/-! # One turn of a run

What comes of the instruction at a counter does not depend on any limit: the run stops there, or the instruction is
executed and the run halts or goes on at another counter. A run under a limit is a row of such turns, and what the
limit decides is only whether the next turn is still taken. -/

namespace DrillCode

namespace Instruction

/-- No instruction fails for the reason for which runs are cut. -/
theorem step_ne_runaway {tolerance : Float} {ins : Instruction} {m m' : Memory} {fault : Fault}
    (h : ins.step tolerance m = .failed fault m') (limit : Nat) : fault ≠ .runaway limit := by
  rintro rfl
  unfold step at h
  split at h <;> try cases h
  -- A division, a variable and an operation on two numbers have a second reason to look at.
  all_goals split at h <;> cases h

end Instruction

/-- What comes of the instruction at a counter. -/
inductive Turn where
  /-- Nothing was executed: there is no instruction, or it failed. -/
  | stop (fault : Option Fault) (memory : Memory)
  /-- An instruction was executed, and it is the last one. -/
  | halt (memory : Memory)
  /-- An instruction was executed, and the next one is at the counter. -/
  | go (counter : Nat) (memory : Memory)

namespace Program

/-- Executes the instruction at a counter. -/
def turn (tolerance : Float) (code : List Instruction) (counter : Nat) (m : Memory) : Turn :=
  match code[counter]? with
  | none => .stop none m
  | some ins =>
    match ins.step tolerance m with
    | .failed fault m => .stop (some fault) m
    | .done .next m => .go (counter + 1) m
    | .done (.goto target) m => .go target m
    | .done .halt m => .halt m

variable {settings : MachineSettings} {code : List Instruction} {left steps counter : Nat} {m : Memory}

/-- A run takes a turn and goes on with the next one, unless the turn or the limit ends it. -/
theorem runFrom_eq_turn : runFrom settings code left steps counter m =
    match turn settings.tolerance code counter m, left with
    | .stop fault m, _ => ⟨fault, steps, m⟩
    | .halt m, 0 | .go _ m, 0 => ⟨some (.runaway settings.stepLimit), steps + 1, m⟩
    | .halt m, _ + 1 => ⟨none, steps + 1, m⟩
    | .go counter m, left + 1 => runFrom settings code left (steps + 1) counter m := by
  rw [runFrom, turn]
  cases code[counter]? with
  | none => rfl
  | some ins =>
    dsimp only
    cases ins.step settings.tolerance m with
    | failed fault m => rfl
    | done flow m => cases flow <;> cases left <;> rfl

end Program
end DrillCode
