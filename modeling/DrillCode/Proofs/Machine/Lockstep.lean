import DrillCode.Machine.Run
import Mathlib.Data.List.Forall2

/-! # Runs in lockstep

Two programs of the same length run in lockstep if the instructions at each address do the same to any stack, each
with the values of its own run. Then both runs end alike: with the same fault or none, after as many steps, and
with the same numbers on the stack. -/

namespace DrillCode
variable {tolerance : Float} {values values' : Bindings}

/-- Both results go on alike, or fail alike, with the same stack, and each run keeps its values. -/
inductive StepResult.Alike (values values' : Bindings) : StepResult → StepResult → Prop
  | done (flow : Flow) (stack : List Float) :
    Alike values values' (.done flow ⟨stack, values⟩) (.done flow ⟨stack, values'⟩)
  | failed (fault : Fault) (stack : List Float) :
      Alike values values' (.failed fault ⟨stack, values⟩) (.failed fault ⟨stack, values'⟩)

theorem StepResult.Alike.cases {r r' : StepResult} (h : Alike values values' r r') :
    (∃ flow stack, r = .done flow ⟨stack, values⟩ ∧ r' = .done flow ⟨stack, values'⟩) ∨
      ∃ fault stack, r = .failed fault ⟨stack, values⟩ ∧ r' = .failed fault ⟨stack, values'⟩ := by
  cases h with
  | done flow stack => exact .inl ⟨flow, stack, rfl, rfl⟩
  | failed fault stack => exact .inr ⟨fault, stack, rfl, rfl⟩

namespace Instruction

/-- Both instructions do the same to any stack. -/
def Alike (tolerance : Float) (values values' : Bindings) (ins ins' : Instruction) : Prop :=
  ∀ stack, StepResult.Alike values values' (ins.step tolerance ⟨stack, values⟩) (ins'.step tolerance ⟨stack, values'⟩)

/-- The instruction neither reads a variable nor sets one. -/
def IsPlain : Instruction → Prop
  | load _ | store _ => False
  | _ => True

theorem IsPlain.alike {ins : Instruction} (h : ins.IsPlain) : Alike tolerance values values' ins ins := by
  intro stack
  cases ins with
  | load name => exact h.elim
  | store name => exact h.elim
  | push | jump | halt | nop => exact .done _ _
  | pop | dup | neg | jumpIfZero | jumpIfNonzero =>
    cases stack with
    | nil => exact .failed _ _
    | cons a stack => exact .done _ _
  | div =>
    -- The one instruction that also fails on what stands on the stack.
    match stack with
    | [] | [_] => exact .failed _ _
    | b :: a :: stack =>
      show StepResult.Alike _ _ (if b == 0.0 then _ else _) (if b == 0.0 then _ else _)
      split
      · exact .failed _ _
      · exact .done _ _
  | swap | add | sub | mul | pow | equal | notEqual | greater | less =>
    match stack with
    | [] | [_] => exact .failed _ _
    | b :: a :: stack => exact .done _ _

/-- A variable is read alike where it has the same value, or none, in both runs. -/
theorem alike_load {name : String} (h : values.get? name = values'.get? name) :
    Alike tolerance values values' (load name) (load name) := by
  intro stack
  unfold step
  simp only [← h]
  cases values.get? name with
  | none => exact .failed _ _
  | some v => exact .done _ _

/-- To read a variable is to push its value. -/
theorem alike_push_load {name : String} {v : Float} (h : values'.get? name = some v) :
    Alike tolerance values values' (push v) (load name) := by
  intro stack
  unfold step
  simp only [h]
  exact .done _ _

end Instruction

/-- Two runs end alike. -/
structure RunEnd.Alike (e e' : RunEnd) : Prop where
  fault : e.fault = e'.fault
  steps : e.steps = e'.steps
  stack : e.memory.stack = e'.memory.stack

namespace Program
variable {settings : MachineSettings} {code code' : List Instruction}

/-- Alike code ends at the same address. -/
theorem getElem?_alike {R : Instruction → Instruction → Prop} (h : List.Forall₂ R code code') (n : Nat) :
    (code[n]? = none ∧ code'[n]? = none) ∨ ∃ ins ins', code[n]? = some ins ∧ code'[n]? = some ins' ∧ R ins ins' := by
  induction h generalizing n with
  | nil => exact .inl ⟨rfl, rfl⟩
  | cons hins _ ih =>
    cases n with
    | zero => exact .inr ⟨_, _, rfl, rfl, hins⟩
    | succ n => exact ih n

theorem runFrom_alike (hcode : List.Forall₂ (Instruction.Alike settings.tolerance values values') code code') :
    ∀ (left steps counter : Nat) (stack : List Float),
      (runFrom settings code left steps counter ⟨stack, values⟩).Alike
        (runFrom settings code' left steps counter ⟨stack, values'⟩)
  | left, steps, counter, stack => by
    -- Recursion on the steps that the limit leaves; the counters and the stacks stay equal.
    rw [runFrom, runFrom]
    rcases getElem?_alike hcode counter with ⟨hnone, hnone'⟩ | ⟨ins, ins', hins, hins', halike⟩
    · rw [hnone, hnone']
      exact ⟨rfl, rfl, rfl⟩
    · rw [hins, hins']
      dsimp only
      rcases (halike stack).cases with ⟨flow, stack, hstep, hstep'⟩ | ⟨fault, stack, hstep, hstep'⟩
      · rw [hstep, hstep']
        cases left with
        | zero => exact ⟨rfl, rfl, rfl⟩
        | succ left =>
          cases flow with
          | next => exact runFrom_alike hcode left (steps + 1) (counter + 1) stack
          | goto target => exact runFrom_alike hcode left (steps + 1) target stack
          | halt => exact ⟨rfl, rfl, rfl⟩
      · rw [hstep, hstep']
        exact ⟨rfl, rfl, rfl⟩

/-- Programs with alike instructions are executed alike. -/
theorem execute_alike {p p' : Program}
    (hcode : List.Forall₂ (Instruction.Alike settings.tolerance values values') p.code p'.code)
    (hkind : p.isEquation = p'.isEquation) : p.execute settings values = p'.execute settings values' := by
  have h := runFrom_alike hcode settings.stepLimit 0 0 []
  have hevaluation : p.evaluation = p'.evaluation := by
    funext stack
    rw [evaluation, evaluation, hkind]
  rw [execute, execute, run, run, h.fault, h.steps, h.stack, hevaluation]

end Program
end DrillCode
