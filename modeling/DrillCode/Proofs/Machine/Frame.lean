import DrillCode.Proofs.Machine.Operands
import DrillCode.Proofs.Machine.Straight

/-! # What lies below stays

An instruction that finds its operands among the upper numbers of a stack does not see the lower ones. So straight-line
code that never needs more than it has put on the stack itself does the same on any stack, and leaves what lay below.
Whether it does can be counted on the code alone. -/

namespace DrillCode

/-- The memory with more numbers below those on its stack. -/
def Memory.onto (m : Memory) (below : List Float) : Memory := m.withStack (m.stack ++ below)

def StepResult.onto (below : List Float) : StepResult → StepResult
  | done flow m => done flow (m.onto below)
  | failed fault m => failed fault (m.onto below)

namespace Instruction
variable {tolerance : Float} {ins : Instruction} {m : Memory}

theorem step_onto (h : ins.minStack ≤ m.stack.length) (below : List Float) :
    ins.step tolerance (m.onto below) = (ins.step tolerance m).onto below := by
  obtain ⟨stack, values⟩ := m
  cases ins with
  | push | jump | halt | nop => rfl
  | load name =>
    cases hvalue : values.get? name with
    | none =>
      rw [step_load_error hvalue, step_load_error hvalue]
      rfl
    | some v =>
      rw [step_load_ok hvalue, step_load_ok hvalue]
      rfl
  | pop | dup | neg | store | jumpIfZero | jumpIfNonzero =>
    match stack, h with
    | _ :: _, _ => rfl
  | div =>
    match stack, h with
    | b :: a :: stack, _ =>
      show div.step tolerance ⟨b :: a :: (stack ++ below), values⟩ = _
      rw [step_div, step_div]
      split <;> rfl
  | swap | add | sub | mul | pow | equal | notEqual | greater | less =>
    match stack, h with
    | _ :: _ :: _, _ => rfl

theorem IsStraight.ne_store (h : ins.IsStraight) (name : String) : ins ≠ store name := by
  rintro rfl
  rcases h with h | h <;> cases h

theorem values_of_done {flow : Flow} {m' : Memory} (h : ins.step tolerance m = .done flow m')
    (hstore : ∀ name, ins ≠ store name) : m'.values = m.values := by
  have houtcome := ins.step_outcome tolerance m
  rw [h] at houtcome
  cases houtcome with
  | stored => exact absurd rfl (hstore _)
  | kept => rfl

/-- An instruction that is done had all of its operands. -/
theorem le_of_done {flow : Flow} {m' : Memory} (h : ins.step tolerance m = .done flow m') :
    ins.minStack ≤ m.stack.length := Nat.not_lt.mp fun hlt => by
  rw [step_of_lt hlt] at h
  cases h

end Instruction

/-- How many numbers straight-line code leaves on a stack of a given height, if it never needs more than there are. -/
def heightAfter (height : Nat) : (part : List Instruction) → Option Nat
  | [] => some height
  | ins :: part =>
    if ins.minStack ≤ height then heightAfter (height + ins.isOperand.toNat - ins.joins.toNat) part else none

/-- The instructions are done, each followed by the next one. -/
inductive Passes (tolerance : Float) : (part : List Instruction) → (m m' : Memory) → Prop
  | nil (m : Memory) : Passes tolerance [] m m
  | cons {ins : Instruction} {part : List Instruction} {m m' m'' : Memory}
      (hstep : ins.step tolerance m = .done .next m') (rest : Passes tolerance part m' m'') :
    Passes tolerance (ins :: part) m m''

namespace Passes
variable {tolerance : Float} {part more : List Instruction} {m m' m'' : Memory}

theorem append_iff : ∀ {part : List Instruction} {m : Memory}, Passes tolerance (part ++ more) m m'' ↔
    ∃ m', Passes tolerance part m m' ∧ Passes tolerance more m' m''
  | [], m => by
    refine ⟨fun h => ⟨m, .nil m, h⟩, fun ⟨m', h, hmore⟩ => ?_⟩
    cases h
    exact hmore
  | ins :: part, m => by
    refine ⟨fun h => ?_, fun ⟨m', h, hmore⟩ => ?_⟩
    · cases h with
      | cons hstep rest =>
        obtain ⟨m', hrest, hmore⟩ := append_iff.mp rest
        exact ⟨m', .cons hstep hrest, hmore⟩
    · cases h with
      | cons hstep rest => exact .cons hstep (append_iff.mpr ⟨m', rest, hmore⟩)

theorem values (h : Passes tolerance part m m') (hpart : ∀ ins ∈ part, ins.IsStraight) : m'.values = m.values := by
  induction h with
  | nil => rfl
  | @cons ins part m m' m'' hstep rest ih =>
    obtain ⟨hins, hrest⟩ := List.forall_mem_cons.mp hpart
    rw [ih hrest, Instruction.values_of_done hstep hins.ne_store]

/-- Code that passes needs no more than there is, and leaves as many numbers as can be counted. -/
theorem heightAfter_eq (h : Passes tolerance part m m') (hpart : ∀ ins ∈ part, ins.IsStraight) :
    heightAfter m.stack.length part = some m'.stack.length := by
  induction h with
  | nil => rfl
  | @cons ins part m m' m'' hstep rest ih =>
    obtain ⟨hins, hrest⟩ := List.forall_mem_cons.mp hpart
    have hstraight := Instruction.step_straight hins tolerance m
    rw [hstep] at hstraight
    cases hstraight with
    | next hheight =>
      rw [heightAfter, if_pos (Instruction.le_of_done hstep), ← hheight, Nat.add_sub_cancel, ih hrest]

/-- Code that passes also passes with more numbers below. -/
theorem onto (h : Passes tolerance part m m') (below : List Float) :
    Passes tolerance part (m.onto below) (m'.onto below) := by
  induction h with
  | nil => exact .nil _
  | cons hstep rest ih =>
    refine .cons ?_ ih
    rw [Instruction.step_onto (Instruction.le_of_done hstep), hstep]
    rfl

/-- Code that passes and never needs what lies below passes without it, and leaves it there. -/
theorem exists_onto {below : List Float} : ∀ {part : List Instruction} {m m'' : Memory} {height : Nat},
    Passes tolerance part (m.onto below) m'' → (∀ ins ∈ part, ins.IsStraight) →
      heightAfter m.stack.length part = some height → ∃ m', m'' = m'.onto below ∧ Passes tolerance part m m'
  | [], m, _, _, h, _, _ => by
    cases h
    exact ⟨m, rfl, .nil m⟩
  | ins :: part, m, m'', height, .cons hstep rest, hpart, hheight => by
    obtain ⟨hins, hrest⟩ := List.forall_mem_cons.mp hpart
    -- The count allows the instruction only if its operands lie above, so it is done there too.
    rw [heightAfter] at hheight
    split at hheight
    · next hle =>
      rw [Instruction.step_onto hle] at hstep
      have hstraight := Instruction.step_straight hins tolerance m
      generalize hresult : ins.step tolerance m = result at hstep hstraight
      cases hstraight with
      | failed => cases hstep
      | @next m₁ hnext =>
        cases hstep
        rw [← hnext, Nat.add_sub_cancel] at hheight
        obtain ⟨m', hm', hpasses⟩ := exists_onto rest hrest hheight
        exact ⟨m', hm', .cons hresult hpasses⟩
    · cases hheight

end Passes

namespace Program
variable {settings : MachineSettings} {code part more : List Instruction} {p : Program} {bindings : Bindings}

/-- A run goes on behind code that passes. -/
theorem runFrom_passes {m m' : Memory} (h : Passes settings.tolerance part m m') :
    ∀ {left steps counter : Nat}, code.drop counter = part ++ more →
      runFrom settings code (left + part.length) steps counter m =
        runFrom settings code left (steps + part.length) (counter + part.length) m' := by
  induction h with
  | nil => exact fun _ => rfl
  | @cons ins part m m' m'' hstep rest ih =>
    intro left steps counter hcode
    have hfront : code.drop counter = [ins] ++ (part ++ more) := hcode
    have hbehind : code.drop (counter + 1) = part ++ more := drop_add_of_drop hfront
    have hsum : ∀ n, n + (ins :: part).length = n + 1 + part.length := fun n => Nat.add_right_comm n _ 1
    rw [show left + (ins :: part).length = left + part.length + 1 from rfl, runFrom_next hcode hstep, ih hbehind, hsum,
      hsum]

/-- Straight-line code passes in a run without a fault. -/
theorem exists_passes : ∀ {part : List Instruction} {left steps counter : Nat} {m : Memory},
    (∀ ins ∈ part, ins.IsStraight) → code.drop counter = part ++ more →
      (runFrom settings code left steps counter m).fault = none → ∃ m', Passes settings.tolerance part m m'
  | [], _, _, _, m, _, _, _ => ⟨m, .nil m⟩
  | ins :: part, left, steps, counter, m, hpart, hcode, hfault => by
    obtain ⟨hins, hrest⟩ := List.forall_mem_cons.mp hpart
    have hfront : code.drop counter = [ins] ++ (part ++ more) := hcode
    have hstraight := Instruction.step_straight hins settings.tolerance m
    generalize hresult : ins.step settings.tolerance m = result at hstraight
    cases hstraight with
    | failed fault m' =>
      rw [runFrom_failed hcode hresult] at hfault
      cases hfault
    | @next m' hheight =>
      cases left with
      | zero =>
        -- The limit is passed behind the instruction.
        rw [runFrom, getElem?_of_drop hcode] at hfault
        simp only [hresult] at hfault
        cases hfault
      | succ left =>
        rw [runFrom_next hcode hresult] at hfault
        obtain ⟨last, hpasses⟩ := exists_passes hrest (drop_add_of_drop hfront) hfault
        exact ⟨last, .cons hresult hpasses⟩

/-- A program of code that passes, and a halt, is executed as a whole. -/
theorem execute_passes {m : Memory} (hcode : p.code = part ++ [.halt]) (hlimit : p.code.length ≤ settings.stepLimit)
    (h : Passes settings.tolerance part ⟨[], bindings⟩ m) :
    p.execute settings bindings = ⟨.ok (p.evaluation m.stack), p.code.length, m.stack.reverse⟩ := by
  have hlength : p.code.length = part.length + 1 := by rw [hcode, List.length_append, List.length_singleton]
  obtain ⟨left, hleft⟩ := Nat.exists_eq_add_of_le' hlimit
  have hdrop : p.code.drop 0 = part ++ [.halt] := hcode
  have hhalt : p.code.drop (0 + part.length) = [.halt] := drop_add_of_drop hdrop
  refine execute_of_ok ?_
  rw [run, hleft, hlength, ← Nat.add_assoc, Nat.add_right_comm, runFrom_passes h hdrop, runFrom_halt hhalt,
    Nat.zero_add]

theorem exists_passes_of_isSuccess (hcode : p.code = part ++ [.halt]) (hpart : ∀ ins ∈ part, ins.IsStraight)
    (h : (p.execute settings bindings).isSuccess = true) :
    ∃ m, Passes settings.tolerance part ⟨[], bindings⟩ m := by
  have hdrop : p.code.drop 0 = part ++ [.halt] := hcode
  have hfault : (p.run settings bindings).fault = none :=
    Option.eq_none_iff_forall_ne_some.mpr fun fault hfault => by
      rw [Execution.isSuccess, execute_of_fault hfault] at h
      cases h
  exact exists_passes hpart hdrop hfault

end Program
end DrillCode
