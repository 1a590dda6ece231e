import DrillCode.Proofs.Machine.Operands
import DrillCode.Proofs.OrderedMap

/-! # Where a run stands when it fails

Behind each of its instructions a run is at a stage: some instructions were executed, there is a next one or the run is
over, and the memory is what the executed ones left. An execution that fails shows the stage behind the instructions
that it counts. The next instruction of that stage is the one that failed, for a reason that the stage itself shows, and
only a division has taken anything from the stack by then. -/

namespace DrillCode

/-- The counter behind an instruction at a counter; there is none behind the last instruction. -/
def Flow.counter? (counter : Nat) : Flow → Option Nat
  | next => some (counter + 1)
  | goto target => some target
  | halt => none

/-- A place in a run: the executed instructions, the counter unless the run was halted, and the memory. -/
structure Stage where
  executed : List Instruction
  counter? : Option Nat
  memory : Memory

namespace Stage

def start (bindings : Bindings) : Stage := ⟨[], some 0, ⟨[], bindings⟩⟩

/-- The instruction that is executed next. -/
def instruction? (code : List Instruction) (s : Stage) : Option Instruction :=
  s.counter?.bind fun counter => code[counter]?

/-- The stage behind the next instruction, if that is done. -/
def advance (tolerance : Float) (code : List Instruction) (s : Stage) : Option Stage :=
  match s.counter? with
  | none => none
  | some counter =>
    match code[counter]? with
    | none => none
    | some ins =>
      match ins.step tolerance s.memory with
      | .failed _ _ => none
      | .done flow m => some ⟨s.executed ++ [ins], flow.counter? counter, m⟩

/-- The stage behind the first `n` instructions of a run. -/
def after (tolerance : Float) (code : List Instruction) (bindings : Bindings) : (n : Nat) → Option Stage
  | 0 => some (start bindings)
  | n + 1 => (after tolerance code bindings n).bind (advance tolerance code)

variable {tolerance : Float} {code : List Instruction} {bindings : Bindings} {n counter : Nat} {s t : Stage}
  {ins : Instruction}

theorem advance_of_done {flow : Flow} {m : Memory} (hcounter : s.counter? = some counter)
    (hins : code[counter]? = some ins) (hstep : ins.step tolerance s.memory = .done flow m) :
    s.advance tolerance code = some ⟨s.executed ++ [ins], flow.counter? counter, m⟩ := by
  simp only [advance, hcounter, hins, hstep]

theorem exists_of_advance (h : s.advance tolerance code = some t) :
    ∃ ins flow, t.executed = s.executed ++ [ins] ∧ ins.step tolerance s.memory = .done flow t.memory := by
  rw [advance] at h
  split at h
  · cases h
  · split at h
    · cases h
    · split at h
      · cases h
      · next hstep =>
        cases h
        exact ⟨_, _, rfl, hstep⟩

theorem after_succ (hs : after tolerance code bindings n = some s) (hadvance : s.advance tolerance code = some t) :
    after tolerance code bindings (n + 1) = some t := by
  rw [after, hs]
  exact hadvance

theorem length_executed : ∀ {n : Nat} {s : Stage}, after tolerance code bindings n = some s → s.executed.length = n
  | 0, s, h => by
    cases h
    rfl
  | n + 1, t, h => by
    obtain ⟨s, hs, hadvance⟩ := Option.bind_eq_some_iff.mp h
    obtain ⟨ins, flow, hexecuted, -⟩ := exists_of_advance hadvance
    rw [hexecuted, List.length_append, length_executed hs]
    rfl

/-! ### Variables -/

/-- A variable without a value behind an instruction had none before, and the instruction did not set it. -/
theorem unset_of_done {flow : Flow} {m m' : Memory} {name : String} (h : ins.step tolerance m = .done flow m')
    (hnone : m'.values.get? name = none) : m.values.get? name = none ∧ ins ≠ .store name := by
  have houtcome := ins.step_outcome tolerance m
  rw [h] at houtcome
  cases houtcome with
  | @stored other v stack hstack =>
    rw [OrderedMap.get?_insert] at hnone
    split at hnone
    · cases hnone
    · next hne => exact ⟨hnone, fun heq => hne (Instruction.store.inj heq).symm⟩
  | kept hle hstore => exact ⟨hnone, hstore name⟩

theorem unset_of_after {name : String} : ∀ {n : Nat} {s : Stage}, after tolerance code bindings n = some s →
    s.memory.values.get? name = none → bindings.get? name = none ∧ .store name ∉ s.executed
  | 0, s, h, hnone => by
    cases h
    exact ⟨hnone, List.not_mem_nil⟩
  | n + 1, t, h, hnone => by
    obtain ⟨s, hs, hadvance⟩ := Option.bind_eq_some_iff.mp h
    obtain ⟨ins, flow, hexecuted, hstep⟩ := exists_of_advance hadvance
    -- A value stays set, so there was none in front of the instruction either, and the induction goes on from there.
    obtain ⟨hbefore, hins⟩ := unset_of_done hstep hnone
    obtain ⟨hbound, hstores⟩ := unset_of_after hs hbefore
    rw [hexecuted, List.mem_append, List.mem_singleton]
    exact ⟨hbound, fun hmem => hmem.elim hstores fun heq => hins heq.symm⟩

/-! ### The last stage of a run -/

/-- How a run ends at a stage: there is no next instruction, the limit is passed, or the next instruction fails. -/
inductive Ends (settings : MachineSettings) (code : List Instruction) (s : Stage) : RunEnd → Prop
  | ended {steps : Nat} (h : s.instruction? code = none) : Ends settings code s ⟨none, steps, s.memory⟩
  | cut {steps : Nat} : Ends settings code s ⟨some (.runaway settings.stepLimit), steps, s.memory⟩
  | failed {steps : Nat} {ins : Instruction} {fault : Fault} {m : Memory} (hins : s.instruction? code = some ins)
      (hstep : ins.step settings.tolerance s.memory = .failed fault m) : Ends settings code s ⟨some fault, steps, m⟩

theorem instruction?_of_counter (hcounter : s.counter? = some counter) : s.instruction? code = code[counter]? := by
  rw [instruction?, hcounter]
  rfl

/-- A run ends at the stage behind the instructions that it counts. -/
theorem exists_ends {settings : MachineSettings} : ∀ (left steps counter : Nat) (s : Stage),
    after settings.tolerance code bindings steps = some s → s.counter? = some counter →
      ∃ t, after settings.tolerance code bindings
          (Program.runFrom settings code left steps counter s.memory).steps = some t ∧
        t.Ends settings code (Program.runFrom settings code left steps counter s.memory)
  | left, steps, counter, s, hs, hcounter => by
    -- The recursion is on what the limit leaves; the stage goes along with the counter and the memory of the run.
    rw [Program.runFrom]
    cases hins : code[counter]? with
    | none => exact ⟨s, hs, .ended ((instruction?_of_counter hcounter).trans hins)⟩
    | some ins =>
      dsimp only
      cases hstep : ins.step settings.tolerance s.memory with
      | failed fault m => exact ⟨s, hs, .failed ((instruction?_of_counter hcounter).trans hins) hstep⟩
      | done flow m =>
        have hnext := after_succ hs (advance_of_done hcounter hins hstep)
        cases left with
        | zero => exact ⟨_, hnext, .cut⟩
        | succ left =>
          cases flow with
          | next => exact exists_ends left (steps + 1) (counter + 1) _ hnext rfl
          | goto target => exact exists_ends left (steps + 1) target _ hnext rfl
          | halt => exact ⟨_, hnext, .ended rfl⟩

/-- What the stage at which an execution ended says about its fault and the stack that it shows. -/
def Shows (code : List Instruction) (bindings : Bindings) (s : Stage) (stack : List Float) : Fault → Prop
  | .stackUnderflow mnemonic => ∃ ins, s.instruction? code = some ins ∧ ins.mnemonic = mnemonic ∧
      s.memory.stack.length < ins.minStack ∧ stack = s.memory.stack.reverse
  | .undefinedVariable name => s.instruction? code = some (.load name) ∧ bindings.get? name = none ∧
      .store name ∉ s.executed ∧ stack = s.memory.stack.reverse
  | .divisionByZero => s.instruction? code = some .div ∧ ∃ a b rest, s.memory.stack = b :: a :: rest ∧
      (b == 0.0) = true ∧ stack = rest.reverse
  | .runaway _ => stack = s.memory.stack.reverse

/-- The memory differs from that of the stage only in the operands of a division. -/
theorem Ends.values {settings : MachineSettings} {e : RunEnd} (h : s.Ends settings code e) :
    e.memory.values = s.memory.values := by
  cases h with
  | ended => rfl
  | cut => rfl
  | failed hins hstep => exact Instruction.values_of_failed hstep

theorem Ends.shows {settings : MachineSettings} {e : RunEnd} (h : s.Ends settings code e)
    (hs : after settings.tolerance code bindings n = some s) {fault : Fault} (hfault : e.fault = some fault) :
    s.Shows code bindings e.memory.stack.reverse fault := by
  cases h with
  | ended => cases hfault
  | cut =>
    cases hfault
    exact rfl
  | @failed steps ins fault' m hins hstep =>
    cases hfault
    have houtcome := ins.step_outcome settings.tolerance s.memory
    rw [hstep] at houtcome
    cases houtcome with
    | short hlt => exact ⟨ins, hins, rfl, hlt, rfl⟩
    | undefined hvalue =>
      obtain ⟨hbound, hstores⟩ := unset_of_after hs hvalue
      exact ⟨hins, hbound, hstores, rfl⟩
    | @zero a b stack hstack hzero => exact ⟨hins, a, b, stack, hstack, hzero, rfl⟩

end Stage

namespace Program

/-- An execution ends at the stage behind the instructions that it counts, and leaves the variables of that stage as
    they are. If it fails, the stage shows why. An instruction comes to the same if it is checked first and then takes
    its operands one after the other, and after the check none of them is missing; where it fails, no variable
    changes. -/
theorem execute_fault (settings : MachineSettings) (p : Program) (bindings : Bindings) :
    let e := p.execute settings bindings
    (∃ s, Stage.after settings.tolerance p.code bindings e.steps = some s ∧ s.executed.length = e.steps ∧
      (p.run settings bindings).memory.values = s.memory.values ∧
      ∀ fault, e.result = .error fault → s.Shows p.code bindings e.stack fault) ∧
    ∀ (ins : Instruction) (m : Memory),
      (∀ fault m', ins.step settings.tolerance m = .failed fault m' → m'.values = m.values) ∧
      ins.step settings.tolerance m = .ofResult (ins.checked settings.tolerance m) ∧
      ((∃ mnemonic m', ins.act settings.tolerance m = .error (.stackUnderflow mnemonic) m') ↔
        m.stack.length < ins.minStack) := by
  intro e
  obtain ⟨s, hs, hends⟩ := @Stage.exists_ends p.code _ _ settings.stepLimit 0 0 (Stage.start bindings) rfl rfl
  exact ⟨⟨s, hs, Stage.length_executed hs, hends.values, fun fault hfault => hends.shows hs (fault_run_iff.mpr hfault)⟩,
    fun ins m => ⟨fun fault m' => Instruction.values_of_failed, Instruction.step_eq_checked,
      Instruction.act_underflow_iff⟩⟩

/-- A program that jumps over a halt, sets one variable and reads another. -/
def unsetSample : Program := ⟨[.push 1, .jumpIfNonzero 3, .halt, .push 0, .push 2, .store "x", .load "y"], false, ""⟩

/-- A program that divides by what it has put on top of two numbers. -/
def zeroSample : Program := ⟨[.push 3, .push 1, .push 0, .div], false, ""⟩

theorem execute_fault_unsetSample_zeroSample :
    (unsetSample.execute .standard .empty).result = .error (.undefinedVariable "y") ∧
      (∃ s, Stage.after MachineSettings.standard.tolerance unsetSample.code .empty 5 = some s ∧
        s.instruction? unsetSample.code = some (.load "y") ∧ s.memory.stack = [0]) ∧
    (zeroSample.execute .standard .empty).result = .error .divisionByZero ∧
      ∃ s, Stage.after MachineSettings.standard.tolerance zeroSample.code .empty 3 = some s ∧
        s.instruction? zeroSample.code = some .div := by
  have hunset : (unsetSample.execute .standard .empty).result = .error (.undefinedVariable "y") := by rfl
  have hzero : (zeroSample.execute .standard .empty).result = .error .divisionByZero := by rfl
  obtain ⟨⟨s, hs, -, -, hshows⟩, -⟩ := execute_fault .standard unsetSample .empty
  obtain ⟨⟨t, ht, -, -, hshows'⟩, -⟩ := execute_fault .standard zeroSample .empty
  obtain ⟨hload, -, -, hstack⟩ := hshows _ hunset
  exact ⟨hunset, ⟨s, hs, hload, List.reverse_eq_iff.mp hstack.symm⟩, hzero, t, ht, (hshows' _ hzero).1⟩

end Program
end DrillCode
