import DrillCode.Proofs.Machine.Run

/-! # Operands are taken one after the other

A machine takes the operands of an instruction from its stack one by one, and a stack that is too short would only
show when the next one is missing. So it asks first whether there are as many numbers as the instruction needs. That
table is exact: where it allows an instruction, no operand is missing, and where it does not, one is. An instruction
therefore either takes all of its operands or leaves the memory as it is. -/

namespace DrillCode

namespace Instruction

/-- Takes the number on top. -/
def take (ins : Instruction) : EStateM Fault Memory Float := fun m =>
  match m.stack with
  | [] => .error (.stackUnderflow ins.mnemonic) m
  | top :: stack => .ok top (m.withStack stack)

/-- Reads the number on top and leaves it there. -/
def peek (ins : Instruction) : EStateM Fault Memory Float := fun m =>
  match m.stack with
  | [] => .error (.stackUnderflow ins.mnemonic) m
  | top :: _ => .ok top m

/-- Takes the two numbers on top, the upper one first. -/
def takeTwo (ins : Instruction) : EStateM Fault Memory (Float × Float) := do
  let b ← ins.take
  let a ← ins.take
  return (a, b)

/-- Reads the value of a variable. -/
def lookUp (name : String) : EStateM Fault Memory Float := fun m =>
  match m.values.get? name with
  | some v => .ok v m
  | none => .error (.undefinedVariable name) m

/-- Puts a number on top. -/
def give (value : Float) : EStateM Fault Memory Flow := fun m =>
  .ok .next (m.withStack (value :: m.stack))

/-- Puts one number in the place of the two on top. -/
def join (ins : Instruction) (f : Float → Float → Float) : EStateM Fault Memory Flow := do
  let (a, b) ← ins.takeTwo
  give (f a b)

/-- Executes an instruction, one operand after the other. -/
def act (tolerance : Float) (ins : Instruction) : EStateM Fault Memory Flow :=
  match ins with
  | push v => give v
  | pop => do
    let _ ← ins.take
    return .next
  | dup => do
    let top ← ins.peek
    give top
  | swap => do
    let (a, b) ← ins.takeTwo
    let _ ← give b
    give a
  | add => ins.join fun a b => a + b
  | sub => ins.join fun a b => a - b
  | mul => ins.join fun a b => a * b
  | div => do
    let (a, b) ← ins.takeTwo
    if b == 0.0 then throw .divisionByZero else give (a / b)
  | pow => ins.join Float.pow
  | neg => do
    let a ← ins.take
    give (-a)
  | equal => ins.join fun a b => truth ((a - b).abs < tolerance)
  | notEqual => ins.join fun a b => truth (tolerance ≤ (a - b).abs)
  | greater => ins.join fun a b => truth (b < a)
  | less => ins.join fun a b => truth (a < b)
  | load name => do
    let v ← lookUp name
    give v
  | store name => do
    let v ← ins.take
    modify fun m => ⟨m.stack, m.values.insert name v⟩
    return .next
  | jump target => return .goto target
  | jumpIfZero target => do
    let c ← ins.take
    return if c == 0.0 then .goto target else .next
  | jumpIfNonzero target => do
    let c ← ins.take
    return if c == 0.0 then .next else .goto target
  | halt => return .halt
  | nop => return .next

/-- Executes an instruction if there are as many numbers as it needs. -/
def checked (tolerance : Float) (ins : Instruction) : EStateM Fault Memory Flow := do
  if (← get).stack.length < ins.minStack then throw (.stackUnderflow ins.mnemonic)
  ins.act tolerance

end Instruction

/-- What came of an instruction whose operands were taken one after the other. -/
def StepResult.ofResult : EStateM.Result Fault Memory Flow → StepResult
  | .ok flow m => .done flow m
  | .error fault m => .failed fault m

/-- What can come of an instruction: a failure with its reason, a variable that is set, or another stack. -/
inductive Instruction.Outcome (m : Memory) : Instruction → StepResult → Prop
  | short {ins : Instruction} (h : m.stack.length < ins.minStack) :
    Outcome m ins (.failed (.stackUnderflow ins.mnemonic) m)
  | undefined {name : String} (h : m.values.get? name = none) :
    Outcome m (.load name) (.failed (.undefinedVariable name) m)
  | zero {a b : Float} {stack : List Float} (hstack : m.stack = b :: a :: stack) (hzero : (b == 0.0) = true) :
    Outcome m .div (.failed .divisionByZero (m.withStack stack))
  | stored {name : String} {v : Float} {stack : List Float} (hstack : m.stack = v :: stack) :
    Outcome m (.store name) (.done .next ⟨stack, m.values.insert name v⟩)
  | kept {ins : Instruction} {flow : Flow} {stack : List Float} (hle : ins.minStack ≤ m.stack.length)
      (hstore : ∀ name, ins ≠ .store name) : Outcome m ins (.done flow (m.withStack stack))

namespace Instruction
variable {tolerance : Float} {ins : Instruction} {m m' : Memory}

theorem step_outcome (tolerance : Float) (ins : Instruction) (m : Memory) : Outcome m ins (ins.step tolerance m) := by
  obtain ⟨stack, values⟩ := m
  cases ins with
  | push | jump | halt | nop => exact .kept (Nat.zero_le _) nofun
  | load name =>
    cases hvalue : values.get? name with
    | none =>
      rw [step_load_error hvalue]
      exact .undefined hvalue
    | some v =>
      rw [step_load_ok hvalue]
      exact .kept (Nat.zero_le _) nofun
  | store name =>
    match stack with
    | [] => exact .short Nat.one_pos
    | v :: stack => exact .stored rfl
  | pop | dup | neg | jumpIfZero | jumpIfNonzero =>
    match stack with
    | [] => exact .short Nat.one_pos
    | _ :: _ => exact .kept (Nat.le_add_left _ _) nofun
  | div =>
    match stack with
    | [] => exact .short Nat.two_pos
    | [_] => exact .short Nat.one_lt_two
    | b :: a :: stack =>
      rw [step_div]
      split
      · next hzero => exact .zero rfl hzero
      · exact .kept (Nat.le_add_left _ _) nofun
  | swap | add | sub | mul | pow | equal | notEqual | greater | less =>
    match stack with
    | [] => exact .short Nat.two_pos
    | [_] => exact .short Nat.one_lt_two
    | _ :: _ :: _ => exact .kept (Nat.le_add_left _ _) nofun

theorem step_of_lt (h : m.stack.length < ins.minStack) :
    ins.step tolerance m = .failed (.stackUnderflow ins.mnemonic) m := by
  have houtcome := step_outcome tolerance ins m
  generalize ins.step tolerance m = result at houtcome
  cases houtcome with
  | short => rfl
  | undefined => exact absurd h (Nat.not_lt_zero _)
  | zero hstack =>
    rw [hstack] at h
    exact absurd h (Nat.not_lt.mpr (Nat.le_add_left 2 _))
  | stored hstack =>
    rw [hstack] at h
    exact absurd h (Nat.not_lt.mpr (Nat.le_add_left 1 _))
  | kept hle => exact absurd h (Nat.not_lt.mpr hle)

/-- An instruction is short of operands only where it needs more than there are. -/
theorem lt_of_step {mnemonic : String} (h : ins.step tolerance m = .failed (.stackUnderflow mnemonic) m') :
    m.stack.length < ins.minStack := by
  have houtcome := step_outcome tolerance ins m
  rw [h] at houtcome
  cases houtcome with
  | short hlt => exact hlt

/-- No variable changes where an instruction fails. -/
theorem values_of_failed {fault : Fault} (h : ins.step tolerance m = .failed fault m') : m'.values = m.values := by
  have houtcome := step_outcome tolerance ins m
  rw [h] at houtcome
  cases houtcome <;> rfl

/-! ### One operand after the other -/

theorem act_load (name : String) : (load name).act tolerance m =
    match m.values.get? name with
    | some v => .ok .next (m.withStack (v :: m.stack))
    | none => .error (.undefinedVariable name) m := by
  simp only [act, bind, EStateM.bind, lookUp]
  cases m.values.get? name <;> rfl

theorem act_div {a b : Float} {stack : List Float} (hstack : m.stack = b :: a :: stack) : div.act tolerance m =
    if b == 0.0 then .error .divisionByZero (m.withStack stack) else .ok .next (m.withStack (a / b :: stack)) := by
  obtain ⟨_, values⟩ := m
  subst hstack
  show (if b == 0.0 then throw .divisionByZero else give (a / b) : EStateM Fault Memory Flow) ⟨stack, values⟩ = _
  split <;> rfl

/-- With all of its operands an instruction comes to the same if it takes them one after the other. -/
theorem step_of_le (h : ins.minStack ≤ m.stack.length) : ins.step tolerance m = .ofResult (ins.act tolerance m) := by
  obtain ⟨stack, values⟩ := m
  cases ins with
  | push | jump | halt | nop => rfl
  | load name =>
    rw [act_load]
    cases hvalue : values.get? name with
    | none => exact step_load_error hvalue tolerance
    | some v => exact step_load_ok hvalue tolerance
  | pop | dup | neg | store | jumpIfZero | jumpIfNonzero =>
    match stack, h with
    | _ :: _, _ => rfl
  | div =>
    match stack, h with
    | b :: a :: stack, _ =>
      rw [step_div, act_div rfl]
      split <;> rfl
  | swap | add | sub | mul | pow | equal | notEqual | greater | less =>
    match stack, h with
    | _ :: _ :: _, _ => rfl

/-- Without all of its operands an instruction fails on the way, unless it is kept from starting. -/
theorem act_of_lt (h : m.stack.length < ins.minStack) :
    ∃ m', ins.act tolerance m = .error (.stackUnderflow ins.mnemonic) m' := by
  obtain ⟨stack, values⟩ := m
  cases ins with
  | push | load | jump | halt | nop => exact absurd h (Nat.not_lt_zero _)
  | pop | dup | neg | store | jumpIfZero | jumpIfNonzero =>
    match stack, h with
    | [], _ => exact ⟨_, rfl⟩
  | swap | add | sub | mul | div | pow | equal | notEqual | greater | less =>
    match stack, h with
    | [], _ | [_], _ => exact ⟨_, rfl⟩

/-- An operand is missing on the way exactly where the stack is too short from the start. -/
theorem act_underflow_iff : (∃ mnemonic m', ins.act tolerance m = .error (.stackUnderflow mnemonic) m') ↔
    m.stack.length < ins.minStack := by
  refine ⟨fun ⟨mnemonic, m', hact⟩ => Nat.not_le.mp fun hle => ?_, fun h => ⟨_, act_of_lt h⟩⟩
  have hstep : ins.step tolerance m = .failed (.stackUnderflow mnemonic) m' := by
    rw [step_of_le hle, hact]
    rfl
  exact Nat.not_lt.mpr hle (lt_of_step hstep)

theorem step_eq_checked : ins.step tolerance m = .ofResult (ins.checked tolerance m) := by
  have hchecked : ins.checked tolerance m =
      if m.stack.length < ins.minStack then .error (.stackUnderflow ins.mnemonic) m else ins.act tolerance m := by
    show (if m.stack.length < ins.minStack then _ else _ : EStateM Fault Memory Flow) m = _
    split <;> rfl
  rw [hchecked]
  split
  · next h => exact step_of_lt h
  · next h => exact step_of_le (Nat.not_lt.mp h)

end Instruction
end DrillCode
