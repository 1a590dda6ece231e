import DrillCode.Proofs.Formula.Shape
import DrillCode.Proofs.Machine.Frame

/-! # The two sides of an equation

The sides of an equation are compiled apart and executed on one stack. A side is self-contained if each of its operators
finds two operands of the side itself and one number is left. Where both sides are, the equation compares what the two
texts come to alone. Where one is not, it may still be executed: a side can leave operands for the other one, or more
than there is to compare. -/

namespace DrillCode

/-- The program is executed and leaves just one number. -/
def Program.Leaves (settings : MachineSettings) (bindings : Bindings) (p : Program) (value : Float) : Prop :=
  (p.execute settings bindings).result = .ok (.expression value) ∧ (p.execute settings bindings).stack = [value]

instance (settings : MachineSettings) (bindings : Bindings) (p : Program) (value : Float) :
    Decidable (p.Leaves settings bindings value) := inferInstanceAs (Decidable (_ ∧ _))

namespace Formula

/-- Each operator of the side has two operands in the side, and one number is left. -/
def SelfContained (side : List Char) : Prop := heightAfter 0 (expressionCode side) = some 1

instance (side : List Char) : Decidable (SelfContained side) := inferInstanceAs (Decidable (_ = _))

theorem isStraight_of_mem {text : List Char} : ∀ ins ∈ expressionCode text, ins.IsStraight :=
  fun _ hins => Instruction.isStraight_of_isArithmetic (of_mem_expressionCode hins)

/-- The program of a text without an equals sign. -/
def expression (text : List Char) : Program := ⟨expressionCode text ++ [.halt], false, String.ofList text⟩

theorem compile_expression {text : List Char} (h : '=' ∉ text) :
    compile (String.ofList text) = .ok (expression text) := by
  rw [compile, String.toList_ofList, List.splitOn_eq_singleton h]
  rfl

/-- The program of a text with one equals sign between two sides. -/
def equation (source : String) (left right : List Char) : Program :=
  ⟨expressionCode left ++ expressionCode right ++ [.equal, .halt], true, source⟩

theorem compile_equation {source : String} {left right : List Char} (hsource : source.toList = left ++ '=' :: right)
    (hleft : '=' ∉ left) (hright : '=' ∉ right) : compile source = .ok (equation source left right) := by
  rw [compile, hsource, List.splitOn_append_cons_self_of_not_mem hleft, List.splitOn_eq_singleton hright]
  rfl

variable {settings : MachineSettings} {bindings : Bindings} {text : List Char}

theorem length_expression_le (text : List Char) : (expression text).code.length ≤ text.length + 1 := by
  have hlength := length_expressionCode_le text
  rw [expression, List.length_append, List.length_singleton]
  exact Nat.succ_le_succ hlength

/-- A text leaves just one number if its code passes and leaves it. -/
theorem leaves_iff {value : Float} (hlimit : text.length < settings.stepLimit) :
    (expression text).Leaves settings bindings value ↔
      Passes settings.tolerance (expressionCode text) ⟨[], bindings⟩ ⟨[value], bindings⟩ := by
  have hcode := Nat.le_trans (length_expression_le text) hlimit
  constructor
  · rintro ⟨hresult, hstack⟩
    have hsuccess : ((expression text).execute settings bindings).isSuccess = true := by
      rw [Execution.isSuccess, hresult]
    obtain ⟨⟨stack, values⟩, hpasses⟩ := Program.exists_passes_of_isSuccess rfl isStraight_of_mem hsuccess
    rw [Program.execute_passes rfl hcode hpasses] at hstack
    obtain rfl : values = bindings := hpasses.values isStraight_of_mem
    obtain rfl : stack = [value] := List.reverse_eq_iff.mp hstack
    exact hpasses
  · intro hpasses
    rw [Program.Leaves, Program.execute_passes rfl hcode hpasses]
    exact ⟨rfl, rfl⟩

section Alone
variable {below : List Float} {m : Memory}

theorem isSuccess_of_passes (hlimit : text.length < settings.stepLimit)
    (hpasses : Passes settings.tolerance (expressionCode text) ⟨[], bindings⟩ m) :
    ((expression text).execute settings bindings).isSuccess = true := by
  rw [Program.execute_passes rfl (Nat.le_trans (length_expression_le text) hlimit) hpasses]
  rfl

/-- A text whose code passes on some stack is executed alone if it needs nothing of that stack. -/
theorem isSuccess_iff (hlimit : text.length < settings.stepLimit)
    (hpasses : Passes settings.tolerance (expressionCode text) ⟨below, bindings⟩ m) :
    ((expression text).execute settings bindings).isSuccess = true ↔
      (heightAfter 0 (expressionCode text)).isSome = true := by
  constructor
  · intro hsuccess
    obtain ⟨last, halone⟩ := Program.exists_passes_of_isSuccess rfl isStraight_of_mem hsuccess
    exact Option.isSome_of_eq_some (halone.heightAfter_eq isStraight_of_mem)
  · intro hsome
    obtain ⟨height, hheight⟩ := Option.isSome_iff_exists.mp hsome
    obtain ⟨last, -, halone⟩ := hpasses.exists_onto (m := ⟨[], bindings⟩) isStraight_of_mem hheight
    exact isSuccess_of_passes hlimit halone

/-- A text whose code passes on some stack leaves just one number alone if it is self-contained. -/
theorem exists_leaves_iff (hlimit : text.length < settings.stepLimit)
    (hpasses : Passes settings.tolerance (expressionCode text) ⟨below, bindings⟩ m) :
    (∃ value, (expression text).Leaves settings bindings value) ↔ SelfContained text := by
  constructor
  · rintro ⟨value, hleaves⟩
    exact ((leaves_iff hlimit).mp hleaves).heightAfter_eq isStraight_of_mem
  · intro hheight
    obtain ⟨⟨stack, values⟩, -, halone⟩ := hpasses.exists_onto (m := ⟨[], bindings⟩) isStraight_of_mem hheight
    obtain rfl : values = bindings := halone.values isStraight_of_mem
    have hlength := Option.some_inj.mp (hheight.symm.trans (halone.heightAfter_eq isStraight_of_mem))
    obtain ⟨value, rfl⟩ := List.length_eq_one_iff.mp hlength.symm
    exact ⟨value, (leaves_iff hlimit).mpr halone⟩

end Alone

section Together
variable {source : String} {left right : List Char}

theorem code_equation : (equation source left right).code =
    (expressionCode left ++ expressionCode right ++ [.equal]) ++ [.halt] :=
  (List.append_assoc _ [Instruction.equal] [Instruction.halt]).symm

theorem length_equation_le : (equation source left right).code.length ≤ left.length + right.length + 2 := by
  have hleft := length_expressionCode_le left
  have hright := length_expressionCode_le right
  rw [equation, List.length_append, List.length_append]
  exact Nat.add_le_add_right (Nat.add_le_add hleft hright) 2

/-- The right side is executed on what the left side leaves. -/
theorem exists_passes_sides (hsuccess : ((equation source left right).execute settings bindings).isSuccess = true) :
    ∃ stack m, Passes settings.tolerance (expressionCode left) ⟨[], bindings⟩ ⟨stack, bindings⟩ ∧
      Passes settings.tolerance (expressionCode right) ⟨stack, bindings⟩ m := by
  have hsides : ∀ ins ∈ expressionCode left ++ expressionCode right, ins.isOperand = true ∨ ins.isArithmetic = true :=
    fun ins hins => (List.mem_append.mp hins).elim of_mem_expressionCode of_mem_expressionCode
  have hpart : ∀ ins ∈ expressionCode left ++ expressionCode right ++ [.equal], ins.IsStraight :=
    fun ins hins => @straight_of_mem _ 1 hsides ins hins
  obtain ⟨last, hpasses⟩ := Program.exists_passes_of_isSuccess code_equation hpart hsuccess
  obtain ⟨m, hboth, -⟩ := Passes.append_iff.mp hpasses
  obtain ⟨⟨stack, values⟩, hpassesLeft, hpassesRight⟩ := Passes.append_iff.mp hboth
  obtain rfl : values = bindings := hpassesLeft.values isStraight_of_mem
  exact ⟨stack, m, hpassesLeft, hpassesRight⟩

/-- Sides that leave just one number each are compared. -/
theorem execute_of_leaves (hlimit : left.length + right.length + 1 < settings.stepLimit) {a b : Float}
    (hleft : (expression left).Leaves settings bindings a) (hright : (expression right).Leaves settings bindings b) :
    ((equation source left right).execute settings bindings).result =
      .ok (.equation ((a - b).abs < settings.tolerance)) := by
  have hpassesLeft := (leaves_iff (by omega)).mp hleft
  have hpassesRight := ((leaves_iff (by omega)).mp hright).onto [a]
  have hcompare : Passes settings.tolerance [.equal] (Memory.onto ⟨[b], bindings⟩ [a])
      ⟨[Instruction.truth ((a - b).abs < settings.tolerance)], bindings⟩ := .cons rfl (.nil _)
  have hpasses := Passes.append_iff.mpr ⟨_, Passes.append_iff.mpr ⟨_, hpassesLeft, hpassesRight⟩, hcompare⟩
  rw [Program.execute_passes code_equation (Nat.le_trans length_equation_le hlimit) hpasses]
  exact congrArg (fun isEqual => Except.ok (Evaluation.equation isEqual)) (Instruction.truth_beq_one _)

/-- Where an equation between any two texts is executed, the left one is executed alone too, the right one if it needs
    nothing of what the left one leaves, and each of them leaves just one number alone if it is self-contained. Where
    both do, the equation is executed and compares the two numbers. -/
theorem execute_equation (hsource : source.toList = left ++ '=' :: right) (hleft : '=' ∉ left) (hright : '=' ∉ right)
    (hlimit : source.length < settings.stepLimit) :
    ∃ p l r, compile source = .ok p ∧ compile (String.ofList left) = .ok l ∧ compile (String.ofList right) = .ok r ∧
      ((p.execute settings bindings).isSuccess = true →
        (l.execute settings bindings).isSuccess = true ∧
        ((r.execute settings bindings).isSuccess = true ↔ (heightAfter 0 (expressionCode right)).isSome = true) ∧
        ((∃ a, l.Leaves settings bindings a) ↔ SelfContained left) ∧
        ((∃ b, r.Leaves settings bindings b) ↔ SelfContained right)) ∧
      ∀ a b, l.Leaves settings bindings a → r.Leaves settings bindings b →
        (p.execute settings bindings).result = .ok (.equation ((a - b).abs < settings.tolerance)) := by
  have hlength : left.length + right.length + 1 < settings.stepLimit := by
    rw [← String.length_toList, hsource, List.length_append, List.length_cons, ← Nat.add_assoc] at hlimit
    exact hlimit
  have hlimitLeft : left.length < settings.stepLimit := by omega
  have hlimitRight : right.length < settings.stepLimit := by omega
  refine ⟨_, _, _, compile_equation hsource hleft hright, compile_expression hleft, compile_expression hright,
    fun hsuccess => ?_, fun a b => execute_of_leaves hlength⟩
  obtain ⟨stack, m, hpassesLeft, hpassesRight⟩ := exists_passes_sides hsuccess
  exact ⟨isSuccess_of_passes hlimitLeft hpassesLeft, isSuccess_iff hlimitRight hpassesRight,
    exists_leaves_iff hlimitLeft hpassesLeft, exists_leaves_iff hlimitRight hpassesRight⟩

end Together

/-- Each side of an equation with a sum comes to a number of its own, and the equation compares the two. -/
theorem execute_equation_sumSample :
    "x+1 = 3".toList = "x+1 ".toList ++ '=' :: " 3".toList ∧ '=' ∉ "x+1 ".toList ∧ '=' ∉ " 3".toList ∧
      "x+1 = 3".length < MachineSettings.standard.stepLimit ∧
      (expression "x+1 ".toList).Leaves .standard (.ofList [("x", 2)]) 3 ∧
      (expression " 3".toList).Leaves .standard (.ofList [("x", 2)]) 3 ∧
      ∃ p, compile "x+1 = 3" = .ok p ∧
        (p.execute .standard (.ofList [("x", 2)])).result = .ok (.equation true) := by
  have hsource : "x+1 = 3".toList = "x+1 ".toList ++ '=' :: " 3".toList := by decide
  have hleft : '=' ∉ "x+1 ".toList := by decide
  have hright : '=' ∉ " 3".toList := by decide
  have hlimit : "x+1 = 3".length < MachineSettings.standard.stepLimit := by decide
  have hleavesLeft : (expression "x+1 ".toList).Leaves .standard (.ofList [("x", 2)]) 3 := by decide +kernel
  have hleavesRight : (expression " 3".toList).Leaves .standard (.ofList [("x", 2)]) 3 := by decide +kernel
  obtain ⟨p, l, r, hp, hl, hr, -, hequation⟩ := execute_equation hsource hleft hright hlimit
  obtain rfl := Except.ok.inj ((compile_expression hleft).symm.trans hl)
  obtain rfl := Except.ok.inj ((compile_expression hright).symm.trans hr)
  exact ⟨hsource, hleft, hright, hlimit, hleavesLeft, hleavesRight, p, hp, hequation 3 3 hleavesLeft hleavesRight⟩

/-- The right side has no operands of its own and adds two of the three numbers that the left side leaves. -/
theorem exists_side_borrows :
    ∃ p l r, compile "1 2 3 = +" = .ok p ∧ compile "1 2 3 " = .ok l ∧ compile " +" = .ok r ∧
      (p.execute .standard .empty).result = .ok (.equation false) ∧
      (l.execute .standard .empty).stack = [1, 2, 3] ∧
      (r.execute .standard .empty).result = .error (.stackUnderflow "ADD") := by
  refine ⟨_, _, _, rfl, rfl, rfl, ?_⟩
  decide +kernel

end Formula
end DrillCode
