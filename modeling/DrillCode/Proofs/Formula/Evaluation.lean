import DrillCode.Proofs.Formula.Grammar
import DrillCode.Proofs.Machine.Run

/-! # Code computes the value of its tree

Wherever the code of a tree stands in a program, it leaves the stack as it was with the value of the tree on
top, or it ends the run with the first fault from the left. A formula's code so gives what the formula comes
to. -/

namespace DrillCode.Formula
variable {settings : MachineSettings} {code more : List Instruction} {bindings : Bindings} {stack : List Float}

/-! ### Steps that may fail -/

theorem ok_of_bind {ε α β : Type} {x : Except ε α} {f : α → Except ε β} {b : β} (h : x >>= f = .ok b) :
    ∃ a, x = .ok a ∧ f a = .ok b := by
  cases x with
  | ok a => exact ⟨a, rfl, h⟩
  | error e => cases h

theorem error_of_bind {ε α β : Type} {x : Except ε α} {f : α → Except ε β} {e : ε} (h : x >>= f = .error e) :
    x = .error e ∨ ∃ a, x = .ok a ∧ f a = .error e := by
  cases x with
  | ok a => exact .inr ⟨a, rfl, h⟩
  | error e' =>
    cases h
    exact .inl rfl

/-! ### Operators -/

theorem Operator.step_ok {op : Operator} {a b value : Float} (h : op.apply a b = .ok value) (tolerance : Float) :
    op.instruction.step tolerance ⟨b :: a :: stack, bindings⟩ = .done .next ⟨value :: stack, bindings⟩ := by
  cases op with
  | div =>
    rw [apply] at h
    split at h <;> rename_i hzero
    · cases h
    · cases h
      exact if_neg hzero
  | _ =>
    cases h
    rfl

theorem Operator.step_error {op : Operator} {a b : Float} {fault : Fault} (h : op.apply a b = .error fault)
    (tolerance : Float) :
    op.instruction.step tolerance ⟨b :: a :: stack, bindings⟩ = .failed fault ⟨stack, bindings⟩ := by
  cases op with
  | div =>
    rw [apply] at h
    split at h <;> rename_i hzero
    · cases h
      exact if_pos hzero
    · cases h
  | _ => cases h

namespace Tree

theorem eval_name_ok {n : Name} {value : Float} (h : (name n).eval bindings = .ok value) :
    bindings.get? (String.ofList n.text) = some value := by
  rw [eval] at h
  split at h <;> rename_i hget <;> cases h
  exact hget

theorem eval_name_error {n : Name} {fault : Fault} (h : (name n).eval bindings = .error fault) :
    bindings.get? (String.ofList n.text) = none ∧ fault = .undefinedVariable (String.ofList n.text) := by
  rw [eval] at h
  split at h <;> rename_i hget <;> cases h
  exact ⟨hget, rfl⟩

theorem eval_binary_ok {op : Operator} {left right : Tree} {value : Float}
    (h : (binary op left right).eval bindings = .ok value) :
    ∃ a b, left.eval bindings = .ok a ∧ right.eval bindings = .ok b ∧ op.apply a b = .ok value := by
  obtain ⟨a, hleft, h⟩ := ok_of_bind h
  obtain ⟨b, hright, h⟩ := ok_of_bind h
  exact ⟨a, b, hleft, hright, h⟩

/-- The first fault is that of the left operand, of the right one, or of the operator. -/
theorem eval_binary_error {op : Operator} {left right : Tree} {fault : Fault}
    (h : (binary op left right).eval bindings = .error fault) :
    left.eval bindings = .error fault ∨
      ∃ a, left.eval bindings = .ok a ∧ (right.eval bindings = .error fault ∨
        ∃ b, right.eval bindings = .ok b ∧ op.apply a b = .error fault) := by
  rcases error_of_bind h with hleft | ⟨a, hleft, h⟩
  · exact .inl hleft
  · exact .inr ⟨a, hleft, error_of_bind h⟩

/-! ### Runs of a tree's code -/

theorem length_code_binary (op : Operator) (left right : Tree) :
    (binary op left right).code.length = left.code.length + right.code.length + 1 := by
  rw [code, List.length_append, List.length_append]
  rfl

/-- What a limit allows for the code of an operator and its operands, in the order in which it is used up. -/
theorem limit_binary (op : Operator) (left right : Tree) (n : Nat) :
    n + (binary op left right).code.length = n + 1 + right.code.length + left.code.length := by
  rw [length_code_binary]
  omega

/-- The codes of two operands and of what joins them, and what stands behind each. -/
theorem drop_operands {left right : Tree} {counter : Nat}
    (h : code.drop counter = left.code ++ right.code ++ more) :
    code.drop counter = left.code ++ (right.code ++ more) ∧
      code.drop (counter + left.code.length) = right.code ++ more ∧
      code.drop (counter + left.code.length + right.code.length) = more := by
  rw [List.append_assoc] at h
  have hright := Program.drop_add_of_drop h
  exact ⟨h, hright, Program.drop_add_of_drop hright⟩

theorem runFrom_ok : ∀ {tree : Tree} {value : Float}, tree.eval bindings = .ok value →
    ∀ {counter : Nat} {more : List Instruction} {stack : List Float} (left steps : Nat),
      code.drop counter = tree.code ++ more →
      Program.runFrom settings code (left + tree.code.length) steps counter ⟨stack, bindings⟩ =
        Program.runFrom settings code left (steps + tree.code.length) (counter + tree.code.length)
          ⟨value :: stack, bindings⟩
  | number l, value, h, counter, more, stack, left, steps, hcode => by
    cases h
    exact Program.runFrom_next hcode rfl
  | name n, value, h, counter, more, stack, left, steps, hcode => by
    exact Program.runFrom_next hcode (Instruction.step_load_ok (eval_name_ok h) settings.tolerance)
  | binary op l r, value, h, counter, more, stack, left, steps, hcode => by
    obtain ⟨a, b, hl, hr, hop⟩ := eval_binary_ok h
    rw [Tree.code, List.append_assoc (l.code ++ r.code)] at hcode
    obtain ⟨hcodel, hcoder, hcodeop⟩ := drop_operands hcode
    rw [limit_binary, runFrom_ok hl _ steps hcodel, runFrom_ok hr _ _ hcoder,
      Program.runFrom_next hcodeop (Operator.step_ok hop settings.tolerance), length_code_binary]
    simp only [Nat.add_assoc]

theorem runFrom_error : ∀ {tree : Tree} {fault : Fault}, tree.eval bindings = .error fault →
    ∀ {counter : Nat} {more : List Instruction} {stack : List Float} (left steps : Nat),
      code.drop counter = tree.code ++ more →
      (Program.runFrom settings code (left + tree.code.length) steps counter ⟨stack, bindings⟩).fault = some fault
  | number l, fault, h, counter, more, stack, left, steps, hcode => by cases h
  | name n, fault, h, counter, more, stack, left, steps, hcode => by
    obtain ⟨hget, rfl⟩ := eval_name_error h
    rw [Program.runFrom_failed hcode (Instruction.step_load_error hget settings.tolerance)]
  | binary op l r, fault, h, counter, more, stack, left, steps, hcode => by
    rw [Tree.code, List.append_assoc (l.code ++ r.code)] at hcode
    obtain ⟨hcodel, hcoder, hcodeop⟩ := drop_operands hcode
    rw [limit_binary]
    rcases eval_binary_error h with hl | ⟨a, hl, hr | ⟨b, hr, hop⟩⟩
    · exact runFrom_error hl _ steps hcodel
    · rw [runFrom_ok hl _ steps hcodel]
      exact runFrom_error hr _ _ hcoder
    · rw [runFrom_ok hl _ steps hcodel, runFrom_ok hr _ _ hcoder,
        Program.runFrom_failed hcodeop (Operator.step_error hop settings.tolerance)]

end Tree

/-! ### Runs of a formula's code -/

namespace Sentence

theorem length_code_expression (tree : Tree) : (expression tree).code.length = tree.code.length + 1 :=
  List.length_append

theorem length_code_equation (left right : Tree) :
    (equation left right).code.length = left.code.length + right.code.length + 2 := by
  rw [code, List.length_append, List.length_append]
  rfl

theorem run_ok {s : Sentence} {value : Evaluation} (h : s.eval settings.tolerance bindings = .ok value)
    (hlimit : s.code.length ≤ settings.stepLimit) (source : String) :
    Program.run settings ⟨s.code, s.isEquation, source⟩ bindings =
      ⟨none, s.code.length, ⟨[value.number], bindings⟩⟩ := by
  cases s with
  | expression tree =>
    obtain ⟨v, htree, hv⟩ := ok_of_bind h
    cases hv
    have hlen := length_code_expression tree
    obtain ⟨left, hleft⟩ := Nat.exists_eq_add_of_le hlimit
    have hsteps : settings.stepLimit = left + 1 + tree.code.length := by omega
    have hhalt : (expression tree).code.drop (0 + tree.code.length) = [.halt] := by
      rw [Nat.zero_add]
      exact List.drop_left
    show Program.runFrom settings (expression tree).code settings.stepLimit 0 0 ⟨[], bindings⟩ = _
    rw [hsteps, Tree.runFrom_ok htree _ 0 rfl, Program.runFrom_halt hhalt, hlen, Nat.zero_add]
    rfl
  | equation l r =>
    obtain ⟨a, hl, h⟩ := ok_of_bind h
    obtain ⟨b, hr, hv⟩ := ok_of_bind h
    cases hv
    have hcode : (equation l r).code.drop 0 = l.code ++ r.code ++ [.equal, .halt] := rfl
    obtain ⟨hcodel, hcoder, hequal⟩ := Tree.drop_operands hcode
    have hlen := length_code_equation l r
    obtain ⟨left, hleft⟩ := Nat.exists_eq_add_of_le hlimit
    have hsteps : settings.stepLimit = left + 1 + 1 + r.code.length + l.code.length := by omega
    have hhalt : (equation l r).code.drop (0 + l.code.length + r.code.length + 1) = [.halt] :=
      @Program.drop_add_of_drop _ _ _ [.equal] hequal
    show Program.runFrom settings (equation l r).code settings.stepLimit 0 0 ⟨[], bindings⟩ = _
    rw [hsteps, Tree.runFrom_ok hl _ 0 hcodel, Tree.runFrom_ok hr _ _ hcoder, Program.runFrom_next hequal rfl,
      Program.runFrom_halt hhalt, hlen, Nat.zero_add]
    rfl

theorem run_error {s : Sentence} {fault : Fault} (h : s.eval settings.tolerance bindings = .error fault)
    (hlimit : s.code.length ≤ settings.stepLimit) (source : String) :
    (Program.run settings ⟨s.code, s.isEquation, source⟩ bindings).fault = some fault := by
  obtain ⟨left, hleft⟩ := Nat.exists_eq_add_of_le hlimit
  cases s with
  | expression tree =>
    have hlen := length_code_expression tree
    have hsteps : settings.stepLimit = left + 1 + tree.code.length := by omega
    have hcode : (expression tree).code.drop 0 = tree.code ++ [.halt] := rfl
    show (Program.runFrom settings (expression tree).code settings.stepLimit 0 0 ⟨[], bindings⟩).fault = _
    rw [hsteps]
    rcases error_of_bind h with htree | ⟨v, -, hv⟩
    · exact Tree.runFrom_error htree _ 0 hcode
    · cases hv
  | equation l r =>
    have hcode : (equation l r).code.drop 0 = l.code ++ r.code ++ [.equal, .halt] := rfl
    obtain ⟨hcodel, hcoder, -⟩ := Tree.drop_operands hcode
    have hlen := length_code_equation l r
    have hsteps : settings.stepLimit = left + 2 + r.code.length + l.code.length := by omega
    show (Program.runFrom settings (equation l r).code settings.stepLimit 0 0 ⟨[], bindings⟩).fault = _
    rw [hsteps]
    rcases error_of_bind h with hl | ⟨a, hl, h⟩
    · exact Tree.runFrom_error hl _ 0 hcodel
    · rw [Tree.runFrom_ok hl _ 0 hcodel]
      rcases error_of_bind h with hr | ⟨b, -, hv⟩
      · exact Tree.runFrom_error hr _ _ hcoder
      · cases hv

theorem evaluation_number {s : Sentence} {tolerance : Float} {value : Evaluation}
    (h : s.eval tolerance bindings = .ok value) (source : String) :
    Program.evaluation ⟨s.code, s.isEquation, source⟩ [value.number] = value := by
  cases s with
  | expression tree =>
    obtain ⟨v, -, hv⟩ := ok_of_bind h
    cases hv
    rfl
  | equation l r =>
    obtain ⟨a, -, h⟩ := ok_of_bind h
    obtain ⟨b, -, hv⟩ := ok_of_bind h
    cases hv
    exact congrArg Evaluation.equation (Instruction.truth_beq_one _)

/-- A formula comes to what the execution of its code gives. If that succeeds, it executes each instruction once
    and leaves one number. -/
theorem execute_code (s : Sentence) (source : String) (hlimit : s.code.length ≤ settings.stepLimit) :
    (Program.execute settings ⟨s.code, s.isEquation, source⟩ bindings).result = s.eval settings.tolerance bindings ∧
      ∀ value, s.eval settings.tolerance bindings = .ok value →
        (Program.execute settings ⟨s.code, s.isEquation, source⟩ bindings).stack = [value.number] ∧
          (Program.execute settings ⟨s.code, s.isEquation, source⟩ bindings).steps = s.code.length := by
  cases h : s.eval settings.tolerance bindings with
  | error fault => exact ⟨Program.execute_of_fault (run_error h hlimit source), nofun⟩
  | ok value =>
    rw [Program.execute_of_ok (run_ok h hlimit source)]
    refine ⟨congrArg Except.ok (evaluation_number h source), fun value' hvalue => ?_⟩
    cases hvalue
    exact ⟨rfl, rfl⟩

end Sentence
end DrillCode.Formula
