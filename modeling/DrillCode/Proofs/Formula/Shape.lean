import DrillCode.Formula.Compile
import DrillCode.Proofs.Formula.Loads
import DrillCode.Proofs.Machine.Straight

/-! # The shape of compiled code

Whatever text is compiled, a formula or not, its code is straight-line code and no longer than the text: each character
gives one lexeme at most, rearranging makes no new ones, and each lexeme gives one instruction at most. The equals sign
pays for the comparison. So a limit that is larger than the text is never met. -/

namespace DrillCode.Formula

namespace Lexeme

theorem length_ofNumber_le (text : List Char) : (ofNumber text).length ≤ 1 := by
  unfold ofNumber
  cases Reading.number? text <;> simp

theorem length_ofWord_le (text : List Char) : (ofWord text).length ≤ 1 := by
  unfold ofWord
  split
  · exact Nat.le_refl 1
  · exact Nat.zero_le 1

theorem length_ofSign_le (c : Char) : (ofSign c).length ≤ 1 := by
  unfold ofSign
  split
  · exact Nat.le_refl 1
  · split
    · exact Nat.le_refl 1
    · cases Operator.ofChar? c <;> simp

/-- A lexeme that is found in front of a text takes a character, and more of them are only passed over. -/
theorem length_append_le {found rest : List Lexeme} {c : Char} {behind text : List Char} (hfound : found.length ≤ 1)
    (hrest : rest.length ≤ behind.length) (hbehind : behind.length ≤ text.length) :
    (found ++ rest).length ≤ (c :: text).length := by
  rw [List.length_append, List.length_cons]
  omega

/-- Induction on the text that is left. -/
theorem length_lex_le (start : Bool) (text : List Char) : (lex start text).length ≤ text.length := by
  induction start, text using lex.induct with
  | case1 start =>
    rw [lex_nil]
    exact Nat.le_refl 0
  | case2 start c text hspace ih =>
    rw [lex_cons, if_pos hspace]
    exact Nat.le_succ_of_le ih
  | case3 start c text hspace hnumeric ih =>
    rw [lex_cons, if_neg hspace, if_pos hnumeric]
    exact length_append_le (length_ofNumber_le _) ih (List.dropWhile_sublist _).length_le
  | case4 start c text hspace hnumeric halpha ih =>
    rw [lex_cons, if_neg hspace, if_neg hnumeric, if_pos halpha]
    exact length_append_le (length_ofWord_le _) ih (List.dropWhile_sublist _).length_le
  | case5 start c text hspace hnumeric halpha hminus ih =>
    rw [lex_cons, if_neg hspace, if_neg hnumeric, if_neg halpha, if_pos hminus]
    exact length_append_le (length_ofNumber_le _) ih (List.dropWhile_sublist _).length_le
  | case6 start c text hspace hnumeric halpha hminus ih =>
    rw [lex_cons, if_neg hspace, if_neg hnumeric, if_neg halpha, if_neg hminus]
    exact length_append_le (length_ofSign_le c) ih (Nat.le_refl _)

/-- What waits and what is still to come comes out at most once. -/
theorem length_rearrange_le (stack lexemes : List Lexeme) :
    (rearrange stack lexemes).length ≤ stack.length + lexemes.length := by
  induction stack, lexemes using rearrange.induct with
  | case1 stack => exact Nat.le_refl _
  | case2 stack op lexemes ih =>
    have hsplit := congrArg List.length (List.takeWhile_append_dropWhile (p := goesBefore op) (l := stack))
    rw [List.length_append] at hsplit
    rw [List.length_cons] at ih
    rw [rearrange, List.length_append, List.length_cons]
    omega
  | case3 stack lexemes ih =>
    rw [List.length_cons] at ih
    rw [rearrange, List.length_cons]
    omega
  | case4 stack lexemes ih =>
    have hsplit := congrArg List.length (List.takeWhile_append_dropWhile (p := isInside) (l := stack))
    rw [List.length_append] at hsplit
    rw [List.length_tail] at ih
    rw [rearrange, List.length_append, List.length_cons]
    omega
  | case5 stack operand lexemes hop hopen hclose ih =>
    rw [rearrange, List.length_cons, List.length_cons]
    · omega
    all_goals assumption

end Lexeme

theorem length_expressionCode_le (text : List Char) : (expressionCode text).length ≤ text.length :=
  calc (expressionCode text).length
    _ ≤ (Lexeme.toPostfix (Lexeme.ofText text)).length := List.length_filterMap_le _ _
    _ ≤ (Lexeme.ofText text).length := by
      have hle := Lexeme.length_rearrange_le [] (Lexeme.ofText text)
      rwa [List.length_nil, Nat.zero_add] at hle
    _ ≤ text.length := Lexeme.length_lex_le true text

theorem of_mem_expressionCode {text : List Char} {ins : Instruction} (h : ins ∈ expressionCode text) :
    ins.isOperand = true ∨ ins.isArithmetic = true := by
  obtain ⟨x, -, hins⟩ := List.mem_filterMap.mp h
  cases x with
  | number value =>
    cases hins
    exact .inl rfl
  | name name =>
    cases hins
    exact .inl rfl
  | operator op =>
    cases hins
    cases op <;> exact .inr rfl
  | openParen => cases hins
  | closeParen => cases hins

/-- The code of the sides of a formula, one behind the other. -/
def sidesCode (source : String) : List Instruction := (source.toList.splitOn '=').flatMap expressionCode

theorem length_flatMap_expressionCode_le (sides : List (List Char)) :
    (sides.flatMap expressionCode).length ≤ sides.flatten.length := by
  induction sides with
  | nil => exact Nat.le_refl 0
  | cons side sides ih =>
    rw [List.flatMap_cons, List.flatten_cons, List.length_append, List.length_append]
    exact Nat.add_le_add (length_expressionCode_le side) ih

/-- The equals signs are left over. -/
theorem length_sidesCode_le (source : String) :
    (sidesCode source).length + source.toList.count '=' ≤ source.length :=
  calc (sidesCode source).length + source.toList.count '='
    _ ≤ (source.toList.splitOn '=').flatten.length + source.toList.count '=' :=
      Nat.add_le_add_right (length_flatMap_expressionCode_le _) _
    _ = source.length := by rw [Text.length_flatten_splitOn, String.length_toList]

theorem of_mem_sidesCode {source : String} {ins : Instruction} (h : ins ∈ sidesCode source) :
    ins.isOperand = true ∨ ins.isArithmetic = true := by
  obtain ⟨side, -, hins⟩ := List.mem_flatMap.mp h
  exact of_mem_expressionCode hins

/-- A text is refused for two equals signs, and otherwise its sides are followed by a comparison for each of them. -/
theorem compile_cases (source : String) :
    2 ≤ source.toList.count '=' ∧ compile source = .error (.malformedEquation source) ∨
      source.toList.count '=' < 2 ∧ ∃ p, compile source = .ok p ∧
        p.code = (sidesCode source ++ List.replicate (source.toList.count '=') .equal) ++ [.halt] := by
  have hcount := Text.length_splitOn '=' source.toList
  rw [compile, sidesCode]
  generalize source.toList.splitOn '=' = sides at hcount ⊢
  generalize source.toList.count '=' = equations at hcount ⊢
  rcases sides with _ | ⟨left, _ | ⟨right, _ | ⟨third, rest⟩⟩⟩
  · cases hcount
  · cases hcount
    refine .inr ⟨by decide, _, rfl, ?_⟩
    rw [List.flatMap_singleton, List.replicate_zero, List.append_nil]
  · cases hcount
    refine .inr ⟨Nat.one_lt_two, _, rfl, ?_⟩
    rw [List.flatMap_cons, List.flatMap_singleton]
    exact (List.append_assoc _ [Instruction.equal] [Instruction.halt]).symm
  · rw [List.length_cons, List.length_cons, List.length_cons] at hcount
    exact .inl ⟨by omega, rfl⟩

section
variable {body : List Instruction} {equations : Nat}
  (h : ∀ ins ∈ body, ins.isOperand = true ∨ ins.isArithmetic = true)
include h

theorem straight_of_mem {ins : Instruction} (hins : ins ∈ body ++ List.replicate equations Instruction.equal) :
    ins.IsStraight := by
  rcases List.mem_append.mp hins with hins | hins
  · exact Instruction.isStraight_of_isArithmetic (h ins hins)
  · rw [List.eq_of_mem_replicate hins]
    exact .inr rfl

/-- Arithmetic joins numbers, and so does each comparison. -/
theorem countP_joins : (body ++ List.replicate equations Instruction.equal).countP Instruction.joins =
    ((body ++ List.replicate equations Instruction.equal) ++ [Instruction.halt]).countP Instruction.isArithmetic +
      equations := by
  have hbody : body.countP Instruction.joins = body.countP Instruction.isArithmetic :=
    List.countP_congr fun ins hins => by rw [Instruction.joins_eq_isArithmetic (h ins hins)]
  simp [hbody, List.countP_replicate, Instruction.joins, Instruction.isArithmetic]

theorem execute_of_code {settings : MachineSettings} {p : Program}
    (hcode : p.code = (body ++ List.replicate equations .equal) ++ [.halt])
    (hlimit : p.code.length ≤ settings.stepLimit) (bindings : Bindings) :
    (∀ limit, (p.execute settings bindings).result ≠ .error (.runaway limit)) ∧
      ((p.execute settings bindings).isSuccess = true →
        (p.execute settings bindings).steps = p.code.length ∧
        (p.execute settings bindings).stack.length + p.code.countP Instruction.isArithmetic + equations =
          p.code.countP Instruction.isOperand) := by
  obtain ⟨hlimited, hsucceeds⟩ := Program.execute_straight hcode (fun ins => straight_of_mem h) hlimit bindings
  refine ⟨hlimited, fun hsuccess => ?_⟩
  obtain ⟨hsteps, hstack⟩ := hsucceeds hsuccess
  rw [countP_joins h, ← hcode, ← Nat.add_assoc] at hstack
  have hoperands : p.code.countP Instruction.isOperand =
      (body ++ List.replicate equations Instruction.equal).countP Instruction.isOperand := by
    rw [hcode, List.countP_append]
    rfl
  exact ⟨hsteps, hstack.trans hoperands.symm⟩

end

/-- A text of two equals signs or more is refused as a whole, and any other one is compiled: to operands and arithmetic,
    a comparison if there is an equals sign, and a halt, one instruction more than the text has characters at most. Run
    under a limit that allows as many, the code is never cut short; a run that succeeds executes each instruction once
    and leaves the numbers that were put on the stack, less one for each that was joined to another. -/
theorem compile_bounded (source : String) :
    (∀ e, compile source = .error e ↔ 2 ≤ source.toList.count '=' ∧ e = .malformedEquation source) ∧
    ∀ p, compile source = .ok p →
      p.code.length ≤ source.length + 1 ∧
      (∃ body, p.code = (body ++ List.replicate (source.toList.count '=') .equal) ++ [.halt] ∧
        ∀ ins ∈ body, ins.isOperand = true ∨ ins.isArithmetic = true) ∧
      ∀ settings bindings, source.length + 1 ≤ settings.stepLimit →
        (∀ limit, (p.execute settings bindings).result ≠ .error (.runaway limit)) ∧
        ((p.execute settings bindings).isSuccess = true →
          (p.execute settings bindings).steps = p.code.length ∧
          (p.execute settings bindings).stack.length + p.code.countP Instruction.isArithmetic +
            source.toList.count '=' = p.code.countP Instruction.isOperand) := by
  have hlength := length_sidesCode_le source
  have hbody : ∀ ins ∈ sidesCode source, _ := fun ins => of_mem_sidesCode
  rcases compile_cases source with ⟨hmany, herror⟩ | ⟨hfew, program, hok, hcode⟩
  · refine ⟨fun e => ⟨fun h => ⟨hmany, ?_⟩, fun ⟨_, he⟩ => he ▸ herror⟩, fun p h => ?_⟩
    · exact (Except.error.inj (herror.symm.trans h)).symm
    · rw [herror] at h
      cases h
  · refine ⟨fun e => ⟨fun h => ?_, fun ⟨hmany, _⟩ => ?_⟩, fun p h => ?_⟩
    · rw [hok] at h
      cases h
    · omega
    · obtain rfl := Except.ok.inj (hok.symm.trans h)
      have hcodeLength : program.code.length = (sidesCode source).length + source.toList.count '=' + 1 := by
        rw [hcode, List.length_append, List.length_append, List.length_replicate]
        rfl
      exact ⟨by omega, ⟨sidesCode source, hcode, hbody⟩, fun settings bindings hlimit =>
        execute_of_code hbody hcode (by omega) bindings⟩

/-- A text that is no formula, with an operand behind another and parentheses that match nothing. -/
theorem compile_bounded_sample :
    ∃ p, compile "2 ) 3 = ( 4" = .ok p ∧ p.code.length ≤ 12 ∧ (p.execute ⟨12, 0.0001⟩ .empty).isSuccess = true ∧
      (p.execute ⟨12, 0.0001⟩ .empty).steps = 5 ∧ (p.execute ⟨12, 0.0001⟩ .empty).stack.length + 0 + 1 = 3 := by
  have hcompile : compile "2 ) 3 = ( 4" = .ok ⟨[.push 2, .push 3, .push 4, .equal, .halt], true, "2 ) 3 = ( 4"⟩ := by
    decide +kernel
  obtain ⟨hlength, -, hrun⟩ := (compile_bounded "2 ) 3 = ( 4").2 _ hcompile
  have hsuccess : ((Program.mk [.push 2, .push 3, .push 4, .equal, .halt] true "2 ) 3 = ( 4").execute ⟨12, 0.0001⟩
      .empty).isSuccess = true := by decide +kernel
  obtain ⟨hsteps, hstack⟩ := (hrun ⟨12, 0.0001⟩ .empty (by decide)).2 hsuccess
  exact ⟨_, hcompile, hlength, hsuccess, hsteps, hstack⟩

end DrillCode.Formula
