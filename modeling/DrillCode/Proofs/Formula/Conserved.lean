import DrillCode.Formula.Compile
import Mathlib.Data.List.Perm.Basic
import Mathlib.Data.List.Count

/-! # Rearranging loses nothing

Whatever the lexemes are, a formula or not, the operands come out in their order and each operator as often as
it went in. Closing parentheses never come out, and opening ones only if they are never closed. So there is one
instruction for each operand and each operator. -/

namespace DrillCode.Formula.Lexeme
variable {stack lexemes : List Lexeme}

/-- The lexeme is a number or a name. -/
def isOperand : Lexeme → Bool
  | number _ | name _ => true
  | _ => false

def isOperator : Lexeme → Bool
  | operator _ => true
  | _ => false

/-- The places of the opening parentheses that are never closed, the last one first. A closing parenthesis closes
    the nearest one that is still open, if there is one; those at the places `opened` are open in front of the
    lexemes, the first of which stands at `place`. -/
def unclosed (opened : List Nat) (place : Nat) : (lexemes : List Lexeme) → List Nat
  | [] => opened
  | openParen :: lexemes => unclosed (place :: opened) (place + 1) lexemes
  | closeParen :: lexemes => unclosed opened.tail (place + 1) lexemes
  | _ :: lexemes => unclosed opened (place + 1) lexemes

/-! ### The stack -/

/-- Operators and opening parentheses wait, and nothing else does. -/
def Waits (stack : List Lexeme) : Prop := ∀ x ∈ stack, x = openParen ∨ ∃ op, x = operator op

theorem waits_nil : Waits [] := nofun

theorem Waits.cons {x : Lexeme} (h : Waits stack) (hx : x = openParen ∨ ∃ op, x = operator op) :
    Waits (x :: stack) :=
  List.forall_mem_cons.mpr ⟨hx, h⟩

theorem Waits.of_sublist {part : List Lexeme} (h : Waits stack) (hpart : part.Sublist stack) : Waits part :=
  fun x hx => h x (hpart.subset hx)

theorem Waits.filter_isOperand (h : Waits stack) : stack.filter isOperand = [] := by
  rw [List.filter_eq_nil_iff]
  intro x hx
  rcases h x hx with rfl | ⟨op, rfl⟩ <;> simp [isOperand]

theorem Waits.closeParen_notMem (h : Waits stack) : closeParen ∉ stack := by
  intro hmem
  rcases h _ hmem with hx | ⟨op, hx⟩ <;> cases hx

theorem count_split (p : Lexeme → Bool) (stack : List Lexeme) (x : Lexeme) :
    (stack.takeWhile p).count x + (stack.dropWhile p).count x = stack.count x := by
  rw [← List.count_append, List.takeWhile_append_dropWhile]

/-- Where a closing parenthesis stops, the stack ends or its opening one lies on top. -/
theorem dropWhile_isInside (stack : List Lexeme) :
    stack.dropWhile isInside = [] ∨ ∃ rest, stack.dropWhile isInside = openParen :: rest := by
  cases h : stack.dropWhile isInside with
  | nil => exact .inl rfl
  | cons x rest =>
    have hx := List.head?_dropWhile_not isInside stack
    rw [h] at hx
    cases x with
    | openParen => exact .inr ⟨rest, rfl⟩
    | _ => cases hx

theorem count_tail_dropWhile {x : Lexeme} (hx : x ≠ openParen) (stack : List Lexeme) :
    (stack.dropWhile isInside).tail.count x = (stack.dropWhile isInside).count x := by
  rcases dropWhile_isInside stack with h | ⟨rest, h⟩
  · rw [h, List.tail_nil]
  · rw [h, List.tail_cons, List.count_cons_of_ne hx.symm]

/-- What a closing parenthesis releases holds no opening one. -/
theorem count_openParen_takeWhile_isInside (stack : List Lexeme) :
    (stack.takeWhile isInside).count openParen = 0 := by
  rw [List.count_eq_zero]
  intro hmem
  have hinside := List.all_eq_true.mp List.all_takeWhile _ hmem
  cases hinside

/-- What an operator releases are operators. -/
theorem count_openParen_takeWhile_goesBefore (op : Operator) (stack : List Lexeme) :
    (stack.takeWhile (goesBefore op)).count openParen = 0 := by
  rw [List.count_eq_zero]
  intro hmem
  have hgoes := List.all_eq_true.mp List.all_takeWhile _ hmem
  cases hgoes

/-! ### What comes out -/

/-- What waits and what is still to come comes out just as often, parentheses apart. -/
theorem count_rearrange {x : Lexeme} (hopen : x ≠ openParen) (hclose : x ≠ closeParen) (stack lexemes : List Lexeme) :
    (rearrange stack lexemes).count x = stack.count x + lexemes.count x := by
  induction stack, lexemes using rearrange.induct with
  | case1 stack => simp [rearrange]
  | case2 stack op lexemes ih =>
    have hsplit := count_split (goesBefore op) stack x
    rw [List.count_cons] at ih
    rw [rearrange, List.count_append, ih, List.count_cons]
    omega
  | case3 stack lexemes ih =>
    rw [rearrange, ih, List.count_cons_of_ne hopen.symm, List.count_cons_of_ne hopen.symm]
  | case4 stack lexemes ih =>
    have hsplit := count_split isInside stack x
    rw [rearrange, List.count_append, ih, count_tail_dropWhile hopen, List.count_cons_of_ne hclose.symm]
    omega
  | case5 stack operand lexemes hop hopen' hclose' ih =>
    rw [rearrange, List.count_cons, ih, List.count_cons]
    · omega
    all_goals assumption

/-- Operands come out at once, and those that wait are none. -/
theorem filter_isOperand_rearrange (h : Waits stack) :
    (rearrange stack lexemes).filter isOperand = lexemes.filter isOperand := by
  induction stack, lexemes using rearrange.induct with
  | case1 stack => simp [rearrange, h.filter_isOperand]
  | case2 stack op lexemes ih =>
    have hreleased := (h.of_sublist (List.takeWhile_sublist (goesBefore op))).filter_isOperand
    have hkept := (h.of_sublist (List.dropWhile_sublist (goesBefore op))).cons (.inr ⟨op, rfl⟩)
    rw [rearrange, List.filter_append, hreleased, ih hkept]
    simp [isOperand]
  | case3 stack lexemes ih =>
    rw [rearrange, ih (h.cons (.inl rfl))]
    simp [isOperand]
  | case4 stack lexemes ih =>
    have hreleased := (h.of_sublist (List.takeWhile_sublist isInside)).filter_isOperand
    have hkept := h.of_sublist ((List.tail_sublist _).trans (List.dropWhile_sublist isInside))
    rw [rearrange, List.filter_append, hreleased, ih hkept]
    simp [isOperand]
  | case5 stack operand lexemes hop hopen hclose ih =>
    rw [rearrange, List.filter_cons, ih h, List.filter_cons]
    all_goals assumption

theorem closeParen_notMem_rearrange (h : Waits stack) : closeParen ∉ rearrange stack lexemes := by
  induction stack, lexemes using rearrange.induct with
  | case1 stack =>
    rw [rearrange]
    exact h.closeParen_notMem
  | case2 stack op lexemes ih =>
    have hreleased := (h.of_sublist (List.takeWhile_sublist (goesBefore op))).closeParen_notMem
    have hkept := (h.of_sublist (List.dropWhile_sublist (goesBefore op))).cons (.inr ⟨op, rfl⟩)
    rw [rearrange, List.mem_append]
    exact not_or.mpr ⟨hreleased, ih hkept⟩
  | case3 stack lexemes ih =>
    rw [rearrange]
    exact ih (h.cons (.inl rfl))
  | case4 stack lexemes ih =>
    have hreleased := (h.of_sublist (List.takeWhile_sublist isInside)).closeParen_notMem
    have hkept := h.of_sublist ((List.tail_sublist _).trans (List.dropWhile_sublist isInside))
    rw [rearrange, List.mem_append]
    exact not_or.mpr ⟨hreleased, ih hkept⟩
  | case5 stack operand lexemes hop hopen hclose ih =>
    rw [rearrange, List.mem_cons]
    · rintro (rfl | hmem)
      · exact hclose rfl
      · exact ih h hmem
    all_goals assumption

/-- The opening parentheses on the stack are those that are open, so the ones that come out are never closed. -/
theorem count_openParen_rearrange {opened : List Nat} (place : Nat) (h : stack.count openParen = opened.length) :
    (rearrange stack lexemes).count openParen = (unclosed opened place lexemes).length := by
  induction stack, lexemes using rearrange.induct generalizing opened place with
  | case1 stack => simpa [rearrange, unclosed] using h
  | case2 stack op lexemes ih =>
    have hsplit := count_split (goesBefore op) stack openParen
    have hreleased := count_openParen_takeWhile_goesBefore op stack
    rw [rearrange, List.count_append, hreleased, unclosed, Nat.zero_add]
    · refine ih (place + 1) ?_
      rw [List.count_cons_of_ne (by simp)]
      omega
    all_goals simp
  | case3 stack lexemes ih =>
    rw [rearrange, unclosed]
    exact ih (place + 1) (by simp [h])
  | case4 stack lexemes ih =>
    have hsplit := count_split isInside stack openParen
    have hreleased := count_openParen_takeWhile_isInside stack
    rw [rearrange, List.count_append, hreleased, unclosed, Nat.zero_add]
    refine ih (place + 1) ?_
    rw [List.length_tail]
    -- What is closed lies on top now; where nothing is open, nothing is left.
    rcases dropWhile_isInside stack with hdrop | ⟨rest, hdrop⟩
    · rw [hdrop] at hsplit ⊢
      simp at hsplit ⊢
      omega
    · rw [hdrop, List.count_cons_self] at hsplit
      rw [hdrop, List.tail_cons]
      omega
  | case5 stack operand lexemes hop hopen hclose ih =>
    have hplaces : unclosed opened place (operand :: lexemes) = unclosed opened (place + 1) lexemes := by
      rw [unclosed] <;> assumption
    rw [rearrange, List.count_cons_of_ne hopen, hplaces]
    · exact ih (place + 1) h
    all_goals assumption

/-! ### Instructions -/

/-- Parentheses apart, the lexemes come out as they went in, in another order. -/
theorem filter_toPostfix_perm (lexemes : List Lexeme) :
    ((toPostfix lexemes).filter fun x => x.isOperand || x.isOperator).Perm
      (lexemes.filter fun x => x.isOperand || x.isOperator) := by
  rw [List.perm_iff_count]
  intro x
  cases hx : x.isOperand || x.isOperator with
  | false => rw [List.count_eq_zero_of_not_mem, List.count_eq_zero_of_not_mem] <;> simp [hx]
  | true =>
    have hcount : (toPostfix lexemes).count x = lexemes.count x := by
      rw [toPostfix, count_rearrange, List.count_nil, Nat.zero_add]
      all_goals
        rintro rfl
        cases hx
    have hkept : ∀ xs : List Lexeme, (xs.filter fun x => x.isOperand || x.isOperator).count x = xs.count x :=
      fun _ => List.count_filter hx
    rw [hkept, hkept, hcount]

theorem filterMap_instruction?_filter (lexemes : List Lexeme) :
    (lexemes.filter fun x => x.isOperand || x.isOperator).filterMap instruction? = lexemes.filterMap instruction? := by
  rw [List.filterMap_filter]
  refine List.filterMap_congr fun x _ => ?_
  cases x <;> rfl

theorem filterMap_toPostfix_perm (lexemes : List Lexeme) :
    ((toPostfix lexemes).filterMap instruction?).Perm (lexemes.filterMap instruction?) := by
  have hperm := (filter_toPostfix_perm lexemes).filterMap instruction?
  rwa [filterMap_instruction?_filter, filterMap_instruction?_filter] at hperm

theorem length_filterMap_instruction? (lexemes : List Lexeme) :
    (lexemes.filterMap instruction?).length = lexemes.countP isOperand + lexemes.countP isOperator := by
  induction lexemes with
  | nil => rfl
  | cons x lexemes ih =>
    cases x <;> simp [List.filterMap_cons, instruction?, isOperand, isOperator, ih, List.countP_cons] <;> omega

/-- However operators and parentheses stand, all operands come out in their order and every operator as often as it
    went in, closing parentheses not at all and opening ones just as many as are never closed. The code has the
    instructions of all operands and operators that went in, one for each. -/
theorem toPostfix_conserves (lexemes : List Lexeme) :
    (toPostfix lexemes).filter isOperand = lexemes.filter isOperand ∧
    (∀ op, (toPostfix lexemes).count (operator op) = lexemes.count (operator op)) ∧
    closeParen ∉ toPostfix lexemes ∧
    (toPostfix lexemes).count openParen = (unclosed [] 0 lexemes).length ∧
    ((toPostfix lexemes).filterMap instruction?).Perm (lexemes.filterMap instruction?) ∧
    ((toPostfix lexemes).filterMap instruction?).length =
      lexemes.countP isOperand + lexemes.countP isOperator := by
  have hcode := filterMap_toPostfix_perm lexemes
  refine ⟨filter_isOperand_rearrange waits_nil, fun op => ?_, closeParen_notMem_rearrange waits_nil,
    count_openParen_rearrange 0 rfl, hcode, ?_⟩
  · rw [toPostfix, count_rearrange (by simp) (by simp), List.count_nil, Nat.zero_add]
  · rw [hcode.length_eq, length_filterMap_instruction?]

/-- A closing parenthesis that closes nothing, and two opening ones of which the first is never closed. -/
example : unclosed [] 0 [closeParen, openParen, operator .add, openParen, name "a", closeParen] = [1] := rfl

end DrillCode.Formula.Lexeme
