import DrillCode.Proofs.Formula.Grammar

/-! # Operators wait for their right operands

While an expression is rearranged, the operators that still wait are those whose right operand goes on, with
the tightest on top. They bind at least as tightly as the place where the expression stands asks for, and what
lay on the stack before does not, so the next operator of that place releases just them. -/

namespace DrillCode.Formula

/-- The lexemes of a tree with each operator behind its operands. -/
def Tree.arranged : Tree → List Lexeme
  | number l => [.number l.value]
  | name n => [.name (String.ofList n.text)]
  | binary op left right => left.arranged ++ right.arranged ++ [.operator op]

theorem Tree.code_eq : ∀ tree : Tree, tree.arranged.filterMap Lexeme.instruction? = tree.code
  | number _ => rfl
  | name _ => rfl
  | binary op left right => by
    rw [arranged, List.filterMap_append, List.filterMap_append, left.code_eq, right.code_eq]
    rfl

/-! ### The stack -/

/-- All are operators that bind as tightly as `level` or more. -/
def Waiting (level : Nat) (pending : List Lexeme) : Prop :=
  ∀ x ∈ pending, ∃ op, x = .operator op ∧ level ≤ op.precedence

/-- An operator on top binds less tightly than `level`. -/
def Below (level : Nat) (stack : List Lexeme) : Prop :=
  ∀ op, stack.head? = some (.operator op) → op.precedence < level

theorem Below.dropWhile_goesBefore {op : Operator} {stack : List Lexeme} (h : Below op.precedence stack) :
    stack.takeWhile (Lexeme.goesBefore op) = [] ∧ stack.dropWhile (Lexeme.goesBefore op) = stack := by
  cases stack with
  | nil => exact ⟨rfl, rfl⟩
  | cons top stack =>
    have htop : Lexeme.goesBefore op top = false := by
      cases top with
      | operator top => exact decide_eq_false (Nat.not_le.mpr (h top rfl))
      | _ => rfl
    rw [List.takeWhile_cons, List.dropWhile_cons, htop]
    exact ⟨rfl, rfl⟩

/-- An operator releases all that wait above a stack below it. -/
theorem rearrange_operator {op : Operator} {pending stack : List Lexeme} (hpending : Waiting op.precedence pending)
    (hstack : Below op.precedence stack) (rest : List Lexeme) :
    Lexeme.rearrange (pending ++ stack) (.operator op :: rest) =
      pending ++ Lexeme.rearrange (.operator op :: stack) rest := by
  have hall : ∀ x ∈ pending, Lexeme.goesBefore op x = true := by
    intro x hx
    obtain ⟨top, rfl, hle⟩ := hpending x hx
    exact decide_eq_true hle
  obtain ⟨htake, hdrop⟩ := hstack.dropWhile_goesBefore
  rw [Lexeme.rearrange, List.takeWhile_append_of_pos hall, List.dropWhile_append_of_pos hall, htake, hdrop,
    List.append_nil]

/-- A closing parenthesis releases all that wait above the opening one. -/
theorem rearrange_closeParen {level : Nat} {pending : List Lexeme} (hpending : Waiting level pending)
    (stack rest : List Lexeme) :
    Lexeme.rearrange (pending ++ .openParen :: stack) (.closeParen :: rest) =
      pending ++ Lexeme.rearrange stack rest := by
  have hall : ∀ x ∈ pending, Lexeme.isInside x = true := by
    intro x hx
    obtain ⟨top, rfl, -⟩ := hpending x hx
    rfl
  rw [Lexeme.rearrange, List.takeWhile_append_of_pos hall, List.dropWhile_append_of_pos hall]
  exact congrArg (· ++ _) (List.append_nil pending)

/-! ### Expressions -/

/-- Rearranging an expression puts out a first part of its arranged lexemes and leaves the rest, operators
    only, on the stack. -/
theorem Derives.rearrange {level : Nat} {tree : Tree} {pieces : List Piece} (h : Derives level tree pieces) :
    ∃ out pending, tree.arranged = out ++ pending ∧ Waiting level pending ∧
      ∀ stack rest, Below level stack →
        Lexeme.rearrange stack (pieces.map Piece.lexeme ++ rest) =
          out ++ Lexeme.rearrange (pending ++ stack) rest := by
  induction h with
  | number l =>
    refine ⟨[.number l.value], [], rfl, nofun, fun stack rest _ => ?_⟩
    simp [Piece.lexeme, Lexeme.rearrange]
  | name n =>
    refine ⟨[.name (String.ofList n.text)], [], rfl, nofun, fun stack rest _ => ?_⟩
    simp [Piece.lexeme, Lexeme.rearrange]
  | @paren tree pieces inner ih =>
    obtain ⟨out, pending, harranged, hpending, hrearrange⟩ := ih
    refine ⟨out ++ pending, [], by rw [harranged, List.append_nil], nofun, fun stack rest _ => ?_⟩
    have hopen : Below 1 (.openParen :: stack) := fun op h => by cases h
    rw [List.map_cons, List.map_append, List.cons_append, List.append_assoc]
    show Lexeme.rearrange (.openParen :: stack) (pieces.map Piece.lexeme ++ .closeParen :: rest) = _
    rw [hrearrange _ _ hopen, rearrange_closeParen hpending, List.append_assoc]
    rfl
  | @binary op left right before behind _ _ ihleft ihright =>
    obtain ⟨out, pending, harranged, hpending, hrearrange⟩ := ihleft
    obtain ⟨out', pending', harranged', hpending', hrearrange'⟩ := ihright
    refine ⟨out ++ pending ++ out', pending' ++ [.operator op], ?_, ?_, fun stack rest hstack => ?_⟩
    · rw [Tree.arranged, harranged, harranged']
      simp only [List.append_assoc]
    · intro x hx
      rcases List.mem_append.mp hx with hx | hx
      · obtain ⟨top, rfl, hle⟩ := hpending' x hx
        exact ⟨top, rfl, Nat.le_of_succ_le hle⟩
      · exact ⟨op, List.mem_singleton.mp hx, Nat.le_refl _⟩
    · have hop : Below (op.precedence + 1) (.operator op :: stack) := fun top h => by
        cases h
        exact Nat.lt_succ_self _
      rw [List.map_append, List.map_cons, List.append_assoc, List.cons_append, hrearrange _ _ hstack]
      show out ++ Lexeme.rearrange (pending ++ stack) (.operator op :: (behind.map Piece.lexeme ++ rest)) = _
      rw [rearrange_operator hpending hstack, hrearrange' _ _ hop]
      simp only [List.append_assoc, List.singleton_append]
  | @tighter level tree pieces _ ih =>
    obtain ⟨out, pending, harranged, hpending, hrearrange⟩ := ih
    refine ⟨out, pending, harranged, fun x hx => ?_, fun stack rest hstack => hrearrange stack rest fun op h => ?_⟩
    · obtain ⟨op, hop, hle⟩ := hpending x hx
      exact ⟨op, hop, Nat.le_of_succ_le hle⟩
    · exact Nat.lt_succ_of_lt (hstack op h)

theorem Derives.toPostfix {tree : Tree} {pieces : List Piece} (h : Derives 1 tree pieces) :
    Lexeme.toPostfix (pieces.map Piece.lexeme) = tree.arranged := by
  obtain ⟨out, pending, harranged, -, hrearrange⟩ := h.rearrange
  have hempty := hrearrange [] [] fun op h => by cases h
  rw [List.append_nil, List.append_nil] at hempty
  rw [Lexeme.toPostfix, hempty, harranged]
  rfl

end DrillCode.Formula
