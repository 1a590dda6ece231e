import DrillCode.Formula.Compile
import DrillCode.Proofs.Formula.Lexing
import DrillCode.Proofs.Machine.Lockstep
import DrillCode.Proofs.Text.Replace

/-! # Which variables a program reads

The code of any text, a formula or not, reads only variables whose names stand in the text, and sets none. -/

namespace DrillCode.Formula

/-! ### Lexemes -/

/-- The name stands in the text. -/
def StandsIn (name : String) (text : List Char) : Prop := name.toList ≠ [] ∧ name.toList <:+: text

theorem StandsIn.of_suffix {name : String} {c : Char} {rest text : List Char} (h : StandsIn name rest)
    (hrest : rest <:+ text) : StandsIn name (c :: text) :=
  ⟨h.1, List.infix_cons (h.2.trans hrest.isInfix)⟩

namespace Lexeme

theorem name_notMem_ofNumber {name : String} {text : List Char} : Lexeme.name name ∉ ofNumber text := by
  simp [ofNumber]

theorem name_notMem_ofSign {name : String} {c : Char} : Lexeme.name name ∉ ofSign c := by
  unfold ofSign
  split
  · simp
  · split <;> simp

theorem eq_of_mem_ofWord {name : String} {text : List Char} (h : Lexeme.name name ∈ ofWord text) :
    name.toList = text := by
  unfold ofWord at h
  split at h
  · cases List.mem_singleton.mp h
    exact String.toList_ofList
  · cases h

/-- Induction on the text that is left: a name is a run of characters at its front. -/
theorem standsIn_of_mem_lex {name : String} {start : Bool} {text : List Char}
    (h : Lexeme.name name ∈ lex start text) : StandsIn name text := by
  induction start, text using lex.induct with
  | case1 start =>
    rw [lex_nil] at h
    cases h
  | case2 start c text hspace ih =>
    rw [lex_cons, if_pos hspace] at h
    exact (ih h).of_suffix List.suffix_rfl
  | case3 start c text hspace hnumeric ih =>
    rw [lex_cons, if_neg hspace, if_pos hnumeric, List.mem_append] at h
    exact (ih (h.resolve_left name_notMem_ofNumber)).of_suffix (List.dropWhile_suffix _)
  | case4 start c text hspace hnumeric halpha ih =>
    rw [lex_cons, if_neg hspace, if_neg hnumeric, if_pos halpha, List.mem_append] at h
    rcases h with h | h
    · have hword := eq_of_mem_ofWord h
      refine ⟨hword ▸ List.cons_ne_nil c _, ?_⟩
      rw [hword]
      exact (List.cons_prefix_cons.mpr ⟨rfl, List.takeWhile_prefix _⟩).isInfix
    · exact (ih h).of_suffix (List.dropWhile_suffix _)
  | case5 start c text hspace hnumeric halpha hminus ih =>
    rw [lex_cons, if_neg hspace, if_neg hnumeric, if_neg halpha, if_pos hminus, List.mem_append] at h
    exact (ih (h.resolve_left name_notMem_ofNumber)).of_suffix (List.dropWhile_suffix _)
  | case6 start c text hspace hnumeric halpha hminus ih =>
    rw [lex_cons, if_neg hspace, if_neg hnumeric, if_neg halpha, if_neg hminus, List.mem_append] at h
    exact (ih (h.resolve_left name_notMem_ofSign)).of_suffix List.suffix_rfl

theorem mem_rearrange {x : Lexeme} {stack lexemes : List Lexeme} (h : x ∈ rearrange stack lexemes) :
    x ∈ stack ∨ x ∈ lexemes := by
  induction stack, lexemes using rearrange.induct with
  | case1 stack => exact .inl h
  | case2 stack op lexemes ih =>
    -- The operators that leave the stack and those that stay were on it.
    rw [rearrange, List.mem_append] at h
    rcases h with h | h
    · exact .inl ((List.takeWhile_sublist _).subset h)
    · rcases ih h with h | h
      · rcases List.mem_cons.mp h with rfl | h
        · exact .inr List.mem_cons_self
        · exact .inl ((List.dropWhile_sublist _).subset h)
      · exact .inr (List.mem_cons_of_mem _ h)
  | case3 stack lexemes ih =>
    rw [rearrange] at h
    rcases ih h with h | h
    · rcases List.mem_cons.mp h with rfl | h
      · exact .inr List.mem_cons_self
      · exact .inl h
    · exact .inr (List.mem_cons_of_mem _ h)
  | case4 stack lexemes ih =>
    rw [rearrange, List.mem_append] at h
    rcases h with h | h
    · exact .inl ((List.takeWhile_sublist _).subset h)
    · rcases ih h with h | h
      · exact .inl ((List.dropWhile_sublist _).subset (List.mem_of_mem_tail h))
      · exact .inr (List.mem_cons_of_mem _ h)
  | case5 stack operand lexemes _ _ _ ih =>
    rw [rearrange, List.mem_cons] at h
    · rcases h with rfl | h
      · exact .inr List.mem_cons_self
      · exact (ih h).imp_right (List.mem_cons_of_mem _)
    all_goals assumption

end Lexeme

/-! ### Code -/

/-- The instruction neither reads a variable nor sets one, or it reads one whose name stands in the text. -/
def ReadsFrom (text : List Char) (ins : Instruction) : Prop :=
  ins.IsPlain ∨ ∃ name, ins = .load name ∧ StandsIn name text

theorem readsFrom_of_mem_expressionCode {text : List Char} {ins : Instruction} (h : ins ∈ expressionCode text) :
    ReadsFrom text ins := by
  obtain ⟨x, hx, hins⟩ := List.mem_filterMap.mp h
  have hlex : x ∈ Lexeme.lex true text := (Lexeme.mem_rearrange hx).resolve_left (List.not_mem_nil)
  cases x with
  | number value =>
    cases hins
    exact .inl trivial
  | name name =>
    cases hins
    exact .inr ⟨name, rfl, Lexeme.standsIn_of_mem_lex hlex⟩
  | operator op =>
    cases hins
    cases op <;> exact .inl trivial
  | openParen => cases hins
  | closeParen => cases hins

theorem ReadsFrom.mono {part text : List Char} {ins : Instruction} (h : ReadsFrom part ins) (hpart : part <:+: text) :
    ReadsFrom text ins := by
  rcases h with h | ⟨name, rfl, hname⟩
  · exact .inl h
  · exact .inr ⟨name, rfl, hname.1, hname.2.trans hpart⟩

/-- Whatever text is compiled, its program reads only variables whose names stand in it. -/
theorem readsFrom_of_compile {source : String} {program : Program} (h : compile source = .ok program) :
    ∀ ins ∈ program.code, ReadsFrom source.toList ins := by
  have hside : ∀ {side : List Char}, side ∈ source.toList.splitOn '=' → ∀ ins ∈ expressionCode side,
      ReadsFrom source.toList ins := fun hside _ hins =>
    (readsFrom_of_mem_expressionCode hins).mono (Text.isInfix_of_mem_splitOn hside)
  intro ins hins
  rw [compile] at h
  split at h
  · next text hpieces =>
    cases h
    rcases List.mem_append.mp hins with hins | hins
    · exact hside (hpieces ▸ List.mem_cons_self) ins hins
    · cases List.mem_singleton.mp hins
      exact .inl trivial
  · next left right hpieces =>
    cases h
    rcases List.mem_append.mp hins with hins | hins
    · rcases List.mem_append.mp hins with hins | hins
      · exact hside (hpieces ▸ List.mem_cons_self) ins hins
      · exact hside (hpieces ▸ List.mem_cons_of_mem _ List.mem_cons_self) ins hins
    · rcases List.mem_cons.mp hins with rfl | hins
      · exact .inl trivial
      · cases List.mem_singleton.mp hins
        exact .inl trivial
  · cases h

/-- A program is executed alike with any values for variables whose names do not stand in its text. -/
theorem execute_congr {settings : MachineSettings} {source : String} {program : Program} {values values' : Bindings}
    (h : compile source = .ok program)
    (hvalues : ∀ name, StandsIn name source.toList → values.get? name = values'.get? name) :
    program.execute settings values = program.execute settings values' := by
  refine Program.execute_alike (List.forall₂_same.mpr fun ins hins => ?_) rfl
  rcases readsFrom_of_compile h ins hins with hplain | ⟨name, rfl, hname⟩
  · exact hplain.alike
  · exact Instruction.alike_load (hvalues name hname)

end DrillCode.Formula
