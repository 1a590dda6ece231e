import DrillCode.Proofs.Formula.Lexing
import DrillCode.Proofs.Formula.Shape
import DrillCode.Proofs.Machine.Listing
import DrillCode.Proofs.Number.Nearest

/-! # Listings of compiled code

Whatever text is compiled, the numbers of its code are read from digits and points, and the names hold letters, digits
and underscores. So its listing shows each instruction on a line of its own, and the code can be told from it. -/

namespace DrillCode.Formula

namespace Lexeme
variable {x : Lexeme} {start : Bool} {text : List Char}

/-! ### Where lexemes come from -/

/-- The text starts with a digit or a point, behind a minus sign if there is one. -/
def StartsNumeral (text : List Char) : Prop :=
  ∃ c rest, (text = c :: rest ∨ text = '-' :: c :: rest) ∧ isNumeric c = true

/-- Induction on the text that is left: a lexeme is that of a number, of a word, or of a single character. -/
theorem of_mem_lex (h : x ∈ lex start text) :
    (∃ numeral, StartsNumeral numeral ∧ x ∈ ofNumber numeral) ∨ (∃ word, x ∈ ofWord word) ∨ ∃ c, x ∈ ofSign c := by
  induction start, text using lex.induct with
  | case1 start =>
    rw [lex_nil] at h
    cases h
  | case2 start c text hspace ih =>
    rw [lex_cons, if_pos hspace] at h
    exact ih h
  | case3 start c text hspace hnumeric ih =>
    rw [lex_cons, if_neg hspace, if_pos hnumeric, List.mem_append] at h
    rcases h with h | h
    · exact .inl ⟨_, ⟨c, _, .inl rfl, hnumeric⟩, h⟩
    · exact ih h
  | case4 start c text hspace hnumeric halpha ih =>
    rw [lex_cons, if_neg hspace, if_neg hnumeric, if_pos halpha, List.mem_append] at h
    rcases h with h | h
    · exact .inr (.inl ⟨_, h⟩)
    · exact ih h
  | case5 start c text hspace hnumeric halpha hminus ih =>
    rw [lex_cons, if_neg hspace, if_neg hnumeric, if_neg halpha, if_pos hminus, List.mem_append] at h
    rcases h with h | h
    · refine .inl ⟨_, ?_, h⟩
      cases hrun : text.takeWhile isNumeric with
      | nil => simp [hrun] at hminus
      | cons d run =>
        have hmem : d ∈ text.takeWhile isNumeric := hrun ▸ List.mem_cons_self
        exact ⟨d, run, .inr rfl, List.all_eq_true.mp List.all_takeWhile d hmem⟩
    · exact ih h
  | case6 start c text hspace hnumeric halpha hminus ih =>
    rw [lex_cons, if_neg hspace, if_neg hnumeric, if_neg halpha, if_neg hminus, List.mem_append] at h
    rcases h with h | h
    · exact .inr (.inr ⟨c, h⟩)
    · exact ih h

theorem toLower_of_isNumeric {c : Char} (h : isNumeric c = true) : c.toLower = c := by
  refine dif_neg fun hupper => ?_
  have hlow : 65 ≤ c.toNat := UInt32.le_iff_toNat_le.mp hupper.1
  have hcode := code_of_isNumeric h
  omega

/-- No word starts like a number. -/
theorem word?_of_isNumeric {c : Char} (h : isNumeric c = true) (rest : List Char) : Reading.word? (c :: rest) = none := by
  refine Reading.word?_cons ?_ ?_
  all_goals
    rw [toLower_of_isNumeric h]
    rintro rfl
    cases h

theorem splitSign_of_isNumeric {c : Char} (h : isNumeric c = true) (rest : List Char) :
    Reading.splitSign (c :: rest) = (false, c :: rest) := by
  unfold Reading.splitSign
  split
  · next heq =>
    cases heq
    cases h
  · next heq =>
    cases heq
    cases h
  · rfl

/-- The numbers of a formula are numbers. -/
theorem isNaN_of_mem_ofNumber {value : Float} (h : number value ∈ ofNumber text) (htext : StartsNumeral text) :
    value.isNaN = false := by
  obtain ⟨c, rest, hsign, hc⟩ := htext
  have hvalue : Reading.number? text = some value := by simpa [ofNumber] using h
  refine Reading.isNaN_of_number? ?_ hvalue
  rcases hsign with rfl | rfl
  · rw [splitSign_of_isNumeric hc, word?_of_isNumeric hc]
  · exact word?_of_isNumeric hc rest

theorem isName_of_mem_ofWord {text : String} {word : List Char} (h : name text ∈ ofWord word) :
    isName text.toList = true := by
  unfold ofWord at h
  split at h
  · next hname =>
    cases List.mem_singleton.mp h
    rwa [String.toList_ofList]
  · cases h

theorem isNaN_of_number_mem_lex {value : Float} (h : number value ∈ lex start text) : value.isNaN = false := by
  rcases of_mem_lex h with ⟨numeral, hnumeral, h⟩ | ⟨word, h⟩ | ⟨c, h⟩
  · exact isNaN_of_mem_ofNumber h hnumeral
  · unfold ofWord at h
    split at h <;> simp at h
  · unfold ofSign at h
    split at h
    · simp at h
    · split at h <;> simp at h

theorem isName_of_name_mem_lex {text : String} {source : List Char} (h : name text ∈ lex start source) :
    isName text.toList = true := by
  rcases of_mem_lex h with ⟨numeral, -, h⟩ | ⟨word, h⟩ | ⟨c, h⟩
  · exact absurd h name_notMem_ofNumber
  · exact isName_of_mem_ofWord h
  · exact absurd h name_notMem_ofSign

end Lexeme

/-! ### Code -/

/-- The instruction pushes a number, loads what has a name, or has no operand. -/
def IsProper : Instruction → Prop
  | .push value => value.isNaN = false
  | .load name => Lexeme.isName name.toList = true
  | ins => ins.operand? = none

theorem isProper_of_mem_expressionCode {text : List Char} {ins : Instruction} (h : ins ∈ expressionCode text) :
    IsProper ins := by
  obtain ⟨x, hx, hins⟩ := List.mem_filterMap.mp h
  have hlex : x ∈ Lexeme.lex true text := (Lexeme.mem_rearrange hx).resolve_left List.not_mem_nil
  cases x with
  | number value =>
    cases hins
    exact Lexeme.isNaN_of_number_mem_lex hlex
  | name name =>
    cases hins
    exact Lexeme.isName_of_name_mem_lex hlex
  | operator op =>
    cases hins
    cases op <;> rfl
  | openParen => cases hins
  | closeParen => cases hins

theorem isProper_of_compile {source : String} {p : Program} (h : compile source = .ok p) :
    ∀ ins ∈ p.code, IsProper ins := by
  rcases compile_cases source with ⟨-, herror⟩ | ⟨-, program, hok, hcode⟩
  · rw [h] at herror
    cases herror
  · obtain rfl := Except.ok.inj (hok.symm.trans h)
    rw [hcode]
    intro ins hins
    simp only [List.mem_append, List.mem_singleton] at hins
    rcases hins with (hins | hins) | rfl
    · obtain ⟨side, -, hins⟩ := List.mem_flatMap.mp hins
      exact isProper_of_mem_expressionCode hins
    · rw [List.eq_of_mem_replicate hins]
      rfl
    · rfl

theorem code_ne_nil {source : String} {p : Program} (h : compile source = .ok p) : p.code ≠ [] := by
  rcases compile_cases source with ⟨-, herror⟩ | ⟨-, program, hok, hcode⟩
  · rw [h] at herror
    cases herror
  · obtain rfl := Except.ok.inj (hok.symm.trans h)
    rw [hcode]
    exact List.append_ne_nil_of_right_ne_nil _ (List.cons_ne_nil _ _)

/-- No name has a line break. -/
theorem IsProper.isLine {ins : Instruction} (h : IsProper ins) : ins.IsLine := by
  cases ins with
  | load name =>
    intro hnewline
    have hchar := isNameChar_of_isName h _ hnewline
    cases hchar
  | store name => cases h
  | _ => trivial

/-- The listing of compiled code has one line for each instruction, numbered from zero, and the numbers that it
    shows are numbers. Programs with the same listing have the same code. -/
theorem disassembly_faithful {source : String} {p : Program} (h : compile source = .ok p) :
    p.disassembly.toList.splitOn '\n' =
        p.code.mapIdx (fun i ins => Program.address i ++ ": ".toList ++ ins.text.toList) ∧
      (∀ value, Instruction.push value ∈ p.code → value.isNaN = false) ∧
      ∀ source' p', compile source' = .ok p' → p'.disassembly = p.disassembly → p'.code = p.code := by
  have hlines : ∀ ins ∈ p.code, ins.IsLine := fun ins hins => (isProper_of_compile h ins hins).isLine
  refine ⟨Program.splitOn_disassembly (code_ne_nil h) hlines, fun value => isProper_of_compile h _,
    fun source' p' h' heq => ?_⟩
  refine Program.code_eq_of_disassembly (code_ne_nil h') (code_ne_nil h) ?_ hlines heq
  exact fun ins hins => (isProper_of_compile h' ins hins).isLine

/-- A variable may be called like an infinity; white space does not show. -/
theorem disassembly_faithful_sample :
    ∃ p p', compile "inf-2" = .ok p ∧ compile " inf - 2" = .ok p' ∧ p'.disassembly = p.disassembly ∧
      p'.code = p.code ∧ p.disassembly.toList.splitOn '\n' =
        ["  0: LOAD inf".toList, "  1: PUSH 2".toList, "  2: SUB".toList, "  3: HALT".toList] := by
  have hp : compile "inf-2" = .ok ⟨[.load "inf", .push 2, .sub, .halt], false, "inf-2"⟩ := by decide +kernel
  have hp' : compile " inf - 2" = .ok ⟨[.load "inf", .push 2, .sub, .halt], false, " inf - 2"⟩ := by decide +kernel
  obtain ⟨hlines, -, hsame⟩ := disassembly_faithful hp
  exact ⟨_, _, hp, hp', rfl, hsame _ _ hp' rfl, hlines.trans (by decide +kernel)⟩

end DrillCode.Formula
