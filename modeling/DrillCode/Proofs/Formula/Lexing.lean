import DrillCode.Proofs.Formula.Grammar
import DrillCode.Proofs.Text.Letters

/-! # Pieces are told apart

A text that spells pieces has just their lexemes, however it is spaced, if operands and operators take turns.
Then a number or a name ends where the next piece starts or white space comes, and a minus sign that stands
where an operand is due belongs to a number. -/

namespace DrillCode.Formula

/-! ### Characters -/

theorem code_of_isNumeric {c : Char} (h : Lexeme.isNumeric c = true) :
    0x30 ≤ c.toNat ∧ c.toNat ≤ 0x39 ∨ c.toNat = 0x2E := by
  simp only [Lexeme.isNumeric, Reading.isDigit, Digit.ofChar?, Bool.or_eq_true, beq_iff_eq] at h
  rcases h with h | rfl
  · split at h
    · omega
    · cases h
  · exact .inr rfl

theorem isSpace_of_isNumeric {c : Char} (h : Lexeme.isNumeric c = true) : Text.isSpace c = false := by
  have hcode := code_of_isNumeric h
  exact Text.isSpace_of_printed (by omega) (by omega)

theorem isAlpha_class {c : Char} (h : c.isAlpha = true) :
    Text.isSpace c = false ∧ Lexeme.isNumeric c = false ∧ Text.isAlphabetic c = true := by
  rw [Text.isAlpha_eq] at h
  have hcode := Text.isLetterCode_iff.mp h
  refine ⟨Text.isSpace_of_printed (by omega) (by omega), ?_, ?_⟩
  · rw [Bool.eq_false_iff]
    intro hnumeric
    have hcode' := code_of_isNumeric hnumeric
    omega
  · rw [Text.isAlphabetic_ascii (by omega), h]

theorem isWordChar_of_isNameChar {c : Char} (h : Lexeme.isNameChar c = true) : Lexeme.isWordChar c = true := by
  rw [Lexeme.isNameChar, Bool.or_eq_true, Text.isAlpha_eq, Text.isDigit_eq] at h
  rw [Lexeme.isWordChar, Bool.or_eq_true]
  rcases h with h | h
  · have hlt : c.toNat < 128 := by
      rcases Bool.or_eq_true_iff.mp h with h | h
      · have hcode := Text.isLetterCode_iff.mp h
        omega
      · have hcode := Text.isDigitCode_iff.mp h
        omega
    exact .inl ((Text.isAlphanumeric_ascii hlt).trans h)
  · exact .inr h

theorem isNameChar_of_isName {word : List Char} (h : Lexeme.isName word = true) :
    ∀ c ∈ word, Lexeme.isNameChar c = true := by
  cases word with
  | nil => cases h
  | cons d word =>
    rw [Lexeme.isName, Bool.and_eq_true, List.all_eq_true] at h
    refine List.forall_mem_cons.mpr ⟨?_, h.2⟩
    rw [Lexeme.isNameChar, h.1]
    rfl

/-- A number or a name ends in front of the character. -/
def Ends (c : Char) : Prop := Lexeme.isNumeric c = false ∧ Lexeme.isWordChar c = false

theorem ends_of_isSpace {c : Char} (h : Text.isSpace c = true) : Ends c := by
  refine ⟨?_, ?_⟩
  · rw [Bool.eq_false_iff]
    intro hnumeric
    rw [isSpace_of_isNumeric hnumeric] at h
    cases h
  · rw [Lexeme.isWordChar, Text.isAlphanumeric_of_isSpace h, Bool.false_or, beq_eq_false_iff_ne]
    rintro rfl
    cases h

/-- The signs of a formula. -/
def signs : List Char := ['+', '-', '*', '/', '^', '(', ')']

/-- The signs are not white space, and nothing else starts with them or goes on with them. -/
theorem sign_class {c : Char} (h : c ∈ signs) : Text.isSpace c = false ∧ Text.isAlphabetic c = false ∧ Ends c := by
  have hascii : c.toNat < 128 ∧ Text.isSpace c = false ∧ Lexeme.isNumeric c = false ∧ c ≠ '_' ∧
      Text.isLetterCode c.toNat = false ∧ Text.isDigitCode c.toNat = false := by
    simp only [signs, List.mem_cons, List.not_mem_nil, or_false] at h
    rcases h with rfl | rfl | rfl | rfl | rfl | rfl | rfl <;> decide
  obtain ⟨hlt, hspace, hnumeric, hline, hletter, hdigit⟩ := hascii
  refine ⟨hspace, (Text.isAlphabetic_ascii hlt).trans hletter, hnumeric, ?_⟩
  rw [Lexeme.isWordChar, Text.isAlphanumeric_ascii hlt, hletter, hdigit, beq_eq_false_iff_ne.mpr hline]
  rfl

theorem Operator.char_mem (op : Operator) : op.char ∈ signs := by
  cases op <;> decide

theorem Piece.class_of_mem {piece : Piece} {c : Char} (h : c ∈ piece.text) :
    Lexeme.isNumeric c = true ∨ Lexeme.isNameChar c = true ∨ c ∈ signs := by
  cases piece with
  | literal l =>
    rw [text, Literal.text] at h
    split at h
    · rcases List.mem_cons.mp h with rfl | h
      · exact .inr (.inr (by decide))
      · exact .inl (l.numeric c h)
    · exact .inl (l.numeric c h)
  | name n => exact .inr (.inl (isNameChar_of_isName n.proper c h))
  | operator op => exact .inr (.inr (List.mem_singleton.mp h ▸ op.char_mem))
  | openParen => exact .inr (.inr (List.mem_singleton.mp h ▸ by decide))
  | closeParen => exact .inr (.inr (List.mem_singleton.mp h ▸ by decide))

theorem Piece.isSpace_of_mem {piece : Piece} {c : Char} (h : c ∈ piece.text) : Text.isSpace c = false := by
  rcases class_of_mem h with hnumeric | hname | hsign
  · exact isSpace_of_isNumeric hnumeric
  · rw [Bool.eq_false_iff]
    intro hspace
    have hword := (ends_of_isSpace hspace).2
    rw [isWordChar_of_isNameChar hname] at hword
    cases hword
  · exact (sign_class hsign).1

/-! ### Turns -/

namespace Piece

/-- An operand is due in front of the piece. -/
def dueBefore : Piece → Bool
  | literal _ | name _ | openParen => true
  | operator _ | closeParen => false

/-- An operand is due behind the piece. -/
def dueBehind : Piece → Bool
  | operator _ | openParen => true
  | literal _ | name _ | closeParen => false

end Piece

/-- Operands and operators take turns; `due` says that an operand comes first. -/
def Alternates : (due : Bool) → (pieces : List Piece) → Prop
  | _, [] => True
  | due, piece :: pieces => due = piece.dueBefore ∧ Alternates piece.dueBehind pieces

theorem Derives.alternates {level : Nat} {tree : Tree} {pieces : List Piece} (h : Derives level tree pieces) :
    ∀ {rest : List Piece}, Alternates false rest → Alternates true (pieces ++ rest) := by
  induction h with
  | number l => exact fun hrest => ⟨rfl, hrest⟩
  | name n => exact fun hrest => ⟨rfl, hrest⟩
  | paren inner ih =>
    intro rest hrest
    rw [List.cons_append, List.append_assoc]
    exact ⟨rfl, ih ⟨rfl, hrest⟩⟩
  | binary hleft hright ihleft ihright =>
    intro rest hrest
    rw [List.append_assoc, List.cons_append]
    exact ihleft ⟨rfl, ihright hrest⟩
  | tighter h ih => exact ih

/-- Where no operand is due, the text goes on with nothing that could belong to a number or a name. -/
theorem Layout.ends {pieces : List Piece} {text : List Char} (h : Layout pieces text)
    (hturn : Alternates false pieces) : ∀ c, text.head? = some c → Ends c := by
  intro c hc
  cases h with
  | nil hspaces => exact ends_of_isSpace (hspaces c (List.mem_of_head? hc))
  | @cons spaces text pieces hspaces piece rest =>
    cases spaces with
    | cons space spaces =>
      cases hc
      exact ends_of_isSpace (hspaces _ List.mem_cons_self)
    | nil =>
      cases piece with
      | operator op =>
        cases hc
        exact (sign_class op.char_mem).2.2
      | closeParen =>
        cases hc
        exact (sign_class (by decide)).2.2
      | literal l => cases hturn.1
      | name n => cases hturn.1
      | openParen => cases hturn.1

/-! ### One piece -/

/-- A run of characters ends in front of the first character of another kind. -/
theorem takeWhile_run {p : Char → Bool} {run text : List Char} (hrun : ∀ c ∈ run, p c = true)
    (htext : ∀ c, text.head? = some c → p c = false) :
    (run ++ text).takeWhile p = run ∧ (run ++ text).dropWhile p = text := by
  rw [List.takeWhile_append_of_pos hrun, List.dropWhile_append_of_pos hrun]
  cases text with
  | nil => exact ⟨List.append_nil run, rfl⟩
  | cons c text =>
    rw [List.takeWhile_cons, List.dropWhile_cons, htext c rfl]
    exact ⟨List.append_nil run, rfl⟩

/-- Where a text begins with a character of another kind, a run in front of it goes as far as without it. -/
theorem takeWhile_append_of_head {p : Char → Bool} {text : List Char} (htext : ∀ c, text.head? = some c → p c = false)
    (before : List Char) : (before ++ text).takeWhile p = before.takeWhile p ∧
      (before ++ text).dropWhile p = before.dropWhile p ++ text := by
  have hrun : ∀ c ∈ before.takeWhile p, p c = true := List.all_eq_true.mp List.all_takeWhile
  have hrest : ∀ c, (before.dropWhile p ++ text).head? = some c → p c = false := by
    intro c hc
    cases hdrop : before.dropWhile p with
    | nil =>
      rw [hdrop] at hc
      exact htext c hc
    | cons d rest =>
      rw [hdrop] at hc
      cases hc
      have hhead := List.head?_dropWhile_not p before
      rw [hdrop] at hhead
      exact hhead
  have hsplit := takeWhile_run hrun hrest
  rwa [← List.append_assoc, List.takeWhile_append_dropWhile] at hsplit

theorem lex_nil (start : Bool) : Lexeme.lex start [] = [] := by
  rw [Lexeme.lex.eq_def]

/-- The first character decides how the text is read on. -/
theorem lex_cons (start : Bool) (c : Char) (text : List Char) :
    Lexeme.lex start (c :: text) =
      if Text.isSpace c then Lexeme.lex start text
      else if Lexeme.isNumeric c then
        Lexeme.ofNumber (c :: text.takeWhile Lexeme.isNumeric) ++ Lexeme.lex false (text.dropWhile Lexeme.isNumeric)
      else if Text.isAlphabetic c then
        Lexeme.ofWord (c :: text.takeWhile Lexeme.isWordChar) ++ Lexeme.lex false (text.dropWhile Lexeme.isWordChar)
      else if c = '-' && start && (text.takeWhile Lexeme.isNumeric) != [] then
        Lexeme.ofNumber ('-' :: text.takeWhile Lexeme.isNumeric) ++ Lexeme.lex false (text.dropWhile Lexeme.isNumeric)
      else Lexeme.ofSign c ++ Lexeme.lex (Lexeme.expectsOperand c) text := by
  rw [Lexeme.lex.eq_def]

theorem lex_space {start : Bool} {c : Char} {text : List Char} (h : Text.isSpace c = true) :
    Lexeme.lex start (c :: text) = Lexeme.lex start text := by
  rw [lex_cons, if_pos h]

theorem lex_spaces {start : Bool} {text : List Char} : ∀ {spaces : List Char},
    (∀ c ∈ spaces, Text.isSpace c = true) → Lexeme.lex start (spaces ++ text) = Lexeme.lex start text
  | [], _ => rfl
  | c :: _, h =>
    (lex_space (h c List.mem_cons_self)).trans (lex_spaces fun x hx => h x (List.mem_cons_of_mem c hx))

theorem lex_number {start : Bool} {run text : List Char} (hne : run ≠ [])
    (hrun : ∀ c ∈ run, Lexeme.isNumeric c = true) (htext : ∀ c, text.head? = some c → Ends c) :
    Lexeme.lex start (run ++ text) = Lexeme.ofNumber run ++ Lexeme.lex false text := by
  cases run with
  | nil => exact absurd rfl hne
  | cons c run =>
    have hc := hrun c List.mem_cons_self
    obtain ⟨htake, hdrop⟩ := takeWhile_run (fun x hx => hrun x (List.mem_cons_of_mem c hx)) fun x hx => (htext x hx).1
    rw [List.cons_append, lex_cons, if_neg (by rw [isSpace_of_isNumeric hc]; decide), if_pos hc, htake, hdrop]

/-- A minus sign belongs to the number behind it where an operand is due. -/
theorem lex_negative {run text : List Char} (hne : run ≠ []) (hrun : ∀ c ∈ run, Lexeme.isNumeric c = true)
    (htext : ∀ c, text.head? = some c → Ends c) :
    Lexeme.lex true ('-' :: run ++ text) = Lexeme.ofNumber ('-' :: run) ++ Lexeme.lex false text := by
  obtain ⟨hspace, halpha, hnumeric, -⟩ := sign_class (c := '-') (by decide)
  obtain ⟨htake, hdrop⟩ := takeWhile_run hrun fun x hx => (htext x hx).1
  rw [List.cons_append, lex_cons, if_neg (by rw [hspace]; decide), if_neg (by rw [hnumeric]; decide),
    if_neg (by rw [halpha]; decide), htake, hdrop]
  exact if_pos (by simp [hne])

theorem lex_name {start : Bool} {word text : List Char} (hname : Lexeme.isName word = true)
    (htext : ∀ c, text.head? = some c → Ends c) :
    Lexeme.lex start (word ++ text) = .name (String.ofList word) :: Lexeme.lex false text := by
  cases word with
  | nil => cases hname
  | cons c word =>
    have hword : Lexeme.ofWord (c :: word) = [.name (String.ofList (c :: word))] := if_pos hname
    rw [Lexeme.isName, Bool.and_eq_true, List.all_eq_true] at hname
    obtain ⟨hspace, hnumeric, halpha⟩ := isAlpha_class hname.1
    obtain ⟨htake, hdrop⟩ := takeWhile_run (fun x hx => isWordChar_of_isNameChar (hname.2 x hx))
      fun x hx => (htext x hx).2
    rw [List.cons_append, lex_cons, if_neg (by rw [hspace]; decide), if_neg (by rw [hnumeric]; decide),
      if_pos halpha, htake, hdrop, hword]
    rfl

theorem lex_sign {start : Bool} {c : Char} {text : List Char} (hc : c ∈ signs)
    (hstart : c = '-' → start = false) :
    Lexeme.lex start (c :: text) = Lexeme.ofSign c ++ Lexeme.lex (Lexeme.expectsOperand c) text := by
  obtain ⟨hspace, halpha, hnumeric, -⟩ := sign_class hc
  have hminus : ¬(decide (c = '-') && start && text.takeWhile Lexeme.isNumeric != []) = true := by
    by_cases heq : c = '-'
    · simp [hstart heq]
    · simp [heq]
  rw [lex_cons, if_neg (by rw [hspace]; decide), if_neg (by rw [hnumeric]; decide),
    if_neg (by rw [halpha]; decide), if_neg hminus]

namespace Literal

theorem digits_ne_nil (l : Literal) : l.digits ≠ [] := fun hnil => by
  have hreads := l.reads
  rw [hnil] at hreads
  cases hreads

theorem splitSign_digits (l : Literal) : Reading.splitSign l.digits = (false, l.digits) := by
  have hnumeric := l.numeric
  unfold Reading.splitSign
  split
  · next rest hdigits =>
    rw [hdigits] at hnumeric
    cases hnumeric '-' List.mem_cons_self
  · next rest hdigits =>
    rw [hdigits] at hnumeric
    cases hnumeric '+' List.mem_cons_self
  · rfl

theorem number?_text (l : Literal) : Reading.number? l.text = some l.value := by
  have hreads := l.reads
  rw [Reading.number?, l.splitSign_digits] at hreads
  cases hnegative : l.negative with
  | false =>
    rw [text, value, hnegative]
    exact l.reads
  | true =>
    obtain ⟨x, hx, hvalue⟩ := Option.map_eq_some_iff.mp hreads
    rw [text, value, hnegative]
    show ((Reading.word? l.digits).or (Reading.decimal? l.digits)).map (fun x => -x) = some (-l.magnitude)
    rw [hx]
    exact congrArg (fun x : Float => some (-x)) hvalue

end Literal

theorem lex_piece (piece : Piece) {text : List Char}
    (htext : piece.dueBehind = false → ∀ c, text.head? = some c → Ends c) :
    Lexeme.lex piece.dueBefore (piece.text ++ text) = piece.lexeme :: Lexeme.lex piece.dueBehind text := by
  cases piece with
  | literal l =>
    have hnumber : Lexeme.ofNumber l.text = [.number l.value] := by rw [Lexeme.ofNumber, l.number?_text]; rfl
    show Lexeme.lex true (l.text ++ text) = [.number l.value] ++ Lexeme.lex false text
    rw [← hnumber]
    cases hnegative : l.negative with
    | false =>
      rw [Literal.text, hnegative]
      exact lex_number l.digits_ne_nil l.numeric (htext rfl)
    | true =>
      rw [Literal.text, hnegative]
      exact lex_negative l.digits_ne_nil l.numeric (htext rfl)
  | name n => exact lex_name n.proper (htext rfl)
  | operator op =>
    have hsign : Lexeme.ofSign op.char = [.operator op] := by cases op <;> rfl
    have hdue : Lexeme.expectsOperand op.char = true := by cases op <;> rfl
    have hlex : Lexeme.lex false (op.char :: text) = _ := lex_sign op.char_mem fun _ => rfl
    rw [hsign, hdue] at hlex
    exact hlex
  | openParen => exact lex_sign (by decide) (by decide)
  | closeParen => exact lex_sign (by decide) (by decide)

/-- A text has the lexemes of the pieces that it spells. -/
theorem Layout.lex {pieces : List Piece} {text : List Char} (h : Layout pieces text) :
    ∀ {due : Bool}, Alternates due pieces → Lexeme.lex due text = pieces.map Piece.lexeme := by
  induction h with
  | nil hspaces =>
    intro due _
    have hlex : Lexeme.lex due (_ ++ []) = Lexeme.lex due [] := lex_spaces hspaces
    rw [List.append_nil, lex_nil] at hlex
    exact hlex
  | cons hspaces piece rest ih =>
    intro due hturn
    obtain ⟨rfl, hrest⟩ := hturn
    rw [lex_spaces hspaces, lex_piece piece fun hdue => rest.ends (hdue ▸ hrest), ih hrest, List.map_cons]

end DrillCode.Formula
