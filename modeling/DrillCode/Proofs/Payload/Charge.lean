import DrillCode.Proofs.Bits.Covers
import DrillCode.Proofs.Number.Whole
import DrillCode.Proofs.Payload.Closed
import DrillCode.Proofs.Payload.Starts
import Mathlib.Algebra.Order.BigOperators.Group.List
import Mathlib.Algebra.Order.Ring.Nat

/-! # What an exercise is charged for

A token has no more than nine characters for eight bits of its code: a character of a name takes seven bits at least, a
decimal digit of an integer takes one binary digit at least, and of the operators only the longest placeholder reaches
the nine. Nor has a token that has a text a code of fewer than four bits. So at nine for each bit both the characters of
an exercise are paid for and the ten bits that none is shorter than. -/

namespace DrillCode

open Scan (Covers)

/-! ### Texts and numbers -/

namespace TextField

theorem length_unitBits (width : Nat) (units : List Nat) :
    (unitBits width units).length = width * (units.length + 1) := by
  induction units with
  | nil => exact (Bits.length_ofNat width terminator).trans (Nat.mul_one width).symm
  | cons unit units ih =>
    rw [unitBits] at ih ⊢
    rw [List.flatMap_cons, List.append_assoc, List.length_append, Bits.length_ofNat, ih, List.length_cons,
      Nat.mul_succ width (units.length + 1), Nat.add_comm]

/-- The two bits in front of a text and the end behind it are paid for as well. -/
theorem Codes.length_le {text : String} {code : List Bool} (h : Codes text code) :
    8 * text.length + 9 * 9 ≤ 9 * code.length := by
  cases h with
  | @ascii units h =>
    rw [List.length_append, Bits.length_ofNat, length_unitBits, String.length_ofList, List.length_map]
    omega
  | @utf8 units h =>
    have hdecode := Text.Utf8.length_decode_le (units.map UInt8.ofNat)
    rw [List.length_map] at hdecode
    rw [List.length_append, Bits.length_ofNat, length_unitBits, String.length_ofList]
    omega

theorem readText_covers : Covers 9 (fun text => 8 * text.length + 9 * 9) readText :=
  .of_consumes (readText_advances.mono (Nat.zero_le 9)) readText_consumes fun _ _ => Codes.length_le

end TextField

namespace Elias

theorem width_le_length_code {n : Nat} (hn : n ≠ 0) : width n ≤ (code n).length := by
  have hpos := width_pos (Nat.ne_of_gt (width_pos hn))
  rw [code, List.length_append, List.length_append, Bits.length_ofNat, Bits.length_ofNat]
  omega

theorem readUnsigned_covers (k : Nat) : Covers k (fun n => k * width n) readUnsigned :=
  .of_consumes (readUnsigned_advances.mono (Nat.zero_le 1)) readUnsigned_consumes fun _ _ ⟨hne, _, hcode⟩ =>
    Nat.mul_le_mul_left k (hcode ▸ width_le_length_code hne)

end Elias

/-- A number has no more decimal digits than binary ones. -/
theorem Whole.length_toDigits_le {n : Nat} (hn : n ≠ 0) : (Nat.toDigits 10 n).length ≤ Elias.width n :=
  (Nat.length_toDigits_le_iff (by decide) (Elias.width_pos hn)).mpr
    (Nat.lt_of_lt_of_le (Elias.lt_pow_width n) (Nat.pow_le_pow_left (by decide) _))

theorem Whole.length_toString_le (value : Int) :
    (toString value).toList.length ≤ Elias.width value.natAbs + 1 := by
  rw [toList_toString]
  by_cases hzero : value.natAbs = 0
  · rw [hzero, if_neg (by omega)]
    decide
  · have hdigits := length_toDigits_le hzero
    split
    · exact Nat.succ_le_succ hdigits
    · exact Nat.le_succ_of_le hdigits

/-! ### Tokens -/

namespace Token

/-- What a text is charged for: its characters, and the bits of the shortest token that has one. -/
def charge (text : List Char) : Nat := if text = [] then 0 else max (9 * 4) (8 * text.length)

theorem charge_nil : charge [] = 0 := rfl

theorem charge_of_ne_nil {text : List Char} (h : text ≠ []) : charge text = max 36 (8 * text.length) := if_neg h

theorem charge_le (text : List Char) : charge text ≤ max 36 (8 * text.length) := by
  unfold charge
  split
  · exact Nat.zero_le _
  · exact Nat.le_refl _

theorem length_le_charge (text : List Char) : 8 * text.length ≤ charge text := by
  cases text with
  | nil => exact Nat.le_refl 0
  | cons c text => exact Nat.le_max_right _ _

theorem charge_append_le (text more : List Char) : charge (text ++ more) ≤ charge text + charge more := by
  cases text with
  | nil => exact Nat.le_add_left _ _
  | cons c text =>
    have hmore := length_le_charge more
    have hboth := charge_le (c :: text ++ more)
    rw [List.length_append] at hboth
    rw [charge_of_ne_nil (List.cons_ne_nil c text)]
    omega

/-- White space at the ends is charged for and then left out. -/
theorem charge_trim_le (text : List Char) : charge (Text.trim text) ≤ charge text := by
  have hlength := (Text.trim_isInfix text).length_le
  by_cases htrim : Text.trim text = []
  · rw [htrim]
    exact Nat.zero_le _
  · have htext : text ≠ [] := fun hnil => htrim (by rw [hnil]; rfl)
    rw [charge_of_ne_nil htrim, charge_of_ne_nil htext]
    omega

theorem length_extendedText_le (number : Nat) : (extendedText number).length ≤ 9 := by
  have hfinite : ∀ n < 16, (extendedText n).length ≤ 9 := by decide
  have hmod : extendedText number = extendedText (number % 16) := by
    unfold extendedText
    rw [Nat.mod_mod]
  rw [hmod]
  exact hfinite _ (Nat.mod_lt _ (by decide))

/-- The bit before, which says that the token is an operator, pays as well. -/
theorem readOperator_covers :
    Covers 9 (fun found : Option Token => charge (found.elim [] text) - 9) readOperator := by
  refine ((readBits_advances 3).covers 9).bind fun number => ?_
  split
  case h_8 =>
    refine ((readBits_advances 4).covers 9).map fun number => ?_
    have hcharge := charge_le (extendedText number)
    have hle := length_extendedText_le number
    dsimp only [Option.elim_some, text]
    omega
  all_goals exact .pure (by decide)

theorem readInteger_covers : Covers 9 (fun token => charge token.text - 36) readInteger := by
  refine (readBit_advances.covers 9).bind fun negative => (Elias.readUnsigned_covers 9).bind fun magnitude => .pure ?_
  have hle := Whole.length_toString_le (if negative then -(magnitude : Int) else magnitude)
  have habs : (if negative then -(magnitude : Int) else magnitude).natAbs = magnitude := by
    split <;> omega
  have hcharge := charge_le (integer (if negative then -(magnitude : Int) else magnitude)).text
  rw [habs] at hle
  rw [text] at hcharge ⊢
  omega

theorem readConstant_covers : Covers 9 (fun token => charge token.text - 18) readConstant := by
  refine ((readBits_advances 2).covers 9).bind fun kind => ?_
  split
  · exact readInteger_covers.mono fun token => by omega
  · exact .pure (by decide)
  · exact .pure (Nat.le_of_eq (by rw [text, charge_nil]))

theorem readOperand_covers : Covers 9 (fun token => charge token.text) readOperand := by
  refine ((readBits_advances 2).covers 9).bind fun kind => ?_
  split
  · refine TextField.readText_covers.map fun text => ?_
    have hcharge := charge_le text.toList
    rw [String.length_toList] at hcharge
    rw [Token.text]
    omega
  · exact readConstant_covers
  · exact .pure (Nat.le_of_eq (Nat.zero_sub _))

theorem read_covers : Covers 9 (fun found : Option Token => charge (found.elim [] text)) read := by
  refine (readBit_advances.covers 9).bind fun operator => ?_
  split
  · exact readOperator_covers
  · exact readOperand_covers.map fun token => Nat.sub_le _ _

end Token

theorem TokenRun.exists_charge_le (room : Nat) (r : BitReader) :
    ∃ n, r.Ahead n (read room r).rest ∧ Token.charge (rawText (read room r).tokens) ≤ 9 * n := by
  fun_induction read room r with simp only [Token.ifRemaining_read] at *
  | case1 room r e rest hread => exact ⟨0, Token.read_advances.error hread, Nat.le_refl 0⟩
  | case2 room r rest hread => exact ⟨3, Token.read_advances.ok hread, Nat.zero_le _⟩
  | case3 room r token rest hread hcap =>
    rw [rawText, List.flatMap_singleton]
    exact Token.read_covers r (some token) rest hread
  | case4 room r token rest hread hfit run ih =>
    obtain ⟨m, hfront, hm⟩ := Token.read_covers r (some token) rest hread
    obtain ⟨n, hback, hn⟩ := ih
    refine ⟨m + n, hfront.trans hback, ?_⟩
    calc Token.charge (token.text ++ rawText run.tokens)
      _ ≤ Token.charge token.text + Token.charge (rawText run.tokens) := Token.charge_append_le _ _
      _ ≤ 9 * m + 9 * n := Nat.add_le_add hm hn
      _ = 9 * (m + n) := (Nat.mul_add 9 m n).symm

theorem TokenRun.length_rawText_le (room : Nat) (r : BitReader) :
    8 * (rawText (read room r).tokens).length ≤ 9 * r.unread.length := by
  obtain ⟨n, hahead, hn⟩ := exists_charge_le room r
  have hle := hahead.length_le
  have hlength := Token.length_le_charge (rawText (read room r).tokens)
  omega

/-! ### Exercises -/

namespace Exercise

theorem length_template (question expression : String) :
    (template question expression).length = (template question "").length + expression.length := by
  unfold template
  split
  · exact (Nat.zero_add _).symm
  · simp only [String.length_append, String.length_empty, Nat.add_zero]

theorem readQuestion_covers : Covers 9 (fun question => 9 + 8 * (template question "").length) readQuestion := by
  refine (readBit_advances.covers 9).bind fun present => ?_
  split
  · refine TextField.readText_covers.mono fun question => ?_
    have hlength : (template question "").length ≤ question.length + 2 := by
      unfold template
      split
      · exact Nat.zero_le _
      · rw [String.length_append, String.length_append]
        exact Nat.le_refl _
    omega
  · exact .pure (Nat.le_refl 0)

theorem eq_of_readExpression {cap : Nat} {r rest : BitReader} {text : List Char}
    (h : readExpression cap r = .ok text rest) :
    text = (TokenRun.read cap r).text ∧ rest = (TokenRun.read cap r).rest := by
  unfold readExpression at h
  dsimp only at h
  split at h
  · split at h <;> cases h
    exact ⟨rfl, rfl⟩
  · cases h
    exact ⟨rfl, rfl⟩

theorem readExpression_covers (cap : Nat) : Covers 9 Token.charge (readExpression cap) := by
  intro r text rest h
  obtain ⟨rfl, rfl⟩ := eq_of_readExpression h
  obtain ⟨n, hahead, hn⟩ := TokenRun.exists_charge_le cap r
  exact ⟨n, hahead, Nat.le_trans (Token.charge_trim_le _) hn⟩

/-- What an exercise is charged for: the bits of the shortest one, or the characters of its template. -/
def charge (e : Exercise) : Nat := max (9 * 10) (8 * e.expression.length)

theorem readBody_covers (cap : Nat) :
    Covers 9 (fun found : Option Exercise => found.elim 0 charge - 18) (readBody cap) := by
  refine readQuestion_covers.bind fun question => (readExpression_covers cap).bind fun text => ?_
  split
  · exact .pure (by simp)
  · next htext =>
    have hcost : Token.charge text = max 36 (8 * text.length) := Token.charge_of_ne_nil (by simpa using htext)
    refine (TagList.read_advances.covers 9).bind fun tags => .pure ?_
    have hlength := length_template question (String.ofList text)
    rw [String.length_ofList] at hlength
    rw [Option.elim_some, charge, hlength, hcost]
    omega

theorem read_covers (cap : Nat) : Covers 9 (fun found : Option Exercise => found.elim 0 charge) (read cap) := by
  refine ((peekBits_advances 2).covers 9).bind fun marker => ?_
  split
  · exact ((skipBits_advances 2).covers 9).bind fun _ => readBody_covers cap
  · exact .pure (Nat.le_refl 0)

end Exercise

/-! ### All exercises -/

namespace Attempt

/-- Reading again behind damage does not charge bits twice. -/
theorem sum_charge_le (cap : Nat) (r : BitReader) :
    ((exercises cap r).map Exercise.charge).sum ≤ 9 * r.unread.length := by
  induction r using readAll_induction cap with
  | ends r rest hread =>
    rw [exercises_of_none hread]
    exact Nat.zero_le _
  | finds r found rest hread ih =>
    obtain ⟨n, hahead, hn⟩ := Exercise.read_covers cap r (some found) rest hread
    have hle := hahead.length_le
    rw [exercises_of_some hread, List.map_cons, List.sum_cons]
    dsimp only [Option.elim_some] at hn
    omega
  | stops r e rest hread hrest =>
    rw [exercises_of_error hread, if_pos hrest]
    exact Nat.zero_le _
  | restarts r e rest hread hrest ih =>
    have hlt := ((Exercise.read_advances cap).error hread).length_skip_lt hrest
    rw [exercises_of_error hread, if_neg hrest]
    omega

theorem length_exercises_le (cap : Nat) (r : BitReader) : 10 * (exercises cap r).length ≤ r.unread.length := by
  have hleast : 90 * (exercises cap r).length ≤ ((exercises cap r).map Exercise.charge).sum := by
    have hcard := List.card_nsmul_le_sum ((exercises cap r).map Exercise.charge) 90 fun charge hcharge => by
      obtain ⟨e, -, rfl⟩ := List.mem_map.mp hcharge
      exact Nat.le_max_left _ _
    rwa [List.length_map, Nat.nsmul_eq_mul, Nat.mul_comm] at hcard
  have hsum := sum_charge_le cap r
  omega

theorem length_expression_le {cap : Nat} {r : BitReader} {e : Exercise} (h : e ∈ exercises cap r) :
    8 * e.expression.length ≤ 9 * r.unread.length := by
  have hsum := sum_charge_le cap r
  have hmem : e.charge ≤ ((exercises cap r).map Exercise.charge).sum :=
    List.single_le_sum (fun _ _ => Nat.zero_le _) _ (List.mem_map_of_mem h)
  have hmax : 8 * e.expression.length ≤ e.charge := Nat.le_max_right _ _
  omega

end Attempt
end DrillCode
