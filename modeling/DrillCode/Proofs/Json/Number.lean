import DrillCode.Json.Printer
import DrillCode.Json.Parser
import DrillCode.Proofs.Number.Whole
import Mathlib.Data.List.Infix

/-! # Numerals are read back

The text of a numeral, in front of anything with which a number cannot go on, is read as the numeral. -/

namespace DrillCode.Json.Lexeme
variable {text rest : List Char}

/-- No number goes on with the text. -/
def Ends (text : List Char) : Prop :=
  ∀ c, text.head? = some c → Reading.isDigit c = false ∧ c ≠ '.' ∧ c ≠ 'e' ∧ c ≠ 'E'

theorem ends_cons {c : Char} (hc : Reading.isDigit c = false ∧ c ≠ '.' ∧ c ≠ 'e' ∧ c ≠ 'E')
    (text : List Char) : Ends (c :: text) := by
  intro first h
  obtain rfl : c = first := Option.some.inj h
  exact hc

theorem Ends.append (htext : Ends text) (hrest : Ends rest) : Ends (text ++ rest) := by
  cases text with
  | nil => exact hrest
  | cons c text => exact htext

theorem ofChar?_char (d : Digit) : Digit.ofChar? d.char = some d := by
  revert d
  decide

theorem isDigit_char (d : Digit) : Reading.isDigit d.char = true := by
  rw [Reading.isDigit, ofChar?_char]
  rfl

theorem filterMap_char : ∀ ds : List Digit, (ds.map Digit.char).filterMap Digit.ofChar? = ds
  | [] => rfl
  | d :: ds => by rw [List.map_cons, List.filterMap_cons_some (ofChar?_char d), filterMap_char ds]

theorem length_filterMap_ofChar? : ∀ {text : List Char}, (∀ c ∈ text, c.isDigit = true) →
    (text.filterMap Digit.ofChar?).length = text.length
  | [], _ => rfl
  | c :: text, h => by
    obtain ⟨d, hd, -⟩ := Reading.ofChar?_of_isDigit (h c List.mem_cons_self)
    rw [List.filterMap_cons_some hd, List.length_cons, List.length_cons,
      length_filterMap_ofChar? fun x hx => h x (List.mem_cons_of_mem c hx)]

theorem length_filterMap_toDigits (n : Nat) :
    ((Nat.toDigits 10 n).filterMap Digit.ofChar?).length = (Nat.toDigits 10 n).length :=
  length_filterMap_ofChar? (Reading.isDigit_toDigits n)

theorem isEmpty_toDigits (n : Nat) : ((Nat.toDigits 10 n).filterMap Digit.ofChar?).isEmpty = false := by
  rw [List.isEmpty_eq_false_iff, ← List.length_pos_iff, length_filterMap_toDigits]
  exact List.length_pos_iff.mpr Nat.toDigits_ne_nil

theorem digits_append (htext : ∀ c ∈ text, Reading.isDigit c = true)
    (hrest : ∀ c, rest.head? = some c → Reading.isDigit c = false) :
    digits (text ++ rest) = text.filterMap Digit.ofChar? := by
  have hnone : rest.takeWhile Reading.isDigit = [] := by
    cases rest with
    | nil => rfl
    | cons c rest => exact List.takeWhile_cons_of_neg (by rw [hrest c rfl]; exact Bool.false_ne_true)
  rw [digits, List.takeWhile_append_of_pos htext, hnone, List.append_nil]

theorem digits_toDigits (n : Nat) (hrest : ∀ c, rest.head? = some c → Reading.isDigit c = false) :
    digits (Nat.toDigits 10 n ++ rest) = (Nat.toDigits 10 n).filterMap Digit.ofChar? :=
  digits_append (fun c hc => Reading.isDigit_of_isDigit (Reading.isDigit_toDigits n c hc)) hrest

theorem digits_map_char (ds : List Digit) (hrest : ∀ c, rest.head? = some c → Reading.isDigit c = false) :
    digits (ds.map Digit.char ++ rest) = ds := by
  rw [digits_append (fun c hc => ?_) hrest, filterMap_char]
  obtain ⟨d, -, rfl⟩ := List.mem_map.mp hc
  exact isDigit_char d

theorem head?_toDigits {n : Nat} (hn : 0 < n) : (Nat.toDigits 10 n).head? ≠ some '0' := by
  induction n using Nat.strongRecOn with
  | ind n ih =>
    rcases Nat.lt_or_ge n 10 with hlt | hge
    · have hfirst : ∀ n < 10, 0 < n → [n.digitChar].head? ≠ some '0' := by decide
      rw [Nat.toDigits_of_lt_base hlt]
      exact hfirst n hlt hn
    · -- The first digit of a number is that of its tenth part.
      rw [Nat.toDigits_of_base_le (by decide) hge, List.head?_append_of_ne_nil _ Nat.toDigits_ne_nil]
      exact ih (n / 10) (by omega) (by omega)

/-- A number is written without a zero in front of other digits. -/
theorem leadingZero_toDigits (n : Nat) :
    (1 < ((Nat.toDigits 10 n).filterMap Digit.ofChar?).length &&
      ((Nat.toDigits 10 n).filterMap Digit.ofChar?).head? == some Digit.zero) = false := by
  rcases Nat.eq_zero_or_pos n with rfl | hn
  · rfl
  · obtain ⟨c, text, htext, hc⟩ := Reading.toDigits_eq_cons n
    obtain ⟨d, hd, hvalue⟩ := Reading.ofChar?_of_isDigit hc
    have hzero : c ≠ '0' := fun h => head?_toDigits hn (by rw [htext, h]; rfl)
    have hpos : d ≠ Digit.zero := by
      rintro rfl
      have hcode := Reading.code_of_isDigit hc
      have hvalue : 0 = c.toNat - 48 := hvalue
      have htoNat : c.toNat = 48 := by omega
      exact hzero (Char.toNat_inj.mp htoNat)
    have hhead : (some d == some Digit.zero) = false := beq_eq_false_iff_ne.mpr fun h => hpos (Option.some.inj h)
    rw [htext, List.filterMap_cons_some hd, List.head?_cons, hhead, Bool.and_false]

theorem append_toDigits (n : Nat) : Digit.append 0 ((Nat.toDigits 10 n).filterMap Digit.ofChar?) = n :=
  Reading.numberOf_toDigits n

/-- The text of what stands behind the point, with the point. -/
def fractionText (fraction : List Digit) : List Char :=
  if fraction.isEmpty then [] else '.' :: fraction.map Digit.char

theorem fraction?_text (fraction : List Digit)
    (hrest : ∀ c, rest.head? = some c → Reading.isDigit c = false ∧ c ≠ '.') :
    fraction? (fractionText fraction ++ rest) = some (fraction, (fractionText fraction).length) := by
  cases fraction with
  | nil =>
    show fraction? rest = some ([], 0)
    unfold fraction?
    split
    · next h => exact absurd rfl (hrest '.' rfl).2
    · rfl
  | cons d ds =>
    show fraction? ('.' :: ((d :: ds).map Digit.char ++ rest)) = _
    rw [fraction?, digits_map_char (d :: ds) fun c hc => (hrest c hc).1]
    simp [fractionText]

/-- The sign of an exponent; every one has a sign. -/
def exponentSign (e : Int) : Char :=
  if e < 0 then '-' else '+'

theorem exponentText_eq (e : Int) :
    Numeral.exponentText true e = 'e' :: exponentSign e :: Nat.toDigits 10 e.natAbs := by
  rw [Numeral.exponentText, exponentSign]
  split <;> rfl

theorem splitSign_exponentSign (e : Int) (text : List Char) :
    Reading.splitSign (exponentSign e :: text) = (decide (e < 0), text) := by
  by_cases he : e < 0
  · rw [exponentSign, if_pos he, decide_eq_true he]
    rfl
  · rw [exponentSign, if_neg he, decide_eq_false he]
    rfl

theorem exponent?_text (exponent : Option Int) (hrest : Ends rest) :
    exponent? (exponent.elim [] (Numeral.exponentText true) ++ rest) =
      some (exponent, (exponent.elim [] (Numeral.exponentText true)).length) := by
  cases exponent with
  | none =>
    show exponent? rest = some (none, 0)
    cases rest with
    | nil => rfl
    | cons c rest =>
      obtain ⟨-, -, he, hE⟩ := hrest c rfl
      rw [exponent?, if_neg (by simp [he, hE])]
  | some e =>
    have hdigits := digits_toDigits e.natAbs fun c hc => (hrest c hc).1
    have hsome := isEmpty_toDigits e.natAbs
    have hvalue : (if decide (e < 0) then -(e.natAbs : Int) else e.natAbs) = e := by
      simp only [decide_eq_true_eq]
      split <;> omega
    show exponent? (Numeral.exponentText true e ++ rest) = some (some e, (Numeral.exponentText true e).length)
    rw [exponentText_eq, List.cons_append, List.cons_append, exponent?, if_pos (by decide)]
    simp only [splitSign_exponentSign, hdigits, hsome, append_toDigits, length_filterMap_toDigits, hvalue]
    simp

/-- The text of a numeral without its sign. -/
def magnitudeText (n : Numeral) : List Char :=
  Nat.toDigits 10 n.whole ++ (fractionText n.fraction ++ n.exponent.elim [] (Numeral.exponentText true))

theorem text_eq (n : Numeral) :
    n.text true = (if n.negative then ['-'] else []) ++ magnitudeText n := by
  simp only [Numeral.text, magnitudeText, fractionText, List.append_assoc]

theorem ends_exponent (exponent : Option Int) (hrest : Ends rest) {c : Char}
    (hc : (exponent.elim [] (Numeral.exponentText true) ++ rest).head? = some c) :
    Reading.isDigit c = false ∧ c ≠ '.' := by
  cases exponent with
  | none => exact ⟨(hrest c hc).1, (hrest c hc).2.1⟩
  | some e =>
    rw [Option.elim_some, exponentText_eq] at hc
    obtain rfl : 'e' = c := Option.some.inj hc
    decide

theorem ends_fraction (fraction : List Digit) (hrest : ∀ c, rest.head? = some c → Reading.isDigit c = false)
    {c : Char} (hc : (fractionText fraction ++ rest).head? = some c) : Reading.isDigit c = false := by
  cases fraction with
  | nil => exact hrest c hc
  | cons d ds =>
    obtain rfl : '.' = c := Option.some.inj hc
    decide

theorem number?_minus {text : List Char} (h : ∀ body, text ≠ '-' :: body) :
    number? ('-' :: text) =
      (number? text).map fun (n, taken) => ({ n with negative := true }, taken + 1) := by
  rw [number?, number?.eq_2 text h]
  dsimp only
  split
  · rfl
  · cases fraction? (text.drop (digits text).length) with
    | none => rfl
    | some fraction =>
      simp only [Option.bind_eq_bind, Option.bind_some]
      cases exponent? ((text.drop (digits text).length).drop fraction.2) with
      | none => rfl
      | some exponent =>
        refine congrArg some (Prod.ext rfl ?_)
        show 1 + _ + _ + _ = 0 + _ + _ + _ + 1
        omega

theorem toDigits_append_ne_minus (n : Nat) (rest body : List Char) :
    Nat.toDigits 10 n ++ rest ≠ '-' :: body := by
  obtain ⟨c, text, h, hc⟩ := Reading.toDigits_eq_cons n
  rw [h, List.cons_append]
  intro heq
  cases heq
  cases hc

theorem number?_magnitudeText (n : Numeral) (hrest : Ends rest) :
    number? (magnitudeText n ++ rest) = some ({ n with negative := false }, (magnitudeText n).length) := by
  obtain ⟨negative, whole, fraction, exponent⟩ := n
  -- Each part ends where the next one begins: no digit is behind the first one, no digit and no point behind
  -- the fraction.
  have hend : ∀ c, (exponent.elim [] (Numeral.exponentText true) ++ rest).head? = some c →
      Reading.isDigit c = false ∧ c ≠ '.' := fun c hc => ends_exponent exponent hrest hc
  have hexponent := exponent?_text exponent hrest
  have hfraction := fraction?_text fraction hend
  have hdigits := digits_toDigits whole fun c hc => ends_fraction fraction (fun c hc => (hend c hc).1) hc
  simp only [magnitudeText, List.append_assoc]
  rw [number?.eq_2 _ (toDigits_append_ne_minus whole _), hdigits, isEmpty_toDigits, leadingZero_toDigits]
  simp only [hfraction, hexponent, List.drop_left, Option.bind_eq_bind, Option.bind_some, append_toDigits,
    length_filterMap_toDigits]
  simp [Nat.add_assoc]

theorem number?_text (n : Numeral) (hrest : Ends rest) :
    number? (n.text true ++ rest) = some (n, (n.text true).length) := by
  have hmagnitude := number?_magnitudeText n hrest
  obtain ⟨negative, whole, fraction, exponent⟩ := n
  rw [text_eq]
  cases negative with
  | false => exact hmagnitude
  | true =>
    have hsign : ∀ body, magnitudeText ⟨true, whole, fraction, exponent⟩ ++ rest ≠ '-' :: body := by
      intro body
      rw [magnitudeText, List.append_assoc]
      exact toDigits_append_ne_minus whole _ body
    rw [if_pos rfl, List.append_assoc, List.singleton_append, number?_minus hsign, hmagnitude]
    rfl

end DrillCode.Json.Lexeme
