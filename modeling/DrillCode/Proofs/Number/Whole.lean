import DrillCode.Number.Reading
import DrillCode.Proofs.Text.Letters
import Mathlib.Data.List.TakeWhile

/-! # Whole numbers are read back

The decimal text of a whole number has digits only, with a minus sign in front of them if the number is negative.
Read as a floating-point number it is the number that is nearest to the whole one. -/

namespace DrillCode
namespace Reading

theorem code_of_isDigit {c : Char} (h : c.isDigit = true) : 48 ≤ c.toNat ∧ c.toNat < 58 := by
  rw [Text.isDigit_eq, Text.isDigitCode_iff] at h
  omega

theorem ofChar?_of_isDigit {c : Char} (h : c.isDigit = true) :
    ∃ d, Digit.ofChar? c = some d ∧ d.val = c.toNat - 48 :=
  ⟨_, dif_pos (code_of_isDigit h), rfl⟩

theorem isDigit_of_isDigit {c : Char} (h : c.isDigit = true) : isDigit c = true := by
  obtain ⟨d, hd, -⟩ := ofChar?_of_isDigit h
  rw [isDigit, hd]
  rfl

theorem toLower_of_isDigit {c : Char} (h : c.isDigit = true) : c.toLower = c := by
  refine dif_neg fun hupper => ?_
  have hlow : 65 ≤ c.toNat := UInt32.le_iff_toNat_le.mp hupper.1
  have hcode := code_of_isDigit h
  omega

/-! ### Digits -/

/-- Digits spell the same number behind any other one, whoever reads them. -/
theorem append_filterMap : ∀ {text : List Char} (n : Nat), (∀ c ∈ text, c.isDigit = true) →
    Digit.append n (text.filterMap Digit.ofChar?) = Nat.ofDigitChars 10 text n
  | [], n, _ => rfl
  | c :: text, n, h => by
    obtain ⟨d, hd, hvalue⟩ := ofChar?_of_isDigit (h c List.mem_cons_self)
    rw [List.filterMap_cons_some hd, Nat.ofDigitChars_cons, Digit.append, List.foldl_cons, hvalue]
    exact append_filterMap _ fun x hx => h x (List.mem_cons_of_mem c hx)

theorem isDigit_toDigits (n : Nat) : ∀ c ∈ Nat.toDigits 10 n, c.isDigit = true :=
  fun _ hc => Nat.isDigit_of_mem_toDigits (by decide) (by decide) hc

theorem numberOf_toDigits (n : Nat) : numberOf (Nat.toDigits 10 n) = n :=
  (append_filterMap 0 (isDigit_toDigits n)).trans Nat.ofDigitChars_ten_toDigits

theorem toDigits_eq_cons (n : Nat) : ∃ c text, Nat.toDigits 10 n = c :: text ∧ c.isDigit = true := by
  obtain ⟨c, text, h⟩ := List.exists_cons_of_ne_nil (Nat.toDigits_ne_nil (n := n) (b := 10))
  exact ⟨c, text, h, isDigit_toDigits n c (h ▸ List.mem_cons_self)⟩

/-! ### Reading -/

theorem splitSign_toDigits (n : Nat) : splitSign (Nat.toDigits 10 n) = (false, Nat.toDigits 10 n) := by
  obtain ⟨c, text, h, hc⟩ := toDigits_eq_cons n
  rw [h]
  unfold splitSign
  split
  · next heq =>
    cases heq
    cases hc
  · next heq =>
    cases heq
    cases hc
  · rfl

/-- The words for infinity and for no number start with letters. -/
theorem word?_cons {c : Char} {text : List Char} (hi : c.toLower ≠ 'i') (hn : c.toLower ≠ 'n') :
    word? (c :: text) = none := by
  have hword : ∀ {d : Char} {word : List Char}, c.toLower ≠ d →
      (String.ofList ((c :: text).map Char.toLower) == String.ofList (d :: word)) = false := by
    intro d word hd
    rw [beq_eq_false_iff_ne]
    exact fun heq => hd (List.cons.inj (String.ofList_injective heq)).1
  have hinf : (_ == "inf") = false := @hword 'i' ['n', 'f'] hi
  have hinfinity : (_ == "infinity") = false := @hword 'i' ['n', 'f', 'i', 'n', 'i', 't', 'y'] hi
  have hnan : (_ == "nan") = false := @hword 'n' ['a', 'n'] hn
  rw [word?, hinf, hinfinity, hnan]
  rfl

theorem word?_toDigits (n : Nat) : word? (Nat.toDigits 10 n) = none := by
  obtain ⟨c, text, h, hc⟩ := toDigits_eq_cons n
  rw [h]
  refine word?_cons ?_ ?_
  all_goals
    rw [toLower_of_isDigit hc]
    rintro rfl
    cases hc

theorem decimal?_toDigits (n : Nat) : decimal? (Nat.toDigits 10 n) = some (nearest n 0) := by
  have hdigits : ∀ c ∈ Nat.toDigits 10 n, isDigit c = true := fun c hc =>
    isDigit_of_isDigit (isDigit_toDigits n c hc)
  have htake : (Nat.toDigits 10 n).takeWhile isDigit = Nat.toDigits 10 n :=
    List.takeWhile_eq_self_iff.mpr hdigits
  have hdrop : (Nat.toDigits 10 n).dropWhile isDigit = [] := List.dropWhile_eq_nil_iff.mpr hdigits
  have hpoint : splitPoint (Nat.toDigits 10 n) = (Nat.toDigits 10 n, [], []) := by
    rw [splitPoint, htake, hdrop]
  have hempty : (Nat.toDigits 10 n).isEmpty = false := List.isEmpty_eq_false_iff.mpr Nat.toDigits_ne_nil
  rw [decimal?, hpoint]
  simp only [hempty, Bool.false_and, List.append_nil, numberOf_toDigits]
  rfl

/-- The text of a whole number is read as the number that is nearest to it. -/
theorem number?_digits (n : Nat) : number? (Nat.toDigits 10 n) = some (nearest n 0) := by
  rw [number?, splitSign_toDigits]
  show ((word? _).or (decimal? _)).map _ = _
  rw [word?_toDigits, decimal?_toDigits]
  rfl

theorem nearest_of_lt {n : Nat} (hn : n < wordCount) : nearest n 0 = Float.ofScientific n false 0 := by
  have hcount : digitCount n ≤ 20 := (Nat.length_toDigits_le_iff (by decide) (by decide)).mpr (Nat.lt_trans hn (by decide))
  rw [nearest]
  split
  · next hzero => rw [hzero]
  · rw [if_neg (by omega), if_neg (by omega)]
    rfl

theorem number?_toDigits {n : Nat} (hn : n < wordCount) :
    number? (Nat.toDigits 10 n) = some (Float.ofScientific n false 0) := by
  rw [number?_digits, nearest_of_lt hn]

end Reading

/-! ### The text of an integer -/

namespace Whole

/-- An integer is written with a minus sign, if it is negative, and the digits of its magnitude. -/
theorem toList_toString (value : Int) :
    (toString value).toList =
      if value < 0 then '-' :: Nat.toDigits 10 value.natAbs else Nat.toDigits 10 value.natAbs := by
  cases value with
  | ofNat n =>
    show (toString n).toList = _
    rw [Nat.toString_eq_ofList_toDigits, String.toList_ofList, if_neg (by simp)]
    rfl
  | negSucc n =>
    show ("-" ++ toString (n + 1)).toList = _
    rw [String.toList_append, Nat.toString_eq_ofList_toDigits, String.toList_ofList, String.toList_ofList,
      if_pos (Int.negSucc_lt_zero n)]
    rfl

theorem mem_toString {value : Int} {c : Char} (h : c ∈ (toString value).toList) : c = '-' ∨ c.isDigit = true := by
  rw [toList_toString] at h
  split at h
  · exact (List.mem_cons.mp h).imp_right (Reading.isDigit_toDigits _ c)
  · exact .inr (Reading.isDigit_toDigits _ c h)

end Whole
end DrillCode
