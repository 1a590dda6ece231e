import DrillCode.Number.Numeral
import DrillCode.Proofs.Json.Number
import DrillCode.Proofs.Number.Binary64

/-! # Texts tell numbers apart

A numeral stands for a number in tens. The one that a layout gives for a floating-point number rounds to it, so
no other floating-point number is written alike. -/

namespace DrillCode

/-! ### Digits -/

namespace Digit

@[simp] theorem length_last (width n : Nat) : (last width n).length = width := by
  induction width generalizing n with
  | zero => rfl
  | succ width ih => simp [last, ih]

theorem append_concat (n : Nat) (digits : List Digit) (d : Digit) :
    append n (digits ++ [d]) = 10 * append n digits + d.val := by
  simp [append]

/-- The last digits of a number spell what is left of it. -/
theorem append_last (width n : Nat) : append 0 (last width n) = n % 10 ^ width := by
  induction width generalizing n with
  | zero => simp [last, append, Nat.mod_one]
  | succ width ih =>
    have hdigit : (Fin.ofNat 10 n).val = n % 10 := rfl
    rw [last, append_concat, ih, hdigit, Nat.pow_succ', Nat.mod_mul]
    omega

end Digit

/-! ### Numerals -/

namespace Numeral

/-- The number that a numeral stands for, without its sign. -/
def magnitude (n : Numeral) : ℚ :=
  (n.whole + Digit.append 0 n.fraction / 10 ^ n.fraction.length) * 10 ^ n.exponent.getD 0

/-- Digits are put behind the point, and the number is smaller by a power of ten. -/
theorem whole_add_fraction (c width : Nat) :
    ((c / 10 ^ width : Nat) + (Digit.append 0 (Digit.last width c) : ℚ) / 10 ^ (Digit.last width c).length : ℚ) =
      c / 10 ^ width := by
  have hsplit : ((10 ^ width * (c / 10 ^ width) + c % 10 ^ width : Nat) : ℚ) = c := by rw [Nat.div_add_mod]
  rw [Digit.append_last, Digit.length_last, ← hsplit]
  push_cast
  field_simp

theorem magnitude_positional (negative point : Bool) (c : Nat) (k : Int) :
    (positional negative point c k).magnitude = c * 10 ^ k := by
  unfold positional
  split
  · next hk =>
    obtain ⟨n, rfl⟩ := Int.eq_ofNat_of_zero_le hk
    cases point <;> simp [magnitude, Digit.append, Digit.zero]
  · next hk =>
    have hwidth : -k = ((-k).toNat : Int) := by omega
    have hpow : (10 : ℚ) ^ k = (10 ^ (-k).toNat)⁻¹ := by
      rw [← zpow_natCast, ← hwidth, zpow_neg, inv_inv]
    rw [magnitude, whole_add_fraction, hpow, Option.getD_none, zpow_zero, mul_one, div_eq_mul_inv]

theorem magnitude_scientific (negative : Bool) (c : Nat) (k : Int) :
    (scientific negative c k).magnitude = c * 10 ^ k := by
  rw [scientific, magnitude, whole_add_fraction, Option.getD_some, zpow_add₀ (by norm_num), zpow_natCast]
  field_simp

@[simp] theorem negative_positional (negative point : Bool) (c : Nat) (k : Int) :
    (positional negative point c k).negative = negative := by
  unfold positional
  split <;> rfl

@[simp] theorem exponent_positional (negative point : Bool) (c : Nat) (k : Int) :
    (positional negative point c k).exponent = none := by
  unfold positional
  split <;> rfl

end Numeral

/-! ### Layouts -/

namespace Layout
variable {negative negative' : Bool} {m m' : Nat} {q q' : Int}

@[simp] theorem negative_numeral (layout : Layout) (negative : Bool) (m : Nat) (q : Int) :
    (layout.numeral negative m q).negative = negative := by
  unfold numeral
  split
  · simp
  · dsimp only
    split
    · simp
    · rfl

/-- However a number is laid out, its numeral rounds to it. -/
theorem roundsTo_numeral (layout : Layout) (negative : Bool) (m : Nat) (q : Int) :
    Shortest.RoundsTo (layout.numeral negative m q).magnitude m q := by
  unfold numeral
  split
  · next hm =>
    have hself := Shortest.roundsTo_self m q
    rw [hm] at hself ⊢
    simpa [Numeral.magnitude_positional] using hself
  · have hround := Shortest.roundsTo_decimal layout.tie m q
    dsimp only
    split
    · rwa [Numeral.magnitude_positional]
    · rwa [Numeral.magnitude_scientific]

/-- A floating-point number is determined by its numeral. -/
theorem numeral_injective {layout : Layout} (hm : Shortest.IsCanonical m q) (hm' : Shortest.IsCanonical m' q')
    (h : layout.numeral negative m q = layout.numeral negative' m' q') : negative = negative' ∧ m = m' ∧ q = q' := by
  have hround := layout.roundsTo_numeral negative m q
  rw [h] at hround
  refine ⟨?_, hround.unique (layout.roundsTo_numeral negative' m' q') hm hm'⟩
  simpa using congrArg Numeral.negative h

end Layout

/-! ### Texts without exponents -/

theorem exponent_plain (negative : Bool) (m : Nat) (q : Int) : (Layout.plain.numeral negative m q).exponent = none := by
  unfold Layout.numeral
  split
  · simp
  · simp [Layout.plain]

/-- The numeral that a text is, if it is one. -/
def Numeral.ofText? (text : String) : Option Numeral := (Json.Lexeme.number? text.toList).map Prod.fst

variable {x y : Float}

theorem ofText?_plainText {negative : Bool} {m : Nat} {q : Int} (h : Binary64.value x = .finite negative m q) :
    Numeral.ofText? (plainText x) = some (Layout.plain.numeral negative m q) := by
  have htext : (Layout.plain.numeral negative m q).text false = (Layout.plain.numeral negative m q).text true := by
    simp [Numeral.text, exponent_plain]
  have hread := @Json.Lexeme.number?_text [] (Layout.plain.numeral negative m q) (fun c hc => by cases hc)
  rw [List.append_nil] at hread
  rw [Numeral.ofText?, plainText, Layout.text, h]
  dsimp only
  rw [htext, String.toList_ofList, hread]
  rfl

/-- What is not finite is written as a word, and no word is a numeral. -/
theorem ofText?_eq_none (h : ∀ negative m q, Binary64.value x ≠ .finite negative m q) :
    Numeral.ofText? (plainText x) = none := by
  cases hx : Binary64.value x with
  | nan =>
    rw [plainText, Layout.text, hx]
    rfl
  | infinite negative =>
    rw [plainText, Layout.text, hx]
    cases negative <;> rfl
  | finite negative m q => exact absurd hx (h negative m q)

theorem value_eq_of_word (hx : ∀ negative m q, Binary64.value x ≠ .finite negative m q)
    (hy : ∀ negative m q, Binary64.value y ≠ .finite negative m q) (h : plainText x = plainText y) :
    Binary64.value x = Binary64.value y := by
  rw [plainText, plainText, Layout.text, Layout.text] at h
  cases hvalue : Binary64.value x with
  | nan =>
    cases hvalue' : Binary64.value y with
    | nan => rfl
    | infinite negative => cases negative <;> simp [hvalue, hvalue'] at h
    | finite negative m q => exact absurd hvalue' (hy negative m q)
  | infinite negative =>
    cases hvalue' : Binary64.value y with
    | nan => cases negative <;> simp [hvalue, hvalue'] at h
    | infinite negative' => cases negative <;> cases negative' <;> simp [hvalue, hvalue'] at h ⊢
    | finite negative m q => exact absurd hvalue' (hy negative m q)
  | finite negative m q => exact absurd hvalue (hx negative m q)

/-- A floating-point number is determined by its text. -/
theorem plainText_injective (h : plainText x = plainText y) : x = y := by
  refine Binary64.value_injective ?_
  by_cases hx : ∃ negative m q, Binary64.value x = .finite negative m q
  · obtain ⟨negative, m, q, hx⟩ := hx
    have hread := ofText?_plainText hx
    by_cases hy : ∃ negative m q, Binary64.value y = .finite negative m q
    · obtain ⟨negative', m', q', hy⟩ := hy
      rw [h, ofText?_plainText hy, Option.some_inj] at hread
      obtain ⟨rfl, rfl, rfl⟩ := Layout.numeral_injective (Binary64.isCanonical_of_value hy)
        (Binary64.isCanonical_of_value hx) hread
      rw [hx, hy]
    · rw [h, ofText?_eq_none (by simpa using hy)] at hread
      cases hread
  · have hx' : ∀ negative m q, Binary64.value x ≠ .finite negative m q := by simpa using hx
    refine value_eq_of_word hx' (fun negative m q hy => ?_) h
    have hread := ofText?_plainText hy
    rw [← h, ofText?_eq_none hx'] at hread
    cases hread

/-! ### Lines -/

theorem newline_notMem_toDigits (n : Nat) : '\n' ∉ Nat.toDigits 10 n := by
  intro h
  have hdigit := Reading.isDigit_toDigits n _ h
  cases hdigit

theorem char_ne_newline (d : Digit) : d.char ≠ '\n' := by
  intro h
  have hdigit := Json.Lexeme.isDigit_char d
  rw [h] at hdigit
  cases hdigit

theorem newline_notMem_text {n : Numeral} (h : n.exponent = none) : '\n' ∉ n.text false := by
  unfold Numeral.text
  split <;> split <;> simp [h, newline_notMem_toDigits, char_ne_newline]

theorem newline_notMem_plainText (x : Float) : '\n' ∉ (plainText x).toList := by
  rw [plainText, Layout.text]
  split
  · simp
  · split <;> simp
  · next negative m q _ =>
    rw [String.toList_ofList]
    exact newline_notMem_text (exponent_plain negative m q)

end DrillCode
