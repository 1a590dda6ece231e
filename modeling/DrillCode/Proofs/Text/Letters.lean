import DrillCode.Number.Power
import DrillCode.Text.Letters
import DrillCode.Text.Space

/-! # Letters, numbers and white space

Searching a table of ascending ranges by halving finds a number if and only if a range holds it. So of the
ASCII characters the tables hold the letters and the digits, and they hold no white space. -/

namespace DrillCode.Text
variable {bound n : Nat} {r r' : Nat × Nat}

/-! ### Ascending ranges -/

/-- The ranges start from `bound` on, none is empty, and each lies behind the one before. -/
def ascending (bound : Nat) : (ranges : List (Nat × Nat)) → Bool
  | [] => true
  | (first, last) :: ranges => bound ≤ first && first ≤ last && ascending (last + 1) ranges

theorem ascending_cons {ranges : List (Nat × Nat)} (h : ascending bound (r :: ranges) = true) :
    bound ≤ r.1 ∧ r.1 ≤ r.2 ∧ ascending (r.2 + 1) ranges = true := by
  simpa only [ascending, Bool.and_eq_true, decide_eq_true_eq, and_assoc] using h

theorem le_of_ascending : ∀ {ranges : List (Nat × Nat)} {bound i : Nat}, ascending bound ranges = true →
    ranges[i]? = some r → bound ≤ r.1 ∧ r.1 ≤ r.2
  | [], _, _, _, hr => by cases hr
  | head :: ranges, bound, 0, h, hr => by
    cases hr
    obtain ⟨hbound, hle, -⟩ := ascending_cons h
    exact ⟨hbound, hle⟩
  | head :: ranges, bound, i + 1, h, hr => by
    obtain ⟨hbound, hle, hrest⟩ := ascending_cons h
    obtain ⟨hlow, hhigh⟩ := le_of_ascending hrest hr
    exact ⟨by omega, hhigh⟩

theorem lt_of_ascending : ∀ {ranges : List (Nat × Nat)} {bound i j : Nat}, ascending bound ranges = true →
    i < j → ranges[i]? = some r → ranges[j]? = some r' → r.2 < r'.1
  | [], _, _, _, _, _, hr, _ => by cases hr
  | head :: ranges, bound, 0, j + 1, h, _, hr, hr' => by
    cases hr
    exact (le_of_ascending (ascending_cons h).2.2 hr').1
  | head :: ranges, bound, i + 1, j + 1, h, hij, hr, hr' =>
    lt_of_ascending (ascending_cons h).2.2 (Nat.lt_of_succ_lt_succ hij) hr hr'

/-! ### Searching -/

/-- Among the places that are searched, one range holds the number. -/
def Holds (ranges : Array (Nat × Nat)) (n low high : Nat) : Prop :=
  ∃ i r, low ≤ i ∧ i < high ∧ ranges[i]? = some r ∧ r.1 ≤ n ∧ n ≤ r.2

/-- A range that holds the number lies on the side of another one that the number does. -/
theorem side_of_ascending {ranges : Array (Nat × Nat)} {i middle : Nat} (h : ascending 0 ranges.toList = true)
    (hmiddle : ranges[middle]? = some r) (hi : ranges[i]? = some r') (hlow : r'.1 ≤ n) (hhigh : n ≤ r'.2) :
    (n < r.1 → i < middle) ∧ (r.2 < n → middle < i) := by
  rw [← Array.getElem?_toList] at hmiddle hi
  have hle := (le_of_ascending h hmiddle).2
  refine ⟨fun hn => Nat.lt_of_not_le fun hge => ?_, fun hn => Nat.lt_of_not_le fun hge => ?_⟩
  · rcases Nat.lt_or_eq_of_le hge with hlt | rfl
    · have hbefore := lt_of_ascending h hlt hmiddle hi
      omega
    · rw [hmiddle] at hi
      cases hi
      omega
  · rcases Nat.lt_or_eq_of_le hge with hlt | rfl
    · have hbefore := lt_of_ascending h hlt hi hmiddle
      omega
    · rw [hmiddle] at hi
      cases hi
      omega

theorem search_iff {ranges : Array (Nat × Nat)} (h : ascending 0 ranges.toList = true) : ∀ {steps low high : Nat},
    high ≤ ranges.size → high - low < 2 ^ steps → (search ranges n steps low high = true ↔ Holds ranges n low high)
  | 0, low, high, _, hsteps => by
    refine ⟨nofun, fun ⟨i, r, hlow, hhigh, _⟩ => ?_⟩
    rw [Nat.pow_zero] at hsteps
    omega
  | steps + 1, low, high, hsize, hsteps => by
    rw [Nat.pow_succ] at hsteps
    rw [search]
    split
    case isFalse hlt => exact ⟨nofun, fun ⟨i, r, hlow, hhigh, _⟩ => by omega⟩
    case isTrue hlt =>
      have hmiddle : ranges[(low + high) / 2]? = some ranges[(low + high) / 2] := Array.getElem?_eq_getElem (by omega)
      simp only [hmiddle]
      split
      · next hbefore =>
        refine (search_iff h (by omega) (by omega)).trans ⟨?_, ?_⟩
        · rintro ⟨i, r, hlow, hhigh, hr⟩
          exact ⟨i, r, hlow, by omega, hr⟩
        · rintro ⟨i, r, hlow, hhigh, hr, hin⟩
          exact ⟨i, r, hlow, (side_of_ascending h hmiddle hr hin.1 hin.2).1 hbefore, hr, hin⟩
      · next hbefore =>
        split
        · next hbehind =>
          refine (search_iff h hsize (by omega)).trans ⟨?_, ?_⟩
          · rintro ⟨i, r, hlow, hhigh, hr⟩
            exact ⟨i, r, by omega, hhigh, hr⟩
          · rintro ⟨i, r, hlow, hhigh, hr, hin⟩
            exact ⟨i, r, (side_of_ascending h hmiddle hr hin.1 hin.2).2 hbehind, hhigh, hr, hin⟩
        · next hbehind =>
          exact ⟨fun _ => ⟨_, _, by omega, by omega, hmiddle, by omega, by omega⟩, fun _ => rfl⟩

theorem inRanges_iff {ranges : Array (Nat × Nat)} (h : ascending 0 ranges.toList = true) :
    inRanges ranges n = true ↔ Holds ranges n 0 ranges.size := by
  have hsteps : ranges.size - 0 < 2 ^ (ranges.size.log2 + 1) := Nat.lt_log2_self
  exact search_iff h (Nat.le_refl _) hsteps

theorem inRanges_of_mem {ranges : Array (Nat × Nat)} {i : Nat} (h : ascending 0 ranges.toList = true)
    (hr : ranges[i]? = some r) (hlow : r.1 ≤ n) (hhigh : n ≤ r.2) : inRanges ranges n = true := by
  obtain ⟨hi, -⟩ := Array.getElem?_eq_some_iff.mp hr
  exact (inRanges_iff h).mpr ⟨i, r, Nat.zero_le i, hi, hr, hlow, hhigh⟩

theorem inRanges_of_before {ranges : Array (Nat × Nat)} (h : ascending 0 ranges.toList = true)
    (hr : ranges[0]? = some r) (hn : n < r.1) : inRanges ranges n = false := by
  rw [Bool.eq_false_iff]
  intro hin
  obtain ⟨i, r', -, -, hi, hlow, hhigh⟩ := (inRanges_iff h).mp hin
  exact Nat.not_lt_zero i ((side_of_ascending h hr hi hlow hhigh).1 hn)

/-- Between two ranges that follow one another there is no number of the table. -/
theorem inRanges_of_between {ranges : Array (Nat × Nat)} {i : Nat} (h : ascending 0 ranges.toList = true)
    (hr : ranges[i]? = some r) (hr' : ranges[i + 1]? = some r') (hlow : r.2 < n) (hhigh : n < r'.1) :
    inRanges ranges n = false := by
  rw [Bool.eq_false_iff]
  intro hin
  obtain ⟨j, range, -, -, hj, hfirst, hlast⟩ := (inRanges_iff h).mp hin
  have hbehind := (side_of_ascending h hr hj hfirst hlast).2 hlow
  have hbefore := (side_of_ascending h hr' hj hfirst hlast).1 hhigh
  omega

/-! ### The tables -/

/-- The number is that of an ASCII letter. -/
def isLetterCode (n : Nat) : Bool := (0x41 ≤ n && n ≤ 0x5A) || (0x61 ≤ n && n ≤ 0x7A)

/-- The number is that of an ASCII digit. -/
def isDigitCode (n : Nat) : Bool := 0x30 ≤ n && n ≤ 0x39

theorem isLetterCode_iff : isLetterCode n = true ↔ 0x41 ≤ n ∧ n ≤ 0x5A ∨ 0x61 ≤ n ∧ n ≤ 0x7A := by
  simp only [isLetterCode, Bool.or_eq_true, Bool.and_eq_true, decide_eq_true_eq]

theorem isDigitCode_iff : isDigitCode n = true ↔ 0x30 ≤ n ∧ n ≤ 0x39 := by
  simp only [isDigitCode, Bool.and_eq_true, decide_eq_true_eq]

set_option maxRecDepth 8000 in
theorem ascending_alphabeticRanges : ascending 0 alphabeticRanges.toList = true := by rfl

theorem ascending_numericRanges : ascending 0 numericRanges.toList = true := by rfl

set_option maxRecDepth 8000 in
theorem inRanges_alphabetic_ascii (hn : n < 128) : inRanges alphabeticRanges n = isLetterCode n := by
  have h := ascending_alphabeticRanges
  have hupper : alphabeticRanges[0]? = some (0x41, 0x5A) := by rfl
  have hlower : alphabeticRanges[1]? = some (0x61, 0x7A) := by rfl
  have hnext : alphabeticRanges[2]? = some (0xAA, 0xAA) := by rfl
  cases hletter : isLetterCode n
  case true =>
    rcases isLetterCode_iff.mp hletter with ⟨hlow, hhigh⟩ | ⟨hlow, hhigh⟩
    · exact inRanges_of_mem h hupper hlow hhigh
    · exact inRanges_of_mem h hlower hlow hhigh
  case false =>
    rw [Bool.eq_false_iff, Ne, isLetterCode_iff] at hletter
    rcases Nat.lt_or_ge n 0x41 with hbefore | hupperFirst
    · exact inRanges_of_before h hupper hbefore
    rcases Nat.lt_or_ge n 0x61 with hbefore | hlowerFirst
    · exact inRanges_of_between h hupper hlower (by omega) hbefore
    · exact inRanges_of_between h hlower hnext (by omega) (by omega)

set_option maxRecDepth 8000 in
theorem inRanges_numeric_ascii (hn : n < 128) : inRanges numericRanges n = isDigitCode n := by
  have h := ascending_numericRanges
  have hdigits : numericRanges[0]? = some (0x30, 0x39) := by rfl
  have hnext : numericRanges[1]? = some (0xB2, 0xB3) := by rfl
  cases hdigit : isDigitCode n
  case true =>
    obtain ⟨hlow, hhigh⟩ := isDigitCode_iff.mp hdigit
    exact inRanges_of_mem h hdigits hlow hhigh
  case false =>
    rw [Bool.eq_false_iff, Ne, isDigitCode_iff] at hdigit
    rcases Nat.lt_or_ge n 0x30 with hbefore | hfirst
    · exact inRanges_of_before h hdigits hbefore
    · exact inRanges_of_between h hdigits hnext (by omega) (by omega)

/-! ### White space -/

theorem isSpace_of_printed {c : Char} (h : 0x20 < c.toNat) (h' : c.toNat < 0x80) : isSpace c = false := by
  rw [Bool.eq_false_iff]
  intro hspace
  simp only [isSpace, Bool.or_eq_true, Bool.and_eq_true, decide_eq_true_eq, beq_iff_eq] at hspace
  omega

/-- White space lies in ASCII, behind `z`, or in one of three gaps of both tables. -/
theorem code_of_isSpace {c : Char} (h : isSpace c = true) :
    0x7A < c.toNat ∧ c.toNat < 0xAA ∨ c.toNat < 0x30 ∨ c.toNat = 0x1680 ∨
      0x2000 ≤ c.toNat ∧ c.toNat ≤ 0x205F ∨ c.toNat = 0x3000 := by
  simp only [isSpace, Bool.or_eq_true, Bool.and_eq_true, decide_eq_true_eq, beq_iff_eq] at h
  omega

set_option maxRecDepth 8000 in
theorem isAlphabetic_of_isSpace {c : Char} (h : isSpace c = true) : isAlphabetic c = false := by
  have hranges := ascending_alphabeticRanges
  have hfirst : alphabeticRanges[0]? = some (0x41, 0x5A) := by rfl
  have hlower : alphabeticRanges[1]? = some (0x61, 0x7A) := by rfl
  have hordinal : alphabeticRanges[2]? = some (0xAA, 0xAA) := by rfl
  have hcanadian : alphabeticRanges[227]? = some (0x166F, 0x167F) := by rfl
  have hogham : alphabeticRanges[228]? = some (0x1681, 0x169A) := by rfl
  have hgreek : alphabeticRanges[294]? = some (0x1FF6, 0x1FFC) := by rfl
  have hraised : alphabeticRanges[295]? = some (0x2071, 0x2071) := by rfl
  have htilde : alphabeticRanges[331]? = some (0x2E2F, 0x2E2F) := by rfl
  have hideographs : alphabeticRanges[332]? = some (0x3005, 0x3007) := by rfl
  rw [isAlphabetic]
  rcases code_of_isSpace h with ⟨hlow, hhigh⟩ | hlow | hcode | ⟨hlow, hhigh⟩ | hcode
  · exact inRanges_of_between hranges hlower hordinal hlow hhigh
  · exact inRanges_of_before hranges hfirst (by omega)
  · exact inRanges_of_between hranges hcanadian hogham (by omega) (by omega)
  · exact inRanges_of_between hranges hgreek hraised (by omega) (by omega)
  · exact inRanges_of_between hranges htilde hideographs (by omega) (by omega)

set_option maxRecDepth 8000 in
theorem isNumeric_of_isSpace {c : Char} (h : isSpace c = true) : inRanges numericRanges c.toNat = false := by
  have hranges := ascending_numericRanges
  have hdigits : numericRanges[0]? = some (0x30, 0x39) := by rfl
  have hraised : numericRanges[1]? = some (0xB2, 0xB3) := by rfl
  have hethiopic : numericRanges[26]? = some (0x1369, 0x137C) := by rfl
  have hrunic : numericRanges[27]? = some (0x16EE, 0x16F0) := by rfl
  have hlepcha : numericRanges[38]? = some (0x1C50, 0x1C59) := by rfl
  have hpowers : numericRanges[39]? = some (0x2070, 0x2070) := by rfl
  have hcoptic : numericRanges[47]? = some (0x2CFD, 0x2CFD) := by rfl
  have hideographs : numericRanges[48]? = some (0x3007, 0x3007) := by rfl
  rcases code_of_isSpace h with ⟨hlow, hhigh⟩ | hlow | hcode | ⟨hlow, hhigh⟩ | hcode
  · exact inRanges_of_between hranges hdigits hraised (by omega) (by omega)
  · exact inRanges_of_before hranges hdigits (by omega)
  · exact inRanges_of_between hranges hethiopic hrunic (by omega) (by omega)
  · exact inRanges_of_between hranges hlepcha hpowers (by omega) (by omega)
  · exact inRanges_of_between hranges hcoptic hideographs (by omega) (by omega)

theorem isAlphanumeric_of_isSpace {c : Char} (h : isSpace c = true) : isAlphanumeric c = false := by
  rw [isAlphanumeric, isAlphabetic_of_isSpace h, isNumeric_of_isSpace h]
  rfl

/-! ### ASCII characters -/

theorem isAlphabetic_ascii {c : Char} (h : c.toNat < 128) : isAlphabetic c = isLetterCode c.toNat :=
  inRanges_alphabetic_ascii h

theorem isAlphanumeric_ascii {c : Char} (h : c.toNat < 128) :
    isAlphanumeric c = (isLetterCode c.toNat || isDigitCode c.toNat) := by
  rw [isAlphanumeric, isAlphabetic_ascii h, inRanges_numeric_ascii h]

theorem isAlpha_eq (c : Char) : c.isAlpha = isLetterCode c.toNat := by
  rw [Bool.eq_iff_iff, isLetterCode_iff]
  unfold Char.isAlpha Char.isUpper Char.isLower
  simp only [Bool.or_eq_true, Bool.and_eq_true, decide_eq_true_eq, ge_iff_le, UInt32.le_iff_toNat_le]
  exact Iff.rfl

theorem isDigit_eq (c : Char) : c.isDigit = isDigitCode c.toNat := by
  rw [Bool.eq_iff_iff, isDigitCode_iff]
  exact Char.isDigit_iff_toNat

end DrillCode.Text
