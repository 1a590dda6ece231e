import DrillCode.Practice.Draw
import DrillCode.Proofs.Bits.Reads

/-! # What can be drawn

Whatever the words are, a choice among `span` numbers is one of them, and a number that is drawn from a range lies
between its bounds, in whichever order they are given and however far they are apart. The bounds are added and
subtracted here as integers; with numbers of 64 bits that wrap around, the same is drawn. -/

namespace DrillCode

namespace WordSupply

theorem choice?_lt {span word n : Nat} (hspan : 0 < span) (hword : word < wordCount)
    (h : choice? span word = some n) : n < span := by
  unfold choice? at h
  split at h
  · cases h
    exact Nat.div_lt_of_lt_mul (Nat.mul_lt_mul_of_pos_right hword hspan)
  · cases h

/-- A supply without words makes the choice zero, and any other one a choice of one of its words. -/
theorem chooseFrom_lt {span : Nat} (hspan : 0 < span) : ∀ (words : List UInt64) (taken : Nat),
    (chooseFrom span words taken).1 < span
  | [], _ => hspan
  | word :: words, taken => by
    unfold chooseFrom
    split
    · next h => exact choice?_lt hspan word.toNat_lt h
    · exact chooseFrom_lt hspan words (taken + 1)

end WordSupply

namespace Draw

theorem below_lt {span : Nat} (hspan : 0 < span) (words : WordSupply) : (below span words).1 < span :=
  WordSupply.chooseFrom_lt hspan words.words words.taken

theorem between_within {low high : Int} (hlow : -wordCount ≤ 2 * low) (hle : low ≤ high)
    (hhigh : 2 * high < wordCount) (words : WordSupply) :
    low ≤ (between low high words).1.toInt ∧ (between low high words).1.toInt ≤ high := by
  unfold wordCount at hlow hhigh
  by_cases hspan : (high - low + 1).toNat = wordCount
  · -- Only the whole range of 64-bit integers has as many numbers as there are words.
    have hall : between low high words = (words.words.headD 0 |>.toInt64, ⟨words.words.tail, words.taken + 1⟩) := by
      unfold between
      rw [if_pos hspan]
      rfl
    have hmin := Int64.le_toInt (words.words.headD 0).toInt64
    have hmax := Int64.toInt_lt (words.words.headD 0).toInt64
    unfold wordCount at hspan
    rw [hall]
    dsimp only
    omega
  · have hsome : between low high words = (Int64.ofInt (low + (below (high - low + 1).toNat words).1),
        (below (high - low + 1).toNat words).2) := by
      unfold between
      rw [if_neg hspan]
      rfl
    have hpos : 0 < (high - low + 1).toNat := by omega
    have hlt := below_lt hpos words
    rw [hsome, Int64.toInt_ofInt_of_le (by omega) (by omega)]
    omega

/-! ### Numbers that wrap around -/

theorem bmod_wordCount (x : Int) : x.bmod wordCount % wordCount = x % wordCount := Int.bmod_emod

theorem toNat_toUInt64 (x : Int64) : (x.toUInt64.toNat : Int) = x.toInt % wordCount := by
  have hsigned : x.toInt = (x.toUInt64.toNat : Int).bmod wordCount := BitVec.toInt_eq_toNat_bmod x.toBitVec
  have hlt : x.toUInt64.toNat < wordCount := x.toUInt64.toNat_lt
  rw [hsigned, bmod_wordCount, Int.emod_eq_of_lt (Int.natCast_nonneg _) (Int.ofNat_lt.mpr hlt)]

/-- How many numbers there are from one to another, with numbers that wrap around; zero stands for all of them. -/
theorem toNat_span (low high : Int64) :
    ((high - low + 1).toUInt64.toNat : Int) = (high.toInt - low.toInt + 1) % wordCount := by
  have hsub : (high - low).toInt = (high.toInt - low.toInt).bmod wordCount := Int64.toInt_sub high low
  have hadd : (high - low + 1).toInt = ((high - low).toInt + 1).bmod wordCount := Int64.toInt_add (high - low) 1
  rw [toNat_toUInt64, hadd, bmod_wordCount, hsub, Int.add_emod, bmod_wordCount, ← Int.add_emod]

/-- The same is drawn with bounds and a number of choices that wrap around at 64 bits. -/
theorem between_eq_wrapping {low high : Int64} (hle : low.toInt ≤ high.toInt) :
    between low.toInt high.toInt =
      if (high - low + 1).toUInt64 = 0 then UInt64.toInt64 <$> word
      else (fun n => low + Int64.ofNat n) <$> below (high - low + 1).toUInt64.toNat := by
  have hspan := toNat_span low high
  have hmin := low.le_toInt
  have hmax := high.toInt_lt
  unfold wordCount at hspan
  have hzero : (high - low + 1).toUInt64 = 0 ↔ (high.toInt - low.toInt + 1).toNat = wordCount := by
    rw [← UInt64.toNat_inj, UInt64.toNat_zero, wordCount]
    omega
  have hoffset : ∀ n : Nat, Int64.ofInt (low.toInt + n) = low + Int64.ofNat n := fun n => by
    rw [Int64.ofInt_add, Int64.ofInt_toInt, Int64.ofInt_eq_ofNat]
  unfold between
  by_cases hall : (high.toInt - low.toInt + 1).toNat = wordCount
  · rw [if_pos (hzero.mpr hall), if_pos hall, map_eq_pure_bind]
  · have hnat : (high - low + 1).toUInt64.toNat = (high.toInt - low.toInt + 1).toNat := by
      unfold wordCount at hall
      omega
    rw [if_neg (mt hzero.mp hall), if_neg hall, map_eq_pure_bind, hnat]
    simp only [hoffset]

end Draw

namespace Range

/-- The number lies between the bounds, in whichever order they are given. -/
def Contains (range : Range) (n : Int64) : Prop := range.low ≤ n.toInt ∧ n.toInt ≤ range.high

theorem contains_draw (range : Range) (words : WordSupply) : range.Contains (range.draw words).1 := by
  have hmin := range.min.le_toInt
  have hmax := range.min.toInt_lt
  have hmin' := range.max.le_toInt
  have hmax' := range.max.toInt_lt
  unfold Contains draw low high
  refine Draw.between_within ?_ (by omega) ?_ words
  all_goals
    unfold wordCount
    omega

end Range
end DrillCode
