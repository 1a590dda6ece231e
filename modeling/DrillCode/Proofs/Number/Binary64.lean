import DrillCode.Proofs.Number.Rounding
import Mathlib

/-! # Floating-point numbers and their values

A floating-point number is determined by its value, and the finite ones are written in units that are as small as
can be. -/

namespace DrillCode.Binary64
open Float.Model (UnpackedFloat Format)
open Float.Model.UnpackedFloat (unpackMantissa unpackExponent)

/-! ### Fields -/

/-- The eleven bits behind the sign. -/
def exponentOf (bits : Nat) : Nat := bits / fractionCount % 2048

/-- The last 52 bits. -/
def fractionOf (bits : Nat) : Nat := bits % fractionCount

theorem fractionOf_lt (bits : Nat) : fractionOf bits < fractionCount := Nat.mod_lt _ (by decide)

theorem valueOfBits_eq (bits : Nat) : valueOfBits bits =
    if exponentOf bits = 2047 then
      if fractionOf bits = 0 then .infinite (bits.testBit 63) else .nan
    else if exponentOf bits = 0 then .finite (bits.testBit 63) (fractionOf bits) minExponent
    else .finite (bits.testBit 63) (fractionCount + fractionOf bits) ((exponentOf bits : Int) - 1075) := rfl

/-- A word is made up of its fields. -/
theorem eq_of_fields {a b : Nat} (ha : a < 2 ^ 64) (hb : b < 2 ^ 64) (hsign : a.testBit 63 = b.testBit 63)
    (hexponent : exponentOf a = exponentOf b) (hfraction : fractionOf a = fractionOf b) : a = b := by
  rw [Nat.testBit_eq_decide_div_mod_eq, Nat.testBit_eq_decide_div_mod_eq, decide_eq_decide] at hsign
  rw [exponentOf, exponentOf, Shortest.fractionCount_eq] at hexponent
  rw [fractionOf, fractionOf, Shortest.fractionCount_eq] at hfraction
  omega

theorem toNat_unpackMantissa (b : BitVec 64) :
    (@unpackMantissa Format.binary64 b).toNat = fractionOf b.toNat := by
  simp [unpackMantissa, fractionOf, fractionCount]

theorem toNat_unpackExponent (b : BitVec 64) :
    (@unpackExponent Format.binary64 b).toNat = exponentOf b.toNat := by
  simp [unpackExponent, exponentOf, fractionCount, Nat.shiftRight_eq_div_pow]

/-! ### Kinds -/

theorem unpackExponent_eq_neg_one_iff (b : BitVec 64) :
    @unpackExponent Format.binary64 b = -1#_ ↔ exponentOf b.toNat = 2047 := by
  rw [← toNat_unpackExponent, ← BitVec.toNat_inj]
  rfl

theorem unpackMantissa_eq_zero_iff (b : BitVec 64) :
    @unpackMantissa Format.binary64 b = 0#_ ↔ fractionOf b.toNat = 0 := by
  rw [← toNat_unpackMantissa, ← BitVec.toNat_inj]
  rfl

theorem isFinite_unpack (spec : Format) (b : BitVec spec.numBits) :
    (UnpackedFloat.unpack spec b).isFinite = decide (unpackExponent b ≠ -1#_) := by
  unfold UnpackedFloat.unpack
  dsimp only
  split
  · next hones => split <;> exact (decide_eq_false (not_not_intro hones)).symm
  · next hones =>
    split
    · split <;> exact (decide_eq_true hones).symm
    · exact (decide_eq_true hones).symm

theorem isFinite_iff (x : Float) : x.isFinite = true ↔ ∃ negative m q, value x = .finite negative m q := by
  show (UnpackedFloat.unpack Format.binary64 x.toBits.toBitVec).isFinite = true ↔ _
  have hexponent := unpackExponent_eq_neg_one_iff x.toBits.toBitVec
  rw [UInt64.toNat_toBitVec] at hexponent
  rw [isFinite_unpack, decide_eq_true_iff, ne_eq, hexponent, value, valueOfBits_eq]
  split
  · split <;> simp_all
  · split <;> simp_all

/-! ### Values -/

theorem isCanonical_of_value {x : Float} {negative : Bool} {m : Nat} {q : Int}
    (h : value x = .finite negative m q) : Shortest.IsCanonical m q := by
  have hfraction := fractionOf_lt x.toBits.toNat
  rw [value, valueOfBits_eq] at h
  split at h
  · split at h <;> cases h
  · split at h
    · cases h
      exact ⟨by omega, Int.le_refl _, .inl rfl⟩
    · cases h
      refine ⟨by omega, ?_, .inr (Nat.le_add_right _ _)⟩
      rw [minExponent]
      omega

/-- There is one pattern of bits for what is no number. -/
theorem toBits_of_nan {x : Float} (h : value x = .nan) : x.toBits.toBitVec = UnpackedFloat.packedNaN Format.binary64 := by
  have hfields : exponentOf x.toBits.toNat = 2047 ∧ fractionOf x.toBits.toNat ≠ 0 := by
    rw [value, valueOfBits_eq] at h
    split at h
    · split at h
      · cases h
      · exact ⟨‹_›, ‹_›⟩
    · split at h <;> cases h
  refine x.toModel.valid.eq_packedNaN ?_ ?_
  · exact (unpackExponent_eq_neg_one_iff _).mpr hfields.1
  · exact (unpackMantissa_eq_zero_iff _).not.mpr hfields.2

/-- Apart from what is no number, a pattern of bits is determined by its value. -/
theorem eq_of_valueOfBits {a b : Nat} (ha : a < 2 ^ 64) (hb : b < 2 ^ 64) (h : valueOfBits a = valueOfBits b)
    (hnan : valueOfBits a ≠ .nan) : a = b := by
  have hfa := fractionOf_lt a
  have hfb := fractionOf_lt b
  rw [h] at hnan
  rw [valueOfBits_eq a] at h
  rw [valueOfBits_eq b] at h hnan
  split at h
  · split at h
    · split at h
      · split at h
        · injection h with hsign
          exact eq_of_fields ha hb hsign (by omega) (by omega)
        · cases h
      · split at h <;> cases h
    · rw [← h] at hnan
      exact absurd rfl hnan
  · split at h
    · split at h
      · split at h <;> cases h
      · split at h
        · injection h with hsign hfraction
          exact eq_of_fields ha hb hsign (by omega) hfraction
        · injection h with hsign hfraction
          omega
    · split at h
      · split at h <;> cases h
      · split at h
        · injection h with hsign hfraction
          omega
        · injection h with hsign hfraction hexponent
          exact eq_of_fields ha hb hsign (by omega) (by omega)

/-- A floating-point number is determined by its value. -/
theorem value_injective {x y : Float} (h : value x = value y) : x = y := by
  refine Float.toBits_inj.mp ?_
  by_cases hnan : value x = .nan
  · rw [← UInt64.toBitVec_inj, toBits_of_nan hnan, toBits_of_nan (h ▸ hnan)]
  · exact UInt64.toNat_inj.mp (eq_of_valueOfBits x.toBits.toNat_lt y.toBits.toNat_lt h hnan)

end DrillCode.Binary64
