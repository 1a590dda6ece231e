import DrillCode.Number.Reading
import Mathlib

/-! # What is read is a number

A decimal text is read as a number or as an infinity: nothing that happens to numbers on the way makes something
that is no number. -/

namespace DrillCode.Reading
open Float.Model (UnpackedFloat Format)

/-! ### Operations -/

theorem isNaN_roundWithAccuracy (spec : Format) (sign : UnpackedFloat.Sign) (m : Nat) (e : Int) (accuracy) :
    (UnpackedFloat.roundWithAccuracy spec sign m e accuracy).isNaN = false := by
  unfold UnpackedFloat.roundWithAccuracy
  dsimp only
  split <;> rfl

theorem isNaN_mul_finite (spec : Format) (u : UnpackedFloat) (sign : UnpackedFloat.Sign) (m : Nat) (e : Int) (h : 0 < m) :
    (UnpackedFloat.mul spec u (.finite sign m e h)).isNaN = u.isNaN := by
  cases u with
  | finite sign' m' e' h' => exact isNaN_roundWithAccuracy spec _ _ _ _
  | _ => rfl

theorem isNaN_div_finite (spec : Format) (u : UnpackedFloat) (sign : UnpackedFloat.Sign) (m : Nat) (e : Int) (h : 0 < m) :
    (UnpackedFloat.div spec u (.finite sign m e h)).isNaN = u.isNaN := by
  cases u with
  | finite sign' m' e' h' => exact isNaN_roundWithAccuracy spec _ _ _ _
  | _ => rfl

theorem isNaN_ofScientific (spec : Format) (m : Nat) (e : Int) :
    (UnpackedFloat.ofScientific spec m e).isNaN = false := by
  unfold UnpackedFloat.ofScientific
  split
  · rfl
  · split
    · rfl
    · split
      · rfl
      · split
        · exact isNaN_mul_finite spec _ _ _ _ _
        · exact isNaN_div_finite spec _ _ _ _ _

theorem isNaN_neg (u : UnpackedFloat) : u.neg.isNaN = u.isNaN := by
  cases u <;> rfl

theorem isNaN_unpack (spec : Format) (b : BitVec spec.numBits) :
    (UnpackedFloat.unpack spec b).isNaN =
      decide (UnpackedFloat.unpackExponent b = -1#_ ∧ UnpackedFloat.unpackMantissa b ≠ 0#_) := by
  unfold UnpackedFloat.unpack
  dsimp only
  split
  · next hones =>
    split
    · next hzero => exact (decide_eq_false fun h => h.2 hzero).symm
    · next hzero => exact (decide_eq_true ⟨hones, hzero⟩).symm
  · next hones =>
    split
    · split <;> exact (decide_eq_false fun h => hones h.1).symm
    · exact (decide_eq_false fun h => hones h.1).symm

/-- What is a number is packed as one: the exponents of all numbers have a bit that is not set, and behind that of an
    infinity there is no fraction. -/
theorem isNaN_unpack_pack {u : UnpackedFloat} (h : u.isNaN = false) :
    (UnpackedFloat.unpack Format.binary64 (UnpackedFloat.pack Format.binary64 u)).isNaN = false := by
  rw [isNaN_unpack, decide_eq_false_iff_not]
  fun_cases UnpackedFloat.pack with
  | case1 => cases h
  | case2 s => simp [UnpackedFloat.packedInfinity]
  | case3 s => simp [UnpackedFloat.packedZero]
  | case4 s m e hm exponent hlarge => simp [UnpackedFloat.packedInfinity]
  | case5 s m e hm bits exponent hsmall hbits =>
    rintro ⟨hones, -⟩
    rw [UnpackedFloat.unpackExponent_packComponents, ← BitVec.toNat_inj] at hones
    have hsmall : ¬2048 ≤ exponent + 1 := hsmall
    simp at hones
    omega
  | case6 s m e hm bits exponent hsmall hbits => simp

theorem isNaN_ofModel {u : UnpackedFloat} (h : u.isNaN = false) : (Float.ofModel (.pack u)).isNaN = false :=
  isNaN_unpack_pack h

theorem isNaN_normalize (spec : Format) (m e : Int) (sign : UnpackedFloat.Sign) :
    (UnpackedFloat.normalize spec m e sign).isNaN = false := by
  unfold UnpackedFloat.normalize
  split
  · exact isNaN_roundWithAccuracy spec _ _ _ _
  · rfl
  · exact isNaN_roundWithAccuracy spec _ _ _ _

/-! ### Powers of ten -/

/-- The number is finite, and it is not zero. -/
def isOrdinary (x : Float) : Bool :=
  match x.toModel.unpack with
  | .finite .. => true
  | _ => false

theorem unpack_of_isOrdinary {x : Float} (h : isOrdinary x = true) :
    ∃ sign m e hm, x.toModel.unpack = .finite sign m e hm := by
  unfold isOrdinary at h
  split at h
  · next sign m e hm hx => exact ⟨sign, m, e, hm, hx⟩
  · cases h

theorem isNaN_mul {x y : Float} (hx : x.isNaN = false) (hy : isOrdinary y = true) : (x * y).isNaN = false := by
  obtain ⟨sign, m, e, hm, hy⟩ := unpack_of_isOrdinary hy
  refine @isNaN_ofModel (.mul _ x.toModel.unpack y.toModel.unpack) ?_
  rw [hy, isNaN_mul_finite]
  exact hx

theorem isNaN_div {x y : Float} (hx : x.isNaN = false) (hy : isOrdinary y = true) : (x / y).isNaN = false := by
  obtain ⟨sign, m, e, hm, hy⟩ := unpack_of_isOrdinary hy
  refine @isNaN_ofModel (.div _ x.toModel.unpack y.toModel.unpack) ?_
  rw [hy, isNaN_div_finite]
  exact hx

theorem isOrdinary_powerOfTen : ∀ x ∈ Float.exactlyRepresentablePowersOfTen, isOrdinary x = true := by
  decide +kernel

theorem isNaN_scientific (m : Nat) (s : Bool) (e : Nat) : (Float.ofScientific m s e).isNaN = false := by
  unfold Float.ofScientific
  split
  · have hwhole : m.toUInt64.toFloat.isNaN = false := isNaN_ofModel (isNaN_normalize _ _ _ _)
    dsimp only
    split
    · exact isNaN_div hwhole (isOrdinary_powerOfTen _ (Array.getElem_mem _))
    · exact isNaN_mul hwhole (isOrdinary_powerOfTen _ (Array.getElem_mem _))
  · exact isNaN_ofModel (isNaN_ofScientific _ _ _)

/-! ### Reading -/

theorem isNaN_nearest (m : Nat) (e : Int) : (nearest m e).isNaN = false := by
  unfold nearest
  split
  · exact isNaN_scientific _ _ _
  · split
    · decide +kernel
    · split
      · exact isNaN_scientific _ _ _
      · exact isNaN_scientific _ _ _

theorem isNaN_of_decimal? {text : List Char} {x : Float} (h : decimal? text = some x) : x.isNaN = false := by
  unfold decimal? at h
  dsimp only at h
  split at h
  · cases h
  · obtain ⟨e, -, rfl⟩ := Option.map_eq_some_iff.mp h
    exact isNaN_nearest _ _

/-- A text that is no word but for its sign is read as a number. -/
theorem isNaN_of_number? {text : List Char} {x : Float} (hword : word? (splitSign text).2 = none)
    (h : number? text = some x) : x.isNaN = false := by
  rw [number?] at h
  dsimp only at h
  rw [hword, Option.none_or] at h
  obtain ⟨y, hy, rfl⟩ := Option.map_eq_some_iff.mp h
  split
  · exact isNaN_ofModel ((isNaN_neg _).trans (isNaN_of_decimal? hy))
  · exact isNaN_of_decimal? hy

end DrillCode.Reading
