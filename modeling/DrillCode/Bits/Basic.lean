import DrillCode.Number.Power

/-! # Bit strings

A bit string is a `List Bool`, most significant bit first. `Bits.ofNat w n` writes the low `w` bits of
a number and `Bits.toNat` reads a bit string as a number; `Bits.ofBytes` lays bytes out as bits and
`Bits.toBytes` packs bits into bytes, filling the last byte up with zero bits. Reading what was written
gives the number back modulo `2 ^ w`, and unpacking what was packed gives the bits back, followed by
the filling. -/

namespace DrillCode.Bits

/-- The low `w` bits of `n`, most significant first. -/
def ofNat : (w : Nat) → (n : Nat) → List Bool
  | 0, _ => []
  | w + 1, n => n.testBit w :: ofNat w n

/-- The number that a bit string spells. -/
def toNat (bits : List Bool) : Nat :=
  bits.foldl (fun value bit => 2 * value + bit.toNat) 0

/-- The bits of a byte string, eight to a byte. -/
def ofBytes (bytes : List UInt8) : List Bool :=
  bytes.flatMap fun byte => ofNat 8 byte.toNat

/-- The byte that eight bits spell. -/
def toByte (bits : List Bool) : UInt8 :=
  UInt8.ofNat (toNat bits)

/-- The bytes of a bit string; a last byte that is not full ends in zero bits. -/
def toBytes : List Bool → List UInt8
  | a :: b :: c :: d :: e :: f :: g :: h :: rest => toByte [a, b, c, d, e, f, g, h] :: toBytes rest
  | [] => []
  | short => [toByte (short ++ List.replicate (8 - short.length) false)]

/-! ### Lengths and values -/

@[simp] theorem length_ofNat (w n : Nat) : (ofNat w n).length = w := by
  induction w with
  | zero => rfl
  | succ w ih => simp [ofNat, ih]

theorem length_ofBytes (bytes : List UInt8) : (ofBytes bytes).length = 8 * bytes.length := by
  induction bytes with
  | nil => rfl
  | cons byte bytes ih =>
    have : ofBytes (byte :: bytes) = ofNat 8 byte.toNat ++ ofBytes bytes := rfl
    rw [this, List.length_append, length_ofNat, ih, List.length_cons]
    omega

@[simp] theorem toNat_nil : toNat [] = 0 := rfl

theorem foldl_eq (bits : List Bool) (v : Nat) :
    bits.foldl (fun value bit => 2 * value + bit.toNat) v = v * 2 ^ bits.length + toNat bits := by
  induction bits generalizing v with
  | nil => simp
  | cons b bits ih =>
    have h : toNat (b :: bits) = b.toNat * 2 ^ bits.length + toNat bits := by
      unfold toNat
      rw [List.foldl_cons, ih]
      simp [toNat]
    rw [List.foldl_cons, ih, h, List.length_cons, Nat.pow_succ, Nat.add_mul]
    simp only [Nat.mul_comm, Nat.mul_assoc, Nat.add_assoc]

theorem toNat_cons (bit : Bool) (bits : List Bool) :
    toNat (bit :: bits) = bit.toNat * 2 ^ bits.length + toNat bits := by
  conv => lhs; unfold toNat
  rw [List.foldl_cons, foldl_eq]
  simp

theorem toNat_lt (bits : List Bool) : toNat bits < 2 ^ bits.length := by
  induction bits with
  | nil => simp
  | cons bit bits ih =>
    rw [toNat_cons, List.length_cons, Nat.pow_succ]
    cases bit
    · simp
      omega
    · simp
      omega

/-- A number written in `w` bits reads back modulo `2 ^ w`. -/
theorem toNat_ofNat (w n : Nat) : toNat (ofNat w n) = n % 2 ^ w := by
  induction w with
  | zero => simp [ofNat, Nat.mod_one]
  | succ w ih =>
    rw [ofNat, toNat_cons, length_ofNat, ih, Nat.mod_pow_succ, Nat.testBit_eq_decide_div_mod_eq]
    have hmod : n / 2 ^ w % 2 < 2 := Nat.mod_lt _ (by decide)
    have hcases : n / 2 ^ w % 2 = 0 ∨ n / 2 ^ w % 2 = 1 := by omega
    rcases hcases with h | h
    · simp [h]
    · simp [h]
      omega

end DrillCode.Bits
