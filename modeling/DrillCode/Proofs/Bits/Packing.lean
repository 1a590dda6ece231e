import DrillCode.Bits.Basic

/-! # Bits in bytes

Bits packed into bytes and laid out again are the same bits with zeros behind them, up to the end of the
last byte. The first `n` bytes of a byte string are its first `8 * n` bits. -/

namespace DrillCode.Bits

/-! ### Numbers of a fixed width -/

theorem ofNat_congr : ∀ {w m n : Nat}, (∀ i < w, m.testBit i = n.testBit i) → ofNat w m = ofNat w n
  | 0, _, _, _ => rfl
  | w + 1, m, n, h => by
    rw [ofNat, ofNat, h w (Nat.lt_succ_self w), ofNat_congr fun i hi => h i (Nat.lt_succ_of_lt hi)]

theorem ofNat_toNat : ∀ bits : List Bool, ofNat bits.length (toNat bits) = bits
  | [] => rfl
  | bit :: bits => by
    have hbits := ofNat_toNat bits
    have htest : ∀ j, (toNat (bit :: bits)).testBit j =
        if j < bits.length then (toNat bits).testBit j else bit.toNat.testBit (j - bits.length) := fun j => by
      rw [toNat_cons, Nat.mul_comm, Nat.testBit_two_pow_mul_add _ (toNat_lt bits)]
    have htop : (toNat (bit :: bits)).testBit bits.length = bit := by
      rw [htest, if_neg (Nat.lt_irrefl _), Nat.sub_self]
      cases bit <;> rfl
    have hlow : ofNat bits.length (toNat (bit :: bits)) = ofNat bits.length (toNat bits) :=
      ofNat_congr fun i hi => by rw [htest, if_pos hi]
    rw [List.length_cons, ofNat, htop, hlow, hbits]

/-! ### Bytes -/

theorem ofBytes_cons (byte : UInt8) (bytes : List UInt8) :
    ofBytes (byte :: bytes) = ofNat 8 byte.toNat ++ ofBytes bytes := List.flatMap_cons

theorem ofBytes_append (a b : List UInt8) : ofBytes (a ++ b) = ofBytes a ++ ofBytes b := List.flatMap_append

theorem ofNat_toByte {bits : List Bool} (h : bits.length = 8) : ofNat 8 (toByte bits).toNat = bits := by
  have hlt := toNat_lt bits
  rw [h] at hlt
  have hbyte : (toByte bits).toNat = toNat bits := Nat.mod_eq_of_lt hlt
  rw [hbyte, ← h]
  exact ofNat_toNat bits

/-- How many zeros fill up the last byte. -/
def padding (n : Nat) : Nat := (8 - n % 8) % 8

theorem ofBytes_toBytes (bits : List Bool) :
    ofBytes (toBytes bits) = bits ++ List.replicate (padding bits.length) false := by
  fun_induction toBytes bits with
  | case1 a b c d e f g h rest ih =>
    have hpad : padding (a :: b :: c :: d :: e :: f :: g :: h :: rest).length = padding rest.length := by
      simp only [List.length_cons, padding]
      omega
    rw [ofBytes_cons, ofNat_toByte rfl, ih, hpad]
    rfl
  | case2 => rfl
  | case3 short hlong hnil =>
    have hlen : short.length < 8 := by
      match short, hlong with
      | [], _ | [_], _ | [_, _], _ | [_, _, _], _ | [_, _, _, _], _ | [_, _, _, _, _], _ | [_, _, _, _, _, _], _
      | [_, _, _, _, _, _, _], _ => simp
      | a :: b :: c :: d :: e :: f :: g :: h :: rest, hlong => exact (hlong _ _ _ _ _ _ _ _ _ rfl).elim
    have hpos : 0 < short.length := List.length_pos_iff.mpr hnil
    have hpad : padding short.length = 8 - short.length := by
      unfold padding
      omega
    rw [ofBytes_cons, ofNat_toByte (by simp; omega), hpad]
    exact List.append_nil _

theorem ofBytes_take : ∀ (n : Nat) (bytes : List UInt8), ofBytes (bytes.take n) = (ofBytes bytes).take (8 * n)
  | 0, _ => rfl
  | _ + 1, [] => rfl
  | n + 1, byte :: bytes => by
    have hfirst : (ofNat 8 byte.toNat).take (8 * (n + 1)) = ofNat 8 byte.toNat :=
      List.take_of_length_le (by rw [length_ofNat]; omega)
    rw [List.take_succ_cons, ofBytes_cons, ofBytes_cons, ofBytes_take n bytes, List.take_append, length_ofNat,
      hfirst, Nat.mul_succ, Nat.add_sub_cancel]

end DrillCode.Bits
