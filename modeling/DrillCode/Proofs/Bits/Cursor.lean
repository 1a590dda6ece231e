import DrillCode.Proofs.Bits.Packing
import DrillCode.Proofs.Bits.Reads
import Mathlib.Algebra.Order.Ring.Nat

/-! # Places in bytes

A place in a byte string can be told by a byte and a bit of it. Reading a bit from there masks the byte and moves to
the next byte behind the last bit; whether anything is left is asked of the byte alone. Both agree with the bits ahead
at every place, aligned or not, so it makes no difference to a scan how its bits lie in bytes. Numbers are shifted
together in a word of 32 bits, which is wide enough for all that can be asked for. -/

namespace DrillCode

namespace Bits

theorem ofBytes_drop : ∀ (n : Nat) (bytes : List UInt8), ofBytes (bytes.drop n) = (ofBytes bytes).drop (8 * n)
  | 0, _ => rfl
  | _ + 1, [] => rfl
  | n + 1, byte :: bytes => by
    have hfirst : (ofNat 8 byte.toNat).length = 8 := length_ofNat 8 _
    rw [List.drop_succ_cons, ofBytes_drop n bytes, ofBytes_cons, Nat.mul_succ, Nat.add_comm, ← List.drop_drop,
      List.drop_left' hfirst]

theorem ofNat_drop : ∀ {w i : Nat} (n : Nat), i < w →
    (ofNat w n).drop i = n.testBit (w - 1 - i) :: (ofNat w n).drop (i + 1)
  | _ + 1, 0, _, _ => rfl
  | w + 1, i + 1, n, h => by
    have hlow := ofNat_drop n (Nat.lt_of_succ_lt_succ h)
    rw [ofNat, List.drop_succ_cons, List.drop_succ_cons, hlow, Nat.add_sub_cancel, Nat.sub_sub, Nat.add_comm 1 i]

end Bits

/-- A place in a byte string: a byte, and one of its bits. Behind the last byte there is one more place. -/
structure Cursor (bytes : List UInt8) where
  byte : Nat
  bit : Nat
  bit_lt : bit < 8

namespace Cursor
variable {bytes : List UInt8}

/-- The place a number of bits from the start, or the end if that is nearer. -/
def ofOffset (bytes : List UInt8) (offset : Nat) : Cursor bytes where
  byte := min offset (8 * bytes.length) / 8
  bit := min offset (8 * bytes.length) % 8
  bit_lt := Nat.mod_lt _ (by decide)

def position (c : Cursor bytes) : Nat := 8 * c.byte + c.bit

/-- The byte is one of the byte string; which of its bits comes next is not asked. -/
def hasRemaining (c : Cursor bytes) : Bool := c.byte < bytes.length

/-- The next bit of the byte, or the first one of the next byte. -/
def next (c : Cursor bytes) : Cursor bytes :=
  if h : c.bit + 1 < 8 then ⟨c.byte, c.bit + 1, h⟩ else ⟨c.byte + 1, 0, by decide⟩

/-- Masks the bit out of its byte. -/
def readBit (c : Cursor bytes) : EStateM.Result DecodeError (Cursor bytes) Bool :=
  match bytes[c.byte]? with
  | none => .error (.endOfData c.position) c
  | some byte => .ok (byte.toNat >>> (7 - c.bit) &&& 1 == 1) c.next

/-- The same place with the bits ahead of it. -/
def reader (c : Cursor bytes) : BitReader := ⟨c.position, (Bits.ofBytes bytes).drop c.position⟩

theorem position_next (c : Cursor bytes) : c.next.position = c.position + 1 := by
  have := c.bit_lt
  unfold next position
  split
  · rfl
  · dsimp only
    omega

theorem reader_ofOffset (offset : Nat) : (ofOffset bytes offset).reader = .ofBytes bytes offset := by
  have hlen := Bits.length_ofBytes bytes
  have hposition : (ofOffset bytes offset).position = min offset (8 * bytes.length) := Nat.div_add_mod _ _
  have hdrop : (Bits.ofBytes bytes).drop (min offset (8 * bytes.length)) = (Bits.ofBytes bytes).drop offset := by
    rw [← hlen]
    exact List.drop_eq_drop_min.symm
  rw [reader, BitReader.ofBytes, BitReader.skip, hposition, hdrop, hlen, Nat.zero_add]

theorem unread_of_byte {c : Cursor bytes} {byte : UInt8} (h : bytes[c.byte]? = some byte) :
    c.reader.unread = byte.toNat.testBit (7 - c.bit) :: c.next.reader.unread := by
  obtain ⟨hlt, hbyte⟩ := List.getElem?_eq_some_iff.mp h
  have hbits : (Bits.ofBytes bytes).drop (8 * c.byte) =
      Bits.ofNat 8 byte.toNat ++ Bits.ofBytes (bytes.drop (c.byte + 1)) := by
    rw [← Bits.ofBytes_drop, ← List.getElem_cons_drop hlt, hbyte, Bits.ofBytes_cons]
  have hlen : (Bits.ofNat 8 byte.toNat).length = 8 := Bits.length_ofNat 8 _
  have hbit := c.bit_lt
  show (Bits.ofBytes bytes).drop c.position = _ :: (Bits.ofBytes bytes).drop c.next.position
  rw [position_next, position, Nat.add_assoc, ← List.drop_drop, ← List.drop_drop, hbits,
    List.drop_append_of_le_length (by omega), List.drop_append_of_le_length (by omega), Bits.ofNat_drop _ hbit]
  rfl

theorem unread_of_none {c : Cursor bytes} (h : bytes[c.byte]? = none) : c.reader.unread = [] := by
  have hlen := Bits.length_ofBytes bytes
  have hle := List.getElem?_eq_none_iff.mp h
  exact List.drop_eq_nil_of_le (by unfold position; omega)

theorem readBit_reader (c : Cursor bytes) : DrillCode.readBit c.reader =
    match c.readBit with
    | .ok bit c' => .ok bit c'.reader
    | .error e c' => .error e c'.reader := by
  unfold readBit DrillCode.readBit
  cases h : bytes[c.byte]? with
  | none =>
    rw [unread_of_none h]
    rfl
  | some byte =>
    have hmask : (byte.toNat >>> (7 - c.bit) &&& 1 == 1) = byte.toNat.testBit (7 - c.bit) := by
      rw [Nat.testBit_eq_decide_div_mod_eq, Nat.and_one_is_mod, Nat.shiftRight_eq_div_pow]
      rfl
    have hposition : c.reader.position + 1 = c.next.reader.position := c.position_next.symm
    rw [unread_of_byte h]
    dsimp only
    rw [hmask, hposition]

theorem hasRemaining_eq (c : Cursor bytes) : c.hasRemaining = c.reader.hasRemaining := by
  unfold hasRemaining BitReader.hasRemaining
  cases h : bytes[c.byte]? with
  | none => rw [unread_of_none h, decide_eq_false (Nat.not_lt.mpr (List.getElem?_eq_none_iff.mp h))]; rfl
  | some byte => rw [unread_of_byte h, decide_eq_true (List.getElem?_eq_some_iff.mp h).1]; rfl

/-! ### Words -/

/-- Shifts `n` more bits into a word. -/
def readOnto (value : UInt32) : (n : Nat) → (c : Cursor bytes) → EStateM.Result DecodeError (Cursor bytes) UInt32
  | 0, c => .ok value c
  | n + 1, c =>
    match c.readBit with
    | .ok bit c' => readOnto (value <<< 1 ||| bit.toUInt32) n c'
    | .error e c' => .error e c'

def readBits (width : Nat) (c : Cursor bytes) : EStateM.Result DecodeError (Cursor bytes) UInt32 :=
  if 1 ≤ width ∧ width ≤ 32 then readOnto 0 width c else .error (.invalidWidth width) c

def peekBits (width : Nat) (c : Cursor bytes) : EStateM.Result DecodeError (Cursor bytes) UInt32 :=
  match c.readBits width with
  | .ok value _ => .ok value c
  | .error e _ => .error e c

def skipBits : (count : Nat) → (c : Cursor bytes) → EStateM.Result DecodeError (Cursor bytes) Unit
  | 0, c => .ok () c
  | count + 1, c =>
    match c.readBit with
    | .ok _ c' => skipBits count c'
    | .error e c' => .error e c'

def nextIs (c : Cursor bytes) (width expected : Nat) : Bool :=
  match c.peekBits width with
  | .ok value _ => value.toNat == expected
  | .error _ _ => false

/-- The result with the bits ahead of the place. -/
def seen {α β : Type} (f : α → β) : EStateM.Result DecodeError (Cursor bytes) α → Scanned β
  | .ok a c => .ok (f a) c.reader
  | .error e c => .error e c.reader

theorem toNat_shift {value : UInt32} {bit : Bool} (h : value.toNat < 2 ^ 31) :
    (value <<< 1 ||| bit.toUInt32).toNat = 2 * value.toNat + bit.toNat := by
  have hshift : (value <<< 1).toNat = value.toNat <<< 1 := by
    rw [UInt32.toNat_shiftLeft]
    exact Nat.mod_eq_of_lt (by rw [Nat.shiftLeft_eq]; exact Nat.mul_lt_mul_of_pos_right h (by decide))
  have hbit : bit.toUInt32.toNat = bit.toNat := by cases bit <;> rfl
  have hlt : bit.toNat < 2 ^ 1 := Bool.toNat_lt bit
  rw [UInt32.toNat_or, hshift, hbit, ← Nat.shiftLeft_add_eq_or_of_lt hlt, Nat.shiftLeft_eq, Nat.mul_comm]

theorem readBit_seen (c : Cursor bytes) : DrillCode.readBit c.reader = seen id c.readBit := by
  rw [readBit_reader]
  cases c.readBit <;> rfl

/-- Induction on the bits that are wanted; those that are there leave room for them in the word. -/
theorem readOnto_seen : ∀ {n : Nat} {value : UInt32} (c : Cursor bytes), value.toNat < 2 ^ (32 - n) → n ≤ 32 →
    DrillCode.readOnto value.toNat n c.reader = seen UInt32.toNat (c.readOnto value n)
  | 0, _, _, _, _ => rfl
  | n + 1, value, c, hvalue, hn => by
    have hbit := c.readBit_seen
    rw [DrillCode.readOnto, readOnto]
    cases hread : c.readBit with
    | error e c' =>
      rw [hread] at hbit
      exact Scan.bind_error hbit
    | ok bit c' =>
      rw [hread] at hbit
      have hword : (value <<< 1 ||| bit.toUInt32).toNat = 2 * value.toNat + bit.toNat :=
        toNat_shift (Nat.lt_of_lt_of_le hvalue (Nat.pow_le_pow_right (by decide) (by omega)))
      have hroom : (value <<< 1 ||| bit.toUInt32).toNat < 2 ^ (32 - n) := by
        have hpow : 2 ^ (32 - n) = 2 * 2 ^ (32 - (n + 1)) := by
          rw [← Nat.pow_succ']
          congr 1
          omega
        have := Bool.toNat_lt bit
        omega
      have hrest := readOnto_seen c' hroom (Nat.le_of_succ_le hn)
      rw [hword] at hrest
      exact (Scan.bind_ok hbit).trans hrest

theorem readBits_seen (width : Nat) (c : Cursor bytes) :
    DrillCode.readBits width c.reader = seen UInt32.toNat (c.readBits width) := by
  rw [DrillCode.readBits, readBits]
  split
  · next h => exact @readOnto_seen bytes width 0 c (Nat.two_pow_pos _) h.2
  · rfl

theorem peekBits_seen (width : Nat) (c : Cursor bytes) :
    DrillCode.peekBits width c.reader = seen UInt32.toNat (c.peekBits width) := by
  rw [DrillCode.peekBits, peekBits, readBits_seen]
  cases c.readBits width <;> rfl

theorem skipBits_seen : ∀ (count : Nat) (c : Cursor bytes),
    DrillCode.skipBits count c.reader = seen id (c.skipBits count)
  | 0, _ => rfl
  | count + 1, c => by
    have hbit := c.readBit_seen
    rw [DrillCode.skipBits, skipBits]
    cases hread : c.readBit with
    | error e c' =>
      rw [hread] at hbit
      exact Scan.bind_error hbit
    | ok bit c' =>
      rw [hread] at hbit
      exact (Scan.bind_ok hbit).trans (skipBits_seen count c')

theorem nextIs_eq (c : Cursor bytes) (width expected : Nat) :
    c.nextIs width expected = c.reader.nextIs width expected := by
  rw [nextIs, peekBits, BitReader.nextIs, readBits_seen]
  cases c.readBits width <;> rfl

end Cursor
end DrillCode
