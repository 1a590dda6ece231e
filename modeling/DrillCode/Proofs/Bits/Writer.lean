import DrillCode.Proofs.Bits.Inquiry
import Mathlib.Algebra.Order.Ring.Nat

/-! # Writing bits

A writer adds a byte of zeros when the last one is full and sets the bits in it that are one. So its bytes are the bits
that were written with zeros behind them up to the end of the last byte, which is how bits are packed. Whoever reads
them from the start finds the numbers that these bits spell, wherever one read ends and the next one begins. -/

namespace DrillCode

namespace Bits

theorem getElem_ofNat : ∀ {w n i : Nat} (h : i < (ofNat w n).length), (ofNat w n)[i] = n.testBit (w - 1 - i)
  | 0, _, _, h => absurd h (Nat.not_lt_zero _)
  | w + 1, _, 0, _ => rfl
  | w + 1, n, i + 1, h => by
    have hrest := @getElem_ofNat w n i (Nat.lt_of_succ_lt_succ h)
    rw [Nat.add_sub_cancel, ← Nat.sub_sub, Nat.sub_right_comm]
    exact hrest

/-- A bit of a number is set where it stands among the digits. -/
theorem ofNat_or_two_pow {w i : Nat} (h : i < w) (n : Nat) :
    ofNat w (n ||| 2 ^ (w - 1 - i)) = (ofNat w n).set i true := by
  refine List.ext_getElem (by rw [List.length_set, length_ofNat, length_ofNat]) fun j hj hj' => ?_
  rw [length_ofNat] at hj
  rw [getElem_ofNat, List.getElem_set, getElem_ofNat, Nat.testBit_or, Nat.testBit_two_pow]
  by_cases hij : i = j
  · rw [if_pos hij, hij, decide_eq_true rfl, Bool.or_true]
  · rw [if_neg hij, decide_eq_false (by omega), Bool.or_false]

/-- A bit of a byte is set where it stands among all bits. -/
theorem ofBytes_modify {mask : UInt8} {i : Nat} (hi : i < 8) (hmask : mask.toNat = 2 ^ (7 - i)) :
    ∀ {k : Nat} {bytes : List UInt8}, k < bytes.length →
      ofBytes (bytes.modify k (· ||| mask)) = (ofBytes bytes).set (8 * k + i) true
  | _, [], h => absurd h (Nat.not_lt_zero _)
  | 0, byte :: bytes, _ => by
    have hset : (byte ||| mask).toNat = byte.toNat ||| 2 ^ (8 - 1 - i) := by rw [UInt8.toNat_or, hmask]
    rw [List.modify_zero_cons, ofBytes_cons, ofBytes_cons, hset, ofNat_or_two_pow hi, Nat.mul_zero, Nat.zero_add,
      List.set_append_left _ _ (by rw [length_ofNat]; exact hi)]
  | k + 1, byte :: bytes, h => by
    have hrest := @ofBytes_modify mask i hi hmask k bytes (Nat.lt_of_succ_lt_succ h)
    rw [List.modify_succ_cons, ofBytes_cons, ofBytes_cons, hrest, List.set_append_right _ _ (by rw [length_ofNat]; omega),
      length_ofNat]
    congr 2
    omega

theorem ofBytes_injective : ∀ {a b : List UInt8}, ofBytes a = ofBytes b → a = b
  | [], [], _ => rfl
  | [], _ :: _, h => by cases h
  | _ :: _, [], h => by cases h
  | x :: a, y :: b, h => by
    rw [ofBytes_cons, ofBytes_cons] at h
    obtain ⟨hfirst, hrest⟩ := List.append_inj h (by rw [length_ofNat, length_ofNat])
    have hbyte : x.toNat % 2 ^ 8 = y.toNat % 2 ^ 8 := by rw [← toNat_ofNat, ← toNat_ofNat, hfirst]
    rw [Nat.mod_eq_of_lt x.toNat_lt, Nat.mod_eq_of_lt y.toNat_lt] at hbyte
    rw [UInt8.toNat_inj.mp hbyte, ofBytes_injective hrest]

end Bits

/-- Bytes that are written bit by bit, and how many bits that were. -/
structure BitWriter where
  bytes : List UInt8
  bitLength : Nat
  deriving DecidableEq, Repr

namespace BitWriter
variable {w : BitWriter} {bits : List Bool}

def empty : BitWriter := ⟨[], 0⟩

/-- The bytes with room for one more bit. -/
def room (w : BitWriter) : List UInt8 :=
  if w.bitLength % 8 = 0 then w.bytes ++ [0] else w.bytes

/-- Sets the next bit in the last byte. -/
def pushBit (w : BitWriter) (bit : Bool) : BitWriter where
  bytes := if bit then w.room.modify (w.room.length - 1) (· ||| 0x80 >>> UInt8.ofNat (w.bitLength % 8)) else w.room
  bitLength := w.bitLength + 1

/-- Writes the low `n` bits of a word. -/
def pushBits (value : UInt64) : (n : Nat) → (w : BitWriter) → BitWriter
  | 0, w => w
  | n + 1, w => pushBits value n (w.pushBit (value >>> UInt64.ofNat n &&& 1 == 1))

/-- The bytes are the bits and zeros up to the end of the last byte. -/
structure Holds (w : BitWriter) (bits : List Bool) : Prop where
  bitLength : w.bitLength = bits.length
  bytes : Bits.ofBytes w.bytes = bits ++ List.replicate (Bits.padding bits.length) false

theorem empty_holds : empty.Holds [] := ⟨rfl, rfl⟩

namespace Holds

theorem length_bytes (h : w.Holds bits) : 8 * w.bytes.length = bits.length + Bits.padding bits.length := by
  rw [← Bits.length_ofBytes, h.bytes, List.length_append, List.length_replicate]

theorem eq_toBytes (h : w.Holds bits) : w.bytes = Bits.toBytes bits :=
  Bits.ofBytes_injective (h.bytes.trans (Bits.ofBytes_toBytes bits).symm)

/-- There is room for the next bit, which is zero so far. -/
theorem room (h : w.Holds bits) :
    Bits.ofBytes w.room = bits ++ false :: List.replicate (Bits.padding (bits.length + 1)) false := by
  rw [BitWriter.room, h.bitLength]
  split
  · next hfull =>
    have hpad : Bits.padding bits.length = 0 := by
      unfold Bits.padding
      omega
    have hpad' : Bits.padding (bits.length + 1) = 7 := by
      unfold Bits.padding
      omega
    rw [Bits.ofBytes_append, h.bytes, hpad, hpad', List.replicate_zero, List.append_nil]
    rfl
  · next hpart =>
    have hpad : Bits.padding bits.length = Bits.padding (bits.length + 1) + 1 := by
      unfold Bits.padding
      omega
    rw [h.bytes, hpad, List.replicate_succ]

theorem pushBit (h : w.Holds bits) (bit : Bool) : (w.pushBit bit).Holds (bits ++ [bit]) := by
  have hroom := h.room
  have hlength : 8 * w.room.length = bits.length + 1 + Bits.padding (bits.length + 1) := by
    rw [← Bits.length_ofBytes, hroom, List.length_append, List.length_cons, List.length_replicate, Nat.add_right_comm]
    rfl
  refine ⟨?_, ?_⟩
  · rw [BitWriter.pushBit, h.bitLength, List.length_append, List.length_singleton]
  · rw [List.append_assoc, List.length_append, List.length_singleton, List.singleton_append]
    cases bit with
    | false => exact hroom
    | true =>
      have hmask : ∀ i < 8, (0x80 >>> UInt8.ofNat i : UInt8).toNat = 2 ^ (7 - i) := by decide
      have hbit : w.bitLength % 8 < 8 := Nat.mod_lt _ (by decide)
      -- The last byte is the one with the next bit, whether it was there or has just been added.
      have hplace : 8 * (w.room.length - 1) + w.bitLength % 8 = bits.length := by
        rw [h.bitLength]
        unfold Bits.padding at hlength
        omega
      show Bits.ofBytes (w.room.modify (w.room.length - 1) _) = _
      rw [Bits.ofBytes_modify hbit (hmask _ hbit) (by omega), hplace, hroom, List.set_append_right _ _ (Nat.le_refl _),
        Nat.sub_self, List.set_cons_zero]

end Holds

theorem testBit_shift {value : UInt64} {n : Nat} (h : n < 64) :
    (value >>> UInt64.ofNat n &&& 1 == 1) = value.toNat.testBit n := by
  have hn : (UInt64.ofNat n).toNat % 64 = n := by
    rw [UInt64.toNat_ofNat', Nat.mod_mod_of_dvd n (by decide), Nat.mod_eq_of_lt h]
  have hbit : (value >>> UInt64.ofNat n &&& 1).toNat = value.toNat >>> n % 2 := by
    rw [UInt64.toNat_and, UInt64.toNat_shiftRight, hn]
    exact Nat.and_one_is_mod _
  rw [Nat.testBit_eq_decide_div_mod_eq, ← Nat.shiftRight_eq_div_pow, ← hbit, Bool.eq_iff_iff, beq_iff_eq,
    decide_eq_true_iff, ← UInt64.toNat_inj]
  rfl

theorem Holds.pushBits {value : UInt64} : ∀ {n : Nat} {w : BitWriter} {bits : List Bool}, w.Holds bits → n ≤ 64 →
    (w.pushBits value n).Holds (bits ++ Bits.ofNat n value.toNat)
  | 0, _, bits, h, _ => (List.append_nil bits).symm ▸ h
  | n + 1, w, bits, h, hn => by
    have hrest := @pushBits value n _ _ (h.pushBit (value.toNat.testBit n)) (Nat.le_of_succ_le hn)
    rw [BitWriter.pushBits, testBit_shift hn, Bits.ofNat]
    rwa [List.append_assoc] at hrest

/-- What a writer is given: a bit, or the low bits of a word. -/
inductive Push where
  | bit (value : Bool)
  | word (value : UInt64) (width : Nat)
  deriving DecidableEq, Repr

namespace Push

def width : Push → Nat
  | bit _ => 1
  | word _ width => width

def code : Push → List Bool
  | bit value => [value]
  | word value width => Bits.ofNat width value.toNat

theorem length_code (push : Push) : push.code.length = push.width := by
  cases push with
  | bit value => rfl
  | word value width => exact Bits.length_ofNat width _

end Push

def push (w : BitWriter) : Push → BitWriter
  | .bit value => w.pushBit value
  | .word value width => w.pushBits value width

def written (pushes : List Push) : BitWriter := pushes.foldl push empty

theorem Holds.push (h : w.Holds bits) {push : Push} (hwidth : push.width ≤ 64) :
    (w.push push).Holds (bits ++ push.code) := by
  cases push with
  | bit value => exact h.pushBit value
  | word value width => exact h.pushBits hwidth

theorem Holds.foldl_push : ∀ {pushes : List Push} {w : BitWriter} {bits : List Bool}, w.Holds bits →
    (∀ push ∈ pushes, push.width ≤ 64) → (pushes.foldl BitWriter.push w).Holds (bits ++ pushes.flatMap Push.code)
  | [], _, bits, h, _ => (List.append_nil bits).symm ▸ h
  | push :: pushes, _, _, h, hwidth => by
    have hrest := (h.push (hwidth push List.mem_cons_self)).foldl_push fun x hx => hwidth x (List.mem_cons_of_mem push hx)
    rwa [List.append_assoc] at hrest

end BitWriter

/-! ### Reading back -/

/-- The parts of a bit string that have these lengths. -/
def Bits.cut : (lengths : List Nat) → (bits : List Bool) → List (List Bool)
  | [], _ => []
  | n :: lengths, bits => bits.take n :: cut lengths (bits.drop n)

open BitSource

theorem Tape.replies_read : ∀ {widths : List Nat} {t : Tape}, (∀ width ∈ widths, 1 ≤ width ∧ width ≤ 32) →
    t.position + widths.sum ≤ t.bits.length →
      replies t (widths.map .read) =
        (Bits.cut widths (t.bits.drop t.position)).map fun part => .number (Bits.toNat part)
  | [], _, _, _ => rfl
  | width :: widths, t, hwidths, hsum => by
    rw [List.sum_cons] at hsum
    have hfits : t.position + width ≤ t.bits.length := by omega
    have hread : ask t (.read width) = (.number (Bits.toNat ((t.bits.drop t.position).take width)),
        ⟨t.bits, t.position + width, hfits⟩) :=
      (if_pos (hwidths width List.mem_cons_self)).trans (dif_pos hfits)
    have hrest := @replies_read widths ⟨t.bits, t.position + width, hfits⟩
      (fun x hx => hwidths x (List.mem_cons_of_mem width hx)) (by rw [Nat.add_assoc]; exact hsum)
    rw [List.map_cons, replies, hread, hrest, Bits.cut, List.map_cons, List.drop_drop]

namespace BitWriter

/-- However the bytes that were written are read, the numbers are those that the bits spell. -/
theorem replies_written (pushes : List Push) (hwidth : ∀ push ∈ pushes, push.width ≤ 64) :
    let w := written pushes
    let bits := pushes.flatMap Push.code
    let stream := bits ++ List.replicate (8 * w.bytes.length - w.bitLength) false
    w.bitLength = (pushes.map Push.width).sum ∧ w.bytes.length = (w.bitLength + 7) / 8 ∧ w.bytes = Bits.toBytes bits ∧
      ∀ widths : List Nat, (∀ width ∈ widths, 1 ≤ width ∧ width ≤ 32) → widths.sum ≤ 8 * w.bytes.length →
        replies (BitReader.ofBytes w.bytes 0) (widths.map .read) =
            (Bits.cut widths stream).map (fun part => .number (Bits.toNat part)) ∧
          replies (Cursor.ofOffset w.bytes 0) (widths.map .read) =
            (Bits.cut widths stream).map fun part => .number (Bits.toNat part) := by
  intro w bits stream
  have hholds : w.Holds bits := empty_holds.foldl_push hwidth
  have hbytes := hholds.length_bytes
  have hlength : w.bitLength = bits.length := hholds.bitLength
  refine ⟨?_, ?_, hholds.eq_toBytes, fun widths hwidths hsum => ?_⟩
  · rw [hlength, List.length_flatMap]
    exact congrArg List.sum (List.map_congr_left fun push _ => push.length_code)
  · rw [hlength]
    unfold Bits.padding at hbytes
    omega
  · have hpad : Bits.padding bits.length = 8 * w.bytes.length - w.bitLength := by omega
    have hstream : Bits.ofBytes w.bytes = stream := by rw [hholds.bytes, hpad]
    have hreplies : replies (Tape.ofBytes w.bytes 0) (widths.map .read) =
        (Bits.cut widths stream).map fun part => .number (Bits.toNat part) := by
      have hposition : (Tape.ofBytes w.bytes 0).position = 0 := Nat.zero_min _
      have hfits : (Tape.ofBytes w.bytes 0).position + widths.sum ≤ (Tape.ofBytes w.bytes 0).bits.length := by
        rw [hposition, Nat.zero_add]
        exact Nat.le_trans hsum (Nat.le_of_eq (Bits.length_ofBytes w.bytes).symm)
      rw [Tape.replies_read hwidths hfits, hposition, List.drop_zero, ← hstream]
      rfl
    exact ⟨(BitReader.follows_simulation.replies_eq _ (BitReader.ofBytes_follows w.bytes 0)).trans hreplies,
      (Cursor.follows_simulation.replies_eq _ (Cursor.ofOffset_follows w.bytes 0)).trans hreplies⟩

theorem replies_written_sample :
    let pushes := [Push.word 0xFD 3, .bit true, .word 0xFFFFFFFFFFFFFFFF 64, .word 2 2]
    (∀ push ∈ pushes, push.width ≤ 64) ∧ (∀ width ∈ [32, 1, 7, 32], 1 ≤ width ∧ width ≤ 32) ∧
      (written pushes).bitLength = 70 ∧ (written pushes).bytes.length = 9 ∧
      replies (Cursor.ofOffset (written pushes).bytes 0) ([32, 1, 7, 32].map .read) =
        [.number 0xBFFFFFFF, .number 1, .number 127, .number 0xFFFFFFF8] := by
  intro pushes
  have hwidth : ∀ push ∈ pushes, push.width ≤ 64 := by decide
  have hwidths : ∀ width ∈ [32, 1, 7, 32], 1 ≤ width ∧ width ≤ 32 := by decide
  obtain ⟨hlength, hbytes, -, hreplies⟩ := replies_written pushes hwidth
  have hcursor := (hreplies [32, 1, 7, 32] hwidths (by decide +kernel)).2
  exact ⟨hwidth, hwidths, hlength, hbytes.trans (by decide +kernel), hcursor.trans (by decide +kernel)⟩

end BitWriter
end DrillCode
