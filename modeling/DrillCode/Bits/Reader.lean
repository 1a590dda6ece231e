import DrillCode.Bits.Basic
import DrillCode.DecodeError

/-! # Reading bits

A `BitReader` is a place in a bit string: how many bits lie before it and which ones are still unread.
A `Scan` is a step from there. It gives a value or a cause of failure, and in both cases the place where
it stopped: a read that runs out of bits has read them all, and a number of a width outside 1 to 32 is
refused where it stands. Some scans are made only where bits are left (`ifRemaining`). Scans never move back
(`Scan.Advances`), which is what ends the loops that are built from them. -/

namespace DrillCode

/-- A place in a bit string. -/
structure BitReader where
  /-- The number of bits that lie before. -/
  position : Nat
  /-- The bits that follow. -/
  unread : List Bool
  deriving DecidableEq, Repr

/-- What a step from a place gives: a value or an error, and the place where it stopped. -/
abbrev Scanned (α : Type) := EStateM.Result DecodeError BitReader α

/-- A step from a place in a bit string. -/
abbrev Scan (α : Type) := EStateM DecodeError BitReader α

namespace BitReader

/-- The place `n` bits further, or the end of the bit string if that is nearer. -/
def skip (r : BitReader) (n : Nat) : BitReader where
  position := r.position + min n r.unread.length
  unread := r.unread.drop n

/-- The place `offset` bits into a byte string, or its end if that is nearer. -/
def ofBytes (bytes : List UInt8) (offset : Nat) : BitReader :=
  skip ⟨0, Bits.ofBytes bytes⟩ offset

/-- The length of the whole bit string. -/
def bitLength (r : BitReader) : Nat :=
  r.position + r.unread.length

def hasRemaining (r : BitReader) : Bool :=
  !r.unread.isEmpty

@[simp] theorem hasRemaining_eq_false {r : BitReader} : r.hasRemaining = false ↔ r.unread = [] := by
  rw [hasRemaining, Bool.not_eq_false', List.isEmpty_iff]

/-- `r'` lies at least `k` bits after `r` in the same bit string. -/
def Ahead (k : Nat) (r r' : BitReader) : Prop :=
  ∃ read, r.unread = read ++ r'.unread ∧ r'.position = r.position + read.length ∧ k ≤ read.length

end BitReader

def readBit : Scan Bool := fun r =>
  match r.unread with
  | [] => .error (.endOfData r.position) r
  | bit :: rest => .ok bit ⟨r.position + 1, rest⟩

/-- Reads `n` more bits of a number whose bits so far spell `value`. -/
def readOnto (value : Nat) : (n : Nat) → Scan Nat
  | 0 => pure value
  | n + 1 => do
    let bit ← readBit
    readOnto (2 * value + bit.toNat) n

/-- Reads a number of `n` bits, for `n` from 1 to 32. -/
def readBits (n : Nat) : Scan Nat :=
  if 1 ≤ n ∧ n ≤ 32 then readOnto 0 n else throw (.invalidWidth n)

/-- Reads a number of `n` bits and stays in place, also when that fails. -/
def peekBits (n : Nat) : Scan Nat := fun r =>
  match readBits n r with
  | .ok value _ => .ok value r
  | .error e _ => .error e r

def skipBits : (n : Nat) → Scan Unit
  | 0 => pure ()
  | n + 1 => do
    let _ ← readBit
    skipBits n

/-- The next `n` bits can be read and spell `expected`. -/
def BitReader.nextIs (r : BitReader) (n expected : Nat) : Bool :=
  match readBits n r with
  | .ok value _ => value == expected
  | .error _ _ => false

/-- Bits are left, and the next `n` of them spell `expected`. -/
def BitReader.isAt (r : BitReader) (n expected : Nat) : Bool :=
  r.hasRemaining && r.nextIs n expected

/-- The place behind an end marker of `n` bits, if one follows. -/
def BitReader.skipMarker (r : BitReader) (n : Nat) : BitReader :=
  if r.isAt n 0 then r.skip n else r

/-- Scans where bits are left; where none are, that counts as running out of them. -/
def ifRemaining {α : Type} (s : Scan α) : Scan α := fun r =>
  if r.hasRemaining then s r else .error (.endOfData r.position) r

/-- What is found behind the check is found without it. -/
theorem eq_ok_of_ifRemaining {α : Type} {s : Scan α} {r r' : BitReader} {a : α}
    (h : ifRemaining s r = .ok a r') : s r = .ok a r' := by
  unfold ifRemaining at h
  split at h
  · exact h
  · cases h

/-! ### Places move forward -/

namespace BitReader.Ahead
variable {j k : Nat} {r s t : BitReader}

theorem refl (r : BitReader) : Ahead 0 r r :=
  ⟨[], rfl, rfl, Nat.le_refl 0⟩

theorem trans (h₁ : Ahead j r s) (h₂ : Ahead k s t) : Ahead (j + k) r t := by
  obtain ⟨a, ha, pa, la⟩ := h₁
  obtain ⟨b, hb, pb, lb⟩ := h₂
  exact ⟨a ++ b, by rw [ha, hb, List.append_assoc], by rw [pb, pa, List.length_append, Nat.add_assoc],
    by rw [List.length_append]; exact Nat.add_le_add la lb⟩

theorem mono (h : Ahead j r s) (hk : k ≤ j) : Ahead k r s := by
  obtain ⟨a, ha, pa, la⟩ := h
  exact ⟨a, ha, pa, Nat.le_trans hk la⟩

theorem length_le (h : Ahead k r s) : s.unread.length + k ≤ r.unread.length := by
  obtain ⟨a, ha, -, la⟩ := h
  rw [ha, List.length_append]
  omega

theorem length_lt (h : Ahead k r s) (hk : 0 < k) : s.unread.length < r.unread.length :=
  Nat.lt_of_lt_of_le (Nat.lt_add_of_pos_right hk) h.length_le

/-- Passing over one bit more gets further, as long as there is one. -/
theorem length_skip_lt (h : Ahead k r s) (hs : s.unread ≠ []) : (s.skip 1).unread.length < r.unread.length := by
  have hle := h.length_le
  have hpos := List.length_pos_iff.mpr hs
  rw [skip, List.length_drop]
  omega

theorem bitLength_eq (h : Ahead k r s) : s.bitLength = r.bitLength := by
  obtain ⟨a, ha, pa, -⟩ := h
  rw [bitLength, bitLength, ha, pa, List.length_append, Nat.add_assoc]

end BitReader.Ahead

/-- A scan that never moves back, and that has read at least `k` bits when it succeeds. -/
structure Scan.Advances {α : Type} (k : Nat) (s : Scan α) : Prop where
  ok : ∀ {r a r'}, s r = .ok a r' → r.Ahead k r'
  error : ∀ {r e r'}, s r = .error e r' → r.Ahead 0 r'

namespace Scan.Advances
variable {α β : Type} {j k : Nat}

theorem mono {s : Scan α} (h : Advances j s) (hk : k ≤ j) : Advances k s :=
  ⟨fun hs => (h.ok hs).mono hk, h.error⟩

theorem pure (a : α) : Advances 0 (pure a : Scan α) where
  ok := fun hs => by
    cases hs
    exact .refl _
  error := fun hs => by cases hs

theorem throw (e : DecodeError) : Advances k (throw e : Scan α) where
  ok := fun hs => by cases hs
  error := fun hs => by
    cases hs
    exact .refl _

theorem bind {s : Scan α} {f : α → Scan β} (hs : Advances j s) (hf : ∀ a, Advances k (f a)) :
    Advances (j + k) (s >>= f) where
  ok := fun {r b r'} h => by
    simp only [Bind.bind, EStateM.bind] at h
    split at h
    · next a r₁ hr => exact (hs.ok hr).trans ((hf a).ok h)
    · cases h
  error := fun {r e r'} h => by
    simp only [Bind.bind, EStateM.bind] at h
    split at h
    · next a r₁ hr => exact ((hs.ok hr).trans ((hf a).error h)).mono (Nat.zero_le _)
    · next e₁ r₁ hr =>
      cases h
      exact hs.error hr

theorem map {s : Scan α} (f : α → β) (hs : Advances j s) : Advances j (f <$> s) where
  ok := fun {r b r'} h => by
    simp only [Functor.map, EStateM.map] at h
    split at h
    · next a r₁ hr =>
      cases h
      exact hs.ok hr
    · cases h
  error := fun {r e r'} h => by
    simp only [Functor.map, EStateM.map] at h
    split at h
    · cases h
    · next e₁ r₁ hr =>
      cases h
      exact hs.error hr

theorem ifRemaining {s : Scan α} (hs : Advances k s) : Advances k (ifRemaining s) where
  ok := fun h => hs.ok (eq_ok_of_ifRemaining h)
  error := fun {r e r'} h => by
    unfold DrillCode.ifRemaining at h
    split at h
    · exact hs.error h
    · cases h
      exact .refl r

end Scan.Advances

theorem readBit_advances : Scan.Advances 1 readBit where
  ok := fun {r a r'} h => by
    obtain ⟨position, unread⟩ := r
    cases unread with
    | nil => cases h
    | cons bit rest =>
      cases h
      exact ⟨[_], rfl, rfl, Nat.le_refl 1⟩
  error := fun {r e r'} h => by
    obtain ⟨position, unread⟩ := r
    cases unread with
    | nil =>
      cases h
      exact .refl _
    | cons bit rest => cases h

theorem readOnto_advances (n : Nat) : ∀ value, Scan.Advances n (readOnto value n) := by
  induction n with
  | zero => exact fun value => .pure value
  | succ n ih =>
    intro value
    exact (readBit_advances.bind fun _ => ih _).mono (Nat.le_of_eq (Nat.add_comm n 1))

theorem readBits_advances (n : Nat) : Scan.Advances n (readBits n) := by
  unfold readBits
  split
  · exact readOnto_advances n 0
  · exact .throw _

theorem readBits_advances_one (n : Nat) : Scan.Advances 1 (readBits n) := by
  unfold readBits
  split
  · next h => exact (readOnto_advances n 0).mono h.1
  · exact .throw _

/-! ### Checks in front of a scan -/

theorem eq_skip_of_readOnto : ∀ {n value number : Nat} {r rest : BitReader},
    readOnto value n r = .ok number rest → rest = r.skip n
  | 0, _, _, _, _, h => by
    cases h
    rw [BitReader.skip, Nat.zero_min, Nat.add_zero, List.drop_zero]
  | n + 1, value, number, ⟨position, []⟩, rest, h => by cases h
  | n + 1, value, number, ⟨position, bit :: unread⟩, rest, h => by
    have hrest : rest = BitReader.skip ⟨position + 1, unread⟩ n := eq_skip_of_readOnto h
    rw [hrest, BitReader.skip, BitReader.skip, List.drop_succ_cons, List.length_cons,
      Nat.succ_min_succ, Nat.add_right_comm, Nat.add_assoc]

theorem eq_skip_of_readBits {n number : Nat} {r rest : BitReader} (h : readBits n r = .ok number rest) :
    rest = r.skip n := by
  unfold readBits at h
  split at h
  · exact eq_skip_of_readOnto h
  · cases h

/-- Bits that spell a number are left. -/
@[simp] theorem BitReader.isAt_eq (r : BitReader) (n expected : Nat) : r.isAt n expected = r.nextIs n expected := by
  unfold isAt nextIs
  cases hread : readBits n r with
  | error e rest => exact Bool.and_false _
  | ok value rest =>
    have hlt := ((readBits_advances_one n).ok hread).length_lt Nat.one_pos
    have hleft : r.hasRemaining = true := by
      rw [← Bool.not_eq_false, hasRemaining_eq_false]
      exact List.ne_nil_of_length_pos (Nat.zero_lt_of_lt hlt)
    rw [hleft, Bool.true_and]

/-- An end marker is passed over as it is read. -/
theorem skipMarker_of_readBits {n : Nat} {r rest : BitReader} (h : readBits n r = .ok 0 rest) :
    r.skipMarker n = rest := by
  rw [BitReader.skipMarker, BitReader.isAt_eq, BitReader.nextIs, h, if_pos (beq_self_eq_true 0), eq_skip_of_readBits h]

theorem skipBits_advances (n : Nat) : Scan.Advances n (skipBits n) := by
  induction n with
  | zero => exact .pure ()
  | succ n ih => exact (readBit_advances.bind fun _ => ih).mono (Nat.le_of_eq (Nat.add_comm n 1))

theorem peekBits_advances (n : Nat) : Scan.Advances 0 (peekBits n) where
  ok := fun {r a r'} h => by
    unfold peekBits at h
    split at h <;> cases h
    exact .refl _
  error := fun {r e r'} h => by
    unfold peekBits at h
    split at h <;> cases h
    exact .refl _

end DrillCode
