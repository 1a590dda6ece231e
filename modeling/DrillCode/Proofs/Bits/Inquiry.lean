import DrillCode.Proofs.Bits.Cursor

/-! # Asking a reader

A list of bits with a position is all there is to a reader. It is asked for bits, numbers and steps, and whatever is
asked of it, in whatever order and with or without success, it replies as the list says and stands where the list says.
The same holds of the reader that counts bytes and the bits of a byte. -/

namespace DrillCode

inductive Inquiry where
  | bit
  | read (width : Nat)
  | peek (width : Nat)
  | skip (count : Nat)
  | nextIs (width expected : Nat)
  deriving DecidableEq, Repr

inductive Reply where
  | number (value : Nat)
  | passed
  | truth (holds : Bool)
  | failed (error : DecodeError)
  deriving DecidableEq, Repr

/-- What bits are read from. -/
class BitSource (σ : Type) where
  ask : σ → Inquiry → Reply × σ
  position : σ → Nat
  bitLength : σ → Nat
  hasRemaining : σ → Bool

/-- What is seen of a source behind an inquiry, or at the start. -/
structure Sighting where
  reply : Option Reply
  position : Nat
  bitLength : Nat
  hasRemaining : Bool
  deriving DecidableEq, Repr

namespace BitSource
variable {σ τ : Type} [BitSource σ] [BitSource τ]

def sight (reply : Option Reply) (s : σ) : Sighting :=
  ⟨reply, position s, bitLength s, hasRemaining s⟩

def sightingsFrom (reply : Option Reply) (s : σ) : (inquiries : List Inquiry) → List Sighting
  | [] => [sight reply s]
  | inquiry :: inquiries => sight reply s :: sightingsFrom (some (ask s inquiry).1) (ask s inquiry).2 inquiries

/-- What is seen at the start and behind each of some inquiries. -/
def sightings (s : σ) (inquiries : List Inquiry) : List Sighting := sightingsFrom none s inquiries

def replies (s : σ) : (inquiries : List Inquiry) → List Reply
  | [] => []
  | inquiry :: inquiries => (ask s inquiry).1 :: replies (ask s inquiry).2 inquiries

/-- Sources in these states look alike, and reply alike to whatever is asked. -/
structure Simulation (R : σ → τ → Prop) : Prop where
  sight : ∀ {s t}, R s t → ∀ reply, sight reply s = sight reply t
  reply : ∀ {s t}, R s t → ∀ inquiry, (ask s inquiry).1 = (ask t inquiry).1
  next : ∀ {s t}, R s t → ∀ inquiry, R (ask s inquiry).2 (ask t inquiry).2

theorem Simulation.sightingsFrom_eq {R : σ → τ → Prop} (h : Simulation R) : ∀ (inquiries : List Inquiry)
    (reply : Option Reply) {s : σ} {t : τ}, R s t → sightingsFrom reply s inquiries = sightingsFrom reply t inquiries
  | [], reply, _, _, hst => by rw [sightingsFrom, sightingsFrom, h.sight hst]
  | inquiry :: inquiries, reply, _, _, hst => by
    rw [sightingsFrom, sightingsFrom, h.sight hst, h.reply hst inquiry,
      h.sightingsFrom_eq inquiries _ (h.next hst inquiry)]

theorem Simulation.replies_eq {R : σ → τ → Prop} (h : Simulation R) : ∀ (inquiries : List Inquiry) {s : σ} {t : τ},
    R s t → replies s inquiries = replies t inquiries
  | [], _, _, _ => rfl
  | inquiry :: inquiries, _, _, hst => by
    rw [replies, replies, h.reply hst inquiry, h.replies_eq inquiries (h.next hst inquiry)]

/-- The reply to what was asked for, or why there is no other one. -/
def answered {α : Type} (f : α → Reply) : EStateM.Result DecodeError σ α → Reply × σ
  | .ok a s => (f a, s)
  | .error e s => (.failed e, s)

end BitSource
open BitSource

/-! ### A list of bits with a position -/

structure Tape where
  bits : List Bool
  position : Nat
  within : position ≤ bits.length

namespace Tape
variable {t : Tape}

def ofBytes (bytes : List UInt8) (offset : Nat) : Tape :=
  ⟨Bits.ofBytes bytes, min offset (Bits.ofBytes bytes).length, Nat.min_le_right _ _⟩

/-- Moves over the next `n` bits if there are as many, and to the end if not. -/
def pass (t : Tape) (n : Nat) (f : List Bool → Reply) : Reply × Tape :=
  if h : t.position + n ≤ t.bits.length then (f ((t.bits.drop t.position).take n), ⟨t.bits, t.position + n, h⟩)
  else (.failed (.endOfData t.bits.length), ⟨t.bits, t.bits.length, Nat.le_refl _⟩)

def read (t : Tape) (width : Nat) : Reply × Tape :=
  if 1 ≤ width ∧ width ≤ 32 then t.pass width fun bits => .number (Bits.toNat bits)
  else (.failed (.invalidWidth width), t)

instance : BitSource Tape where
  ask t
    | .bit => t.read 1
    | .read width => t.read width
    | .peek width => ((t.read width).1, t)
    | .skip count => t.pass count fun _ => .passed
    | .nextIs width expected => (.truth ((t.read width).1 == .number expected), t)
  position t := t.position
  bitLength t := t.bits.length
  hasRemaining t := t.position < t.bits.length

theorem bits_pass (t : Tape) (n : Nat) (f : List Bool → Reply) : (t.pass n f).2.bits = t.bits := by
  rw [pass]
  split <;> rfl

theorem bits_read (t : Tape) (width : Nat) : (t.read width).2.bits = t.bits := by
  rw [read]
  split
  · exact t.bits_pass width _
  · rfl

theorem bits_ask (t : Tape) (inquiry : Inquiry) : (ask t inquiry).2.bits = t.bits := by
  cases inquiry with
  | bit => exact t.bits_read 1
  | read width => exact t.bits_read width
  | skip count => exact t.bits_pass count _
  | peek width => rfl
  | nextIs width expected => rfl

/-- Induction on the inquiries: the tape stays within its bits. -/
theorem of_mem_sightingsFrom {seen : Sighting} : ∀ {inquiries : List Inquiry} {reply : Option Reply} {t : Tape},
    seen ∈ sightingsFrom reply t inquiries → seen.bitLength = t.bits.length ∧ seen.position ≤ seen.bitLength ∧
      (seen.hasRemaining = true ↔ seen.position < seen.bitLength)
  | [], _, t, h => by
    rw [sightingsFrom, List.mem_singleton] at h
    subst h
    exact ⟨rfl, t.within, decide_eq_true_iff⟩
  | inquiry :: inquiries, _, t, h => by
    rw [sightingsFrom] at h
    rcases List.mem_cons.mp h with rfl | h
    · exact ⟨rfl, t.within, decide_eq_true_iff⟩
    · rw [← t.bits_ask inquiry]
      exact of_mem_sightingsFrom h

end Tape

/-! ### The bits ahead -/

namespace BitReader
variable {r : BitReader} {t : Tape}

instance : BitSource BitReader where
  ask r
    | .bit => answered (fun bit => .number bit.toNat) (readBit r)
    | .read width => answered .number (readBits width r)
    | .peek width => answered .number (peekBits width r)
    | .skip count => answered (fun _ => .passed) (skipBits count r)
    | .nextIs width expected => (.truth (r.nextIs width expected), r)
  position r := r.position
  bitLength r := r.bitLength
  hasRemaining r := r.hasRemaining

/-- The reader is where the tape is, in front of the same bits. -/
structure Follows (r : BitReader) (t : Tape) : Prop where
  position : r.position = t.position
  unread : r.unread = t.bits.drop t.position

theorem ofBytes_follows (bytes : List UInt8) (offset : Nat) : (ofBytes bytes offset).Follows (.ofBytes bytes offset) where
  position := Nat.zero_add _
  unread := List.drop_eq_drop_min

theorem Follows.length_unread (h : r.Follows t) : r.unread.length = t.bits.length - t.position := by
  rw [h.unread, List.length_drop]

theorem Follows.bitLength_eq (h : r.Follows t) : r.bitLength = t.bits.length := by
  rw [bitLength, h.length_unread, h.position, Nat.add_sub_cancel' t.within]

theorem Follows.sight_eq (h : r.Follows t) (reply : Option Reply) : sight reply r = sight reply t := by
  have hpos : 0 < r.unread.length ↔ t.position < t.bits.length := by
    rw [h.length_unread]
    omega
  have hremaining : r.hasRemaining = decide (t.position < t.bits.length) := by
    rw [hasRemaining, Bool.eq_iff_iff, decide_eq_true_iff, ← hpos, List.length_pos_iff, Bool.not_eq_true',
      List.isEmpty_eq_false_iff]
  simp only [sight, BitSource.position, BitSource.bitLength, BitSource.hasRemaining, h.position, h.bitLength_eq, hremaining]

theorem readOnto_of_le {n value : Nat} (h : n ≤ r.unread.length) : readOnto value n r =
    .ok ((r.unread.take n).foldl (fun value bit => 2 * value + bit.toNat) value) (r.skip n) := by
  have htake : (r.unread.take n).length = n := List.length_take_of_le h
  have hreads := readOnto_reads (r.unread.take n) value r.position (r.unread.drop n)
  rw [List.take_append_drop, htake] at hreads
  rw [hreads, skip, Nat.min_eq_left h]

theorem readOnto_of_lt : ∀ {n value : Nat} {r : BitReader}, r.unread.length < n →
    readOnto value n r = .error (.endOfData r.bitLength) ⟨r.bitLength, []⟩
  | 0, _, _, h => absurd h (Nat.not_lt_zero _)
  | n + 1, _, ⟨_, []⟩, _ => rfl
  | n + 1, value, ⟨position, bit :: unread⟩, h => by
    have hrest := @readOnto_of_lt n (2 * value + bit.toNat) ⟨position + 1, unread⟩ (Nat.lt_of_succ_lt_succ h)
    have hlength : bitLength ⟨position + 1, unread⟩ = bitLength ⟨position, bit :: unread⟩ :=
      Nat.succ_add_eq_add_succ position unread.length
    rw [hlength] at hrest
    exact hrest

/-- Skipping is reading a number that nobody wants. -/
theorem skipBits_eq : ∀ (n value : Nat) (r : BitReader),
    skipBits n r = match readOnto value n r with
      | .ok _ r' => .ok () r'
      | .error e r' => .error e r'
  | 0, _, _ => rfl
  | _ + 1, _, ⟨_, []⟩ => rfl
  | n + 1, value, ⟨position, bit :: unread⟩ => skipBits_eq n (2 * value + bit.toNat) ⟨position + 1, unread⟩

/-- The same reply, and the reader still where the tape is. -/
def Agrees (x : Reply × BitReader) (y : Reply × Tape) : Prop := x.1 = y.1 ∧ x.2.Follows y.2

theorem Follows.pass (h : r.Follows t) {n value : Nat} {f : Nat → Reply} {g : List Bool → Reply}
    (hfg : ∀ bits, f (bits.foldl (fun value bit => 2 * value + bit.toNat) value) = g bits) :
    Agrees (answered f (readOnto value n r)) (t.pass n g) := by
  have hlength := h.length_unread
  have hwithin := t.within
  by_cases hn : t.position + n ≤ t.bits.length
  · rw [readOnto_of_le (by omega), Tape.pass, dif_pos hn]
    refine ⟨?_, ?_, ?_⟩
    · rw [answered, hfg, h.unread]
    · rw [answered, skip, h.position, Nat.min_eq_left (by omega)]
    · rw [answered, skip, h.unread, List.drop_drop]
  · rw [readOnto_of_lt (by omega), Tape.pass, dif_neg hn, h.bitLength_eq]
    exact ⟨rfl, rfl, List.drop_length.symm⟩

theorem Follows.read (h : r.Follows t) (width : Nat) :
    Agrees (answered .number (readBits width r)) (t.read width) := by
  rw [readBits, Tape.read]
  split
  · exact h.pass fun _ => rfl
  · exact ⟨rfl, h⟩

theorem readBit_answered (r : BitReader) :
    answered (fun bit => .number bit.toNat) (readBit r) = answered .number (readBits 1 r) := by
  obtain ⟨position, _ | ⟨bit, unread⟩⟩ := r
  · rfl
  · cases bit <;> rfl

theorem peekBits_answered (width : Nat) (r : BitReader) :
    answered .number (peekBits width r) = ((answered .number (readBits width r)).1, r) := by
  rw [peekBits]
  cases readBits width r <;> rfl

theorem skipBits_answered (count : Nat) (r : BitReader) :
    answered (fun _ => .passed) (skipBits count r) = answered (fun _ => .passed) (readOnto 0 count r) := by
  rw [skipBits_eq count 0]
  cases readOnto 0 count r <;> rfl

theorem nextIs_answered (width expected : Nat) (r : BitReader) :
    r.nextIs width expected = ((answered .number (readBits width r)).1 == .number expected) := by
  rw [nextIs, Bool.eq_iff_iff, beq_iff_eq]
  cases readBits width r with
  | ok value rest => rw [answered, Reply.number.injEq, beq_iff_eq]
  | error e rest =>
    constructor
    · intro h
      cases h
    · intro h
      cases h

theorem Follows.ask (h : r.Follows t) (inquiry : Inquiry) :
    Agrees (BitSource.ask r inquiry) (BitSource.ask t inquiry) := by
  cases inquiry with
  | bit =>
    show Agrees (answered (fun bit => .number bit.toNat) (readBit r)) (t.read 1)
    rw [readBit_answered]
    exact h.read 1
  | read width => exact h.read width
  | peek width =>
    show Agrees (answered .number (peekBits width r)) ((t.read width).1, t)
    rw [peekBits_answered]
    exact ⟨(h.read width).1, h⟩
  | skip count =>
    show Agrees (answered (fun _ => .passed) (skipBits count r)) (t.pass count fun _ => .passed)
    rw [skipBits_answered]
    exact h.pass fun _ => rfl
  | nextIs width expected =>
    show Agrees (.truth (r.nextIs width expected), r) (.truth ((t.read width).1 == .number expected), t)
    rw [nextIs_answered, (h.read width).1]
    exact ⟨rfl, h⟩

theorem follows_simulation : Simulation Follows where
  sight h := h.sight_eq
  reply h inquiry := (h.ask inquiry).1
  next h inquiry := (h.ask inquiry).2

end BitReader

/-! ### Bytes -/

namespace Cursor
variable {bytes : List UInt8} {t : Tape}

instance : BitSource (Cursor bytes) where
  ask c
    | .bit => answered (fun bit => .number bit.toNat) c.readBit
    | .read width => answered (fun value => .number value.toNat) (c.readBits width)
    | .peek width => answered (fun value => .number value.toNat) (c.peekBits width)
    | .skip count => answered (fun _ => .passed) (c.skipBits count)
    | .nextIs width expected => (.truth (c.nextIs width expected), c)
  position c := c.position
  bitLength _ := 8 * bytes.length
  hasRemaining c := c.hasRemaining

theorem answered_seen {α β : Type} (f : α → β) (g : β → Reply) (result : EStateM.Result DecodeError (Cursor bytes) α) :
    answered g (seen f result) = ((answered (g ∘ f) result).1, (answered (g ∘ f) result).2.reader) := by
  cases result <;> rfl

/-- A cursor replies as the reader of the bits ahead does. -/
theorem ask_reader (c : Cursor bytes) (inquiry : Inquiry) :
    ask c.reader inquiry = ((ask c inquiry).1, (ask c inquiry).2.reader) := by
  cases inquiry with
  | bit =>
    show answered (fun bit => .number bit.toNat) (DrillCode.readBit c.reader) = _
    rw [readBit_seen]
    exact answered_seen id _ _
  | read width =>
    show answered .number (DrillCode.readBits width c.reader) = _
    rw [readBits_seen]
    exact answered_seen UInt32.toNat _ _
  | peek width =>
    show answered .number (DrillCode.peekBits width c.reader) = _
    rw [peekBits_seen]
    exact answered_seen UInt32.toNat _ _
  | skip count =>
    show answered (fun _ => .passed) (DrillCode.skipBits count c.reader) = _
    rw [skipBits_seen]
    exact answered_seen id _ _
  | nextIs width expected =>
    show (Reply.truth (c.reader.nextIs width expected), c.reader) = _
    rw [← nextIs_eq]
    rfl

/-- The bits ahead of the cursor are those ahead of the tape. -/
structure Follows (c : Cursor bytes) (t : Tape) : Prop where
  reader : c.reader.Follows t
  bits : t.bits = Bits.ofBytes bytes

theorem follows_simulation : Simulation (@Follows bytes) where
  sight {c t} h reply := by
    have hlength : 8 * bytes.length = c.reader.bitLength := by
      rw [h.reader.bitLength_eq, h.bits, Bits.length_ofBytes]
    rw [← h.reader.sight_eq reply]
    simp only [sight, BitSource.position, BitSource.bitLength, BitSource.hasRemaining, hlength, c.hasRemaining_eq]
    rfl
  reply {c t} h inquiry := by
    rw [← (h.reader.ask inquiry).1, ask_reader]
  next {c t} h inquiry := by
    have hnext := (h.reader.ask inquiry).2
    rw [ask_reader] at hnext
    exact ⟨hnext, (t.bits_ask inquiry).trans h.bits⟩

end Cursor

theorem Cursor.ofOffset_follows (bytes : List UInt8) (offset : Nat) :
    (ofOffset bytes offset).Follows (.ofBytes bytes offset) :=
  ⟨(reader_ofOffset offset).symm ▸ BitReader.ofBytes_follows bytes offset, rfl⟩

/-- What is seen of a reader is what the list of bits shows, and it never leaves the bits. -/
theorem sightings_ofBytes (bytes : List UInt8) (offset : Nat) (inquiries : List Inquiry) :
    sightings (BitReader.ofBytes bytes offset) inquiries = sightings (Tape.ofBytes bytes offset) inquiries ∧
      sightings (Cursor.ofOffset bytes offset) inquiries = sightings (Tape.ofBytes bytes offset) inquiries ∧
      ∀ seen ∈ sightings (BitReader.ofBytes bytes offset) inquiries, seen.bitLength = 8 * bytes.length ∧
        seen.position ≤ seen.bitLength ∧ (seen.hasRemaining = true ↔ seen.position < seen.bitLength) := by
  have hreader : sightings (BitReader.ofBytes bytes offset) inquiries = sightings (Tape.ofBytes bytes offset) inquiries :=
    BitReader.follows_simulation.sightingsFrom_eq inquiries none (BitReader.ofBytes_follows bytes offset)
  have hcursor : sightings (Cursor.ofOffset bytes offset) inquiries = sightings (Tape.ofBytes bytes offset) inquiries :=
    Cursor.follows_simulation.sightingsFrom_eq inquiries none (Cursor.ofOffset_follows bytes offset)
  refine ⟨hreader, hcursor, fun seen hseen => ?_⟩
  rw [hreader] at hseen
  rw [← Bits.length_ofBytes]
  exact Tape.of_mem_sightingsFrom hseen

theorem sightings_ofBytes_sample :
    let inquiries := [.peek 20, .read 7, .skip 3, .nextIs 2 3, .read 33, .read 4, .bit]
    sightings (Cursor.ofOffset [0xB4, 0x0F] 3) inquiries =
        [⟨none, 3, 16, true⟩, ⟨some (.failed (.endOfData 16)), 3, 16, true⟩, ⟨some (.number 0b1010000), 10, 16, true⟩,
          ⟨some .passed, 13, 16, true⟩, ⟨some (.truth true), 13, 16, true⟩,
          ⟨some (.failed (.invalidWidth 33)), 13, 16, true⟩, ⟨some (.failed (.endOfData 16)), 16, 16, false⟩,
          ⟨some (.failed (.endOfData 16)), 16, 16, false⟩] ∧
      ∃ seen ∈ sightings (BitReader.ofBytes [0xB4, 0x0F] 3) inquiries, seen.position = 13 ∧ seen.hasRemaining = true ∧
        seen.position < seen.bitLength := by
  intro inquiries
  obtain ⟨hreader, hcursor, hwithin⟩ := sightings_ofBytes [0xB4, 0x0F] 3 inquiries
  have hmem : ⟨some .passed, 13, 16, true⟩ ∈ sightings (BitReader.ofBytes [0xB4, 0x0F] 3) inquiries := by
    decide +kernel
  obtain ⟨-, -, hremaining⟩ := hwithin _ hmem
  exact ⟨hcursor.trans (by decide +kernel), _, hmem, rfl, rfl, hremaining.mp rfl⟩

end DrillCode
