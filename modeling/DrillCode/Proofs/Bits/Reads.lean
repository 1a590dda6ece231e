import DrillCode.Bits.Elias
import DrillCode.Number.Power

/-! # Reading what was written

A scan reads a code when it finds the code's value in front of whatever bits come behind it, and stops
right there (`Scan.Reads`). Scans that follow each other read codes that follow each other. A number of
`n` bits is read from its digits, and an Elias delta code gives back every number below `2 ^ 64`. -/

namespace DrillCode

namespace Scan
variable {α β : Type} {s : Scan α} {r r' : BitReader}

theorem bind_ok {f : α → Scan β} {a : α} (h : s r = .ok a r') : (s >>= f) r = f a r' := by
  simp only [Bind.bind, EStateM.bind, h]

theorem bind_error {f : α → Scan β} {e : DecodeError} (h : s r = .error e r') : (s >>= f) r = .error e r' := by
  simp only [Bind.bind, EStateM.bind, h]

theorem map_ok {f : α → β} {a : α} (h : s r = .ok a r') : (f <$> s) r = .ok (f a) r' := by
  simp only [Functor.map, EStateM.map, h]

theorem map_error {f : α → β} {e : DecodeError} (h : s r = .error e r') : (f <$> s) r = .error e r' := by
  simp only [Functor.map, EStateM.map, h]

end Scan

/-- The scan finds `a` in the bits `code`, whatever lies before and behind them. -/
def Scan.Reads {α : Type} (s : Scan α) (code : List Bool) (a : α) : Prop :=
  ∀ position rest, s ⟨position, code ++ rest⟩ = .ok a ⟨position + code.length, rest⟩

namespace Scan.Reads
variable {α β : Type} {s : Scan α} {code more : List Bool} {a : α} {b : β}

theorem pure (a : α) : Reads (pure a : Scan α) [] a := fun _ _ => rfl

theorem bind {f : α → Scan β} (hs : Reads s code a) (hf : Reads (f a) more b) :
    Reads (s >>= f) (code ++ more) b := by
  intro position rest
  rw [List.append_assoc, bind_ok (hs position (more ++ rest)), hf, List.length_append, Nat.add_assoc]

theorem map (f : α → β) (hs : Reads s code a) : Reads (f <$> s) code (f a) := fun position rest =>
  map_ok (hs position rest)

/-- The last scan of a row may read nothing. -/
theorem bind_nil {f : α → Scan β} (hs : Reads s code a) (hf : Reads (f a) [] b) : Reads (s >>= f) code b := by
  have h := hs.bind hf
  rwa [List.append_nil] at h

end Scan.Reads

/-! ### Numbers of a fixed width -/

theorem readBit_reads (bit : Bool) : Scan.Reads readBit [bit] bit := fun _ _ => rfl

theorem readOnto_reads : ∀ (bits : List Bool) (value : Nat),
    Scan.Reads (readOnto value bits.length) bits (bits.foldl (fun value bit => 2 * value + bit.toNat) value)
  | [], value => Scan.Reads.pure value
  | bit :: bits, value => (readBit_reads bit).bind (readOnto_reads bits (2 * value + bit.toNat))

theorem readBits_reads {n : Nat} {bits : List Bool} (hlen : bits.length = n) (hn : 1 ≤ n ∧ n ≤ 32) :
    Scan.Reads (readBits n) bits (Bits.toNat bits) := by
  subst hlen
  unfold readBits
  rw [if_pos hn]
  exact readOnto_reads bits 0

theorem readBits_of_le {n : Nat} {r : BitReader} (hlen : n ≤ r.unread.length) (hn : 1 ≤ n ∧ n ≤ 32) :
    readBits n r = .ok (Bits.toNat (r.unread.take n)) (r.skip n) := by
  have htake : (r.unread.take n).length = n := List.length_take_of_le hlen
  have h := readBits_reads htake hn r.position (r.unread.drop n)
  rw [List.take_append_drop, htake] at h
  rw [h, BitReader.skip, Nat.min_eq_left hlen]

theorem nextIs_of_lt {n expected : Nat} {r : BitReader} (hlen : r.unread.length < n) :
    r.nextIs n expected = false := by
  unfold BitReader.nextIs
  split
  · next hr => exact absurd ((readBits_advances n).ok hr).length_le (by omega)
  · rfl

theorem le_of_nextIs {n expected : Nat} {r : BitReader} (h : r.nextIs n expected = true) : n ≤ r.unread.length :=
  Nat.le_of_not_lt fun hlt => by
    rw [nextIs_of_lt hlt] at h
    cases h

theorem readBits_ofNat {n v : Nat} (hn : 1 ≤ n ∧ n ≤ 32) (hv : v < 2 ^ n) :
    Scan.Reads (readBits n) (Bits.ofNat n v) v := by
  have h := readBits_reads (Bits.length_ofNat n v) hn
  rwa [Bits.toNat_ofNat, Nat.mod_eq_of_lt hv] at h

theorem skipBits_reads : ∀ bits : List Bool, Scan.Reads (skipBits bits.length) bits ()
  | [] => Scan.Reads.pure ()
  | bit :: bits => (readBit_reads bit).bind (skipBits_reads bits)

theorem peekBits_append {n position : Nat} {bits rest : List Bool} (hlen : bits.length = n)
    (hn : 1 ≤ n ∧ n ≤ 32) :
    peekBits n ⟨position, bits ++ rest⟩ = .ok (Bits.toNat bits) ⟨position, bits ++ rest⟩ := by
  unfold peekBits
  rw [readBits_reads hlen hn position rest]

theorem nextIs_append {n position expected : Nat} {bits rest : List Bool} (hlen : bits.length = n)
    (hn : 1 ≤ n ∧ n ≤ 32) :
    BitReader.nextIs ⟨position, bits ++ rest⟩ n expected = (Bits.toNat bits == expected) := by
  unfold BitReader.nextIs
  rw [readBits_reads hlen hn position rest]

theorem peekBits_ofNat {n v position : Nat} {rest : List Bool} (hn : 1 ≤ n ∧ n ≤ 32) (hv : v < 2 ^ n) :
    peekBits n ⟨position, Bits.ofNat n v ++ rest⟩ = .ok v ⟨position, Bits.ofNat n v ++ rest⟩ := by
  rw [peekBits_append (Bits.length_ofNat n v) hn, Bits.toNat_ofNat, Nat.mod_eq_of_lt hv]

theorem nextIs_ofNat {n v position expected : Nat} {rest : List Bool} (hn : 1 ≤ n ∧ n ≤ 32) (hv : v < 2 ^ n) :
    BitReader.nextIs ⟨position, Bits.ofNat n v ++ rest⟩ n expected = (v == expected) := by
  rw [nextIs_append (Bits.length_ofNat n v) hn, Bits.toNat_ofNat, Nat.mod_eq_of_lt hv]

theorem skipMarker_ofNat {n : Nat} (hn : 1 ≤ n ∧ n ≤ 32) (position : Nat) (rest : List Bool) :
    BitReader.skipMarker ⟨position, Bits.ofNat n 0 ++ rest⟩ n = ⟨position + (Bits.ofNat n 0).length, rest⟩ :=
  skipMarker_of_readBits (readBits_ofNat hn (Nat.two_pow_pos n) position rest)

theorem peekBits_readBits_reads {n v : Nat} (hn : 1 ≤ n ∧ n ≤ 32) (hv : v < 2 ^ n) :
    Scan.Reads (peekBits n >>= fun _ => readBits n) (Bits.ofNat n v) v := fun position rest => by
  rw [Scan.bind_ok (peekBits_ofNat hn hv)]
  exact readBits_ofNat hn hv position rest

/-! ### Scans that need bits -/

/-- The scan reads something: where no bits are left, it fails for that. -/
def Scan.NeedsBits {α : Type} (s : Scan α) : Prop :=
  ∀ position, s ⟨position, []⟩ = .error (.endOfData position) ⟨position, []⟩

namespace Scan.NeedsBits
variable {α β : Type} {s : Scan α}

theorem bind (h : NeedsBits s) (f : α → Scan β) : NeedsBits (s >>= f) := fun position =>
  bind_error (h position)

/-- Such a scan needs no check in front of it. -/
theorem ifRemaining_eq (h : NeedsBits s) : ifRemaining s = s := by
  funext ⟨position, unread⟩
  cases unread with
  | nil => exact (h position).symm
  | cons bit unread => rfl

end Scan.NeedsBits

theorem readBit_needsBits : Scan.NeedsBits readBit := fun _ => rfl

theorem skipBits_needsBits (n : Nat) : Scan.NeedsBits (skipBits (n + 1)) := readBit_needsBits.bind _

theorem readBits_needsBits {n : Nat} (hn : 1 ≤ n ∧ n ≤ 32) : Scan.NeedsBits (readBits n) := by
  obtain ⟨k, rfl⟩ := Nat.exists_eq_add_of_le' hn.1
  unfold readBits
  rw [if_pos hn]
  exact readBit_needsBits.bind _

theorem peekBits_needsBits {n : Nat} (hn : 1 ≤ n ∧ n ≤ 32) : Scan.NeedsBits (peekBits n) := fun position => by
  unfold peekBits
  rw [readBits_needsBits hn position]

/-! ### Integer codes -/

namespace Elias

theorem width_pos {n : Nat} (hn : n ≠ 0) : 0 < width n := by
  unfold width
  rw [if_neg hn]
  exact Nat.succ_pos _

theorem pow_width_le {n : Nat} (hn : n ≠ 0) : 2 ^ (width n - 1) ≤ n := by
  unfold width
  rw [if_neg hn, Nat.add_sub_cancel]
  exact Nat.log2_self_le hn

theorem lt_pow_width (n : Nat) : n < 2 ^ width n := by
  unfold width
  split
  · next h => simp [h]
  · exact Nat.lt_log2_self

theorem width_le {n w : Nat} (h : n < 2 ^ w) : width n ≤ w := by
  unfold width
  split
  · exact Nat.zero_le w
  · next hn => exact (Nat.log2_lt hn).mpr h

/-- The digits of a positive number start with a one. -/
theorem ofNat_width {n : Nat} (hn : n ≠ 0) : Bits.ofNat (width n) n = true :: Bits.ofNat (width n - 1) n := by
  have hw : width n = n.log2 + 1 := if_neg hn
  rw [hw, Nat.add_sub_cancel, Bits.ofNat, Nat.testBit_log2]
  simp [hn]

/-- The digits after the first, read onto a one, give the number back. -/
theorem readOnto_digits {n : Nat} (hn : n ≠ 0) :
    Scan.Reads (readOnto 1 (width n - 1)) (Bits.ofNat (width n - 1) n) n := by
  have h := readOnto_reads (Bits.ofNat (width n - 1) n) 1
  have hmod : n % 2 ^ (width n - 1) = n - 2 ^ (width n - 1) := by
    have hlow := pow_width_le hn
    have hhigh : n < 2 ^ (width n - 1) * 2 := by
      rw [← Nat.pow_succ, Nat.succ_eq_add_one, Nat.sub_add_cancel (width_pos hn)]
      exact lt_pow_width n
    rw [Nat.mod_eq_sub_mod hlow, Nat.mod_eq_of_lt (by omega)]
  rw [Bits.foldl_eq, Bits.length_ofNat, Bits.toNat_ofNat, Nat.one_mul, hmod,
    Nat.add_sub_cancel' (pow_width_le hn)] at h
  exact h

theorem countZeros_reads : ∀ {limit k : Nat}, k < limit →
    Scan.Reads (countZeros limit) (List.replicate k false ++ [true]) k
  | _ + 1, 0, _ => (readBit_reads true).bind (Scan.Reads.pure 0)
  | _ + 1, _ + 1, h =>
    (readBit_reads false).bind ((countZeros_reads (Nat.lt_of_succ_lt_succ h)).map (· + 1))

/-- The code with the digits of the length split behind the first. -/
theorem code_eq {n : Nat} (hn : n ≠ 0) :
    code n = (List.replicate (width (width n) - 1) false ++ [true]) ++
      (Bits.ofNat (width (width n) - 1) (width n) ++ Bits.ofNat (width n - 1) n) := by
  unfold code
  rw [ofNat_width (Nat.ne_of_gt (width_pos hn))]
  simp only [List.append_assoc, List.cons_append, List.nil_append]

theorem readUnsigned_reads {n : Nat} (hn : n ≠ 0) (hlt : n < wordCount) :
    Scan.Reads readUnsigned (code n) n := by
  have hw : width n ≠ 0 := Nat.ne_of_gt (width_pos hn)
  have hwidth : width n ≤ 64 := width_le hlt
  have hzeros : width (width n) - 1 < 7 := by
    have := width_le (show width n < 2 ^ 7 by omega)
    omega
  rw [code_eq hn]
  refine (countZeros_reads hzeros).bind ((readOnto_digits hw).bind ?_)
  rw [if_neg (Nat.not_lt.mpr hwidth)]
  exact readOnto_digits hn

theorem unzigzag_zigzag : ∀ v : Int, unzigzag (zigzag v) = v
  | .ofNat n => by simp [zigzag, unzigzag]
  | .negSucc n => by
    show unzigzag (2 * n + 1) = _
    unfold unzigzag
    rw [if_neg (by omega), show (2 * n + 1) / 2 = n by omega]

theorem zigzag_ne_zero {v : Int} (hv : v ≠ 0) : zigzag v ≠ 0 := by
  intro h
  have := unzigzag_zigzag v
  rw [h] at this
  exact hv this.symm

theorem zigzag_lt (v : Int64) : zigzag v.toInt < wordCount := by
  have hlow := v.le_toInt
  have hhigh := v.toInt_lt
  unfold wordCount
  cases hv : v.toInt with
  | ofNat n =>
    rw [hv, Int.ofNat_eq_natCast] at hhigh
    show 2 * n < _
    omega
  | negSucc n =>
    rw [hv] at hlow
    show 2 * n + 1 < _
    omega

theorem readSigned_reads (v : Int64) : Scan.Reads readSigned (signedCode v.toInt) v.toInt := by
  unfold signedCode
  split
  · next h =>
    rw [h]
    exact (readBit_reads false).bind (Scan.Reads.pure 0)
  · next h =>
    have hcode := (readUnsigned_reads (zigzag_ne_zero h) (zigzag_lt v)).map unzigzag
    rw [unzigzag_zigzag] at hcode
    exact (readBit_reads true).bind hcode

end Elias
end DrillCode
