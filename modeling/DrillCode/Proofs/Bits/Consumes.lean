import DrillCode.Proofs.Bits.Packing
import DrillCode.Proofs.Bits.Reads

/-! # What was read is a code

A scan that gives a value has passed over a code of that value (`Scan.Consumes`): the bits ahead began with it, and
the scan stopped right behind. For numbers of a fixed width and for Elias delta codes there is one such code for each
value, so these readers accept nothing but what is written. -/

namespace DrillCode

/-- Whatever value the scan gives, it passed over bits that are one of the value's codes. -/
def Scan.Consumes {α : Type} (C : α → List Bool → Prop) (s : Scan α) : Prop :=
  ∀ r a r', s r = .ok a r' → ∃ code, C a code ∧ r.unread = code ++ r'.unread

/-- Whatever code a scan passed over, it passed over some bits. -/
theorem Scan.Advances.consumes {α : Type} {k : Nat} {s : Scan α} (hs : Advances k s) :
    Consumes (fun _ _ => True) s := fun _ _ _ h => by
  obtain ⟨read, hread, -⟩ := hs.ok h
  exact ⟨read, trivial, hread⟩

namespace Scan.Consumes
variable {α β : Type} {C : α → List Bool → Prop} {D : β → List Bool → Prop} {s : Scan α}

theorem pure {a : α} (h : C a []) : Consumes C (pure a : Scan α) := by
  rintro r _ r' ⟨⟩
  exact ⟨[], h, rfl⟩

theorem throw (e : DecodeError) : Consumes C (throw e : Scan α) := by
  rintro r _ r' ⟨⟩

/-- The second scan goes on with the code that the first one began. -/
theorem bind {f : α → Scan β} (hs : Consumes C s)
    (hf : ∀ a front, C a front → Consumes (fun b back => D b (front ++ back)) (f a)) : Consumes D (s >>= f) := by
  intro r b r' h
  cases hr : s r with
  | ok a r₁ =>
    rw [bind_ok hr] at h
    obtain ⟨front, hfront, hunread⟩ := hs r a r₁ hr
    obtain ⟨back, hback, hrest⟩ := hf a front hfront r₁ b r' h
    exact ⟨front ++ back, hback, by rw [hunread, hrest, List.append_assoc]⟩
  | error e r₁ =>
    rw [bind_error hr] at h
    cases h

theorem mono {C' : α → List Bool → Prop} (hs : Consumes C s) (h : ∀ a code, C a code → C' a code) :
    Consumes C' s := fun r a r' hr => by
  obtain ⟨code, hcode, hunread⟩ := hs r a r' hr
  exact ⟨code, h a code hcode, hunread⟩

theorem map {f : α → β} (hs : Consumes C s) (h : ∀ a code, C a code → D (f a) code) : Consumes D (f <$> s) := by
  rw [map_eq_pure_bind]
  exact hs.bind fun a front ha => .pure (by rw [List.append_nil]; exact h a front ha)

end Scan.Consumes

/-! ### Numbers of a fixed width -/

theorem readBit_consumes : Scan.Consumes (fun bit code => code = [bit]) readBit := by
  rintro ⟨position, unread⟩ bit r' h
  cases unread with
  | nil => cases h
  | cons first rest =>
    cases h
    exact ⟨[_], rfl, rfl⟩

theorem readOnto_consumes : ∀ n value : Nat, Scan.Consumes
    (fun number code => code.length = n ∧ number = code.foldl (fun value bit => 2 * value + bit.toNat) value)
    (readOnto value n)
  | 0, value => .pure ⟨rfl, rfl⟩
  | n + 1, value => readBit_consumes.bind fun bit front hfront =>
    (readOnto_consumes n (2 * value + bit.toNat)).mono fun number back ⟨hlen, hnumber⟩ => by
      subst hfront
      exact ⟨congrArg (· + 1) hlen, hnumber⟩

theorem readBits_consumes (n : Nat) :
    Scan.Consumes (fun number code => number < 2 ^ n ∧ code = Bits.ofNat n number) (readBits n) := by
  unfold readBits
  split
  · refine (readOnto_consumes n 0).mono fun number code ⟨hlen, hnumber⟩ => ?_
    have hvalue : number = Bits.toNat code := hnumber
    subst hlen hvalue
    exact ⟨Bits.toNat_lt code, (Bits.ofNat_toNat code).symm⟩
  · exact .throw _

theorem eq_append_of_nextIs {n expected : Nat} {r : BitReader} (h : r.nextIs n expected = true) :
    r.unread = Bits.ofNat n expected ++ (r.skip n).unread := by
  unfold BitReader.nextIs at h
  split at h
  · next number rest hread =>
    obtain ⟨_, ⟨-, rfl⟩, hunread⟩ := readBits_consumes n r number rest hread
    obtain rfl : number = expected := beq_iff_eq.mp h
    have hskip : (r.skip n).unread = rest.unread := by
      rw [BitReader.skip, hunread, List.drop_left' (Bits.length_ofNat n number)]
    rw [hskip, hunread]
  · cases h

/-! ### Integer codes -/

namespace Elias

/-- Digits that were read onto a one are those of a number behind its first. -/
theorem digits_of_onto {code : List Bool} {n : Nat}
    (h : n = code.foldl (fun value bit => 2 * value + bit.toNat) 1) :
    n ≠ 0 ∧ width n = code.length + 1 ∧ code = Bits.ofNat (width n - 1) n := by
  rw [Bits.foldl_eq, Nat.one_mul] at h
  have hlt := Bits.toNat_lt code
  have hpos : 0 < 2 ^ code.length := Nat.two_pow_pos _
  have hne : n ≠ 0 := by omega
  have hlog : n.log2 = code.length := by
    rw [Nat.log2_eq_iff hne, Nat.pow_succ]
    omega
  have hwidth : width n = code.length + 1 := by
    unfold width
    rw [if_neg hne, hlog]
  refine ⟨hne, hwidth, ?_⟩
  have hlow : Bits.ofNat code.length n = Bits.ofNat code.length (Bits.toNat code) := Bits.ofNat_congr fun i hi => by
    rw [h, ← Nat.mul_one (2 ^ code.length), Nat.testBit_two_pow_mul_add _ hlt, if_pos hi]
  rw [hwidth, Nat.add_sub_cancel, hlow, Bits.ofNat_toNat]

theorem countZeros_consumes : ∀ limit : Nat, Scan.Consumes
    (fun zeros code => zeros < limit ∧ code = List.replicate zeros false ++ [true]) (countZeros limit)
  | 0 => .throw _
  | limit + 1 => readBit_consumes.bind fun bit front hfront => by
    subst hfront
    split
    · next hbit =>
      subst hbit
      exact .pure ⟨Nat.succ_pos limit, rfl⟩
    · next hbit =>
      obtain rfl : bit = false := Bool.eq_false_iff.mpr hbit
      exact (countZeros_consumes limit).map fun zeros code ⟨hlt, hcode⟩ => by
        subst hcode
        exact ⟨Nat.succ_lt_succ hlt, rfl⟩

theorem readUnsigned_consumes :
    Scan.Consumes (fun n bits => n ≠ 0 ∧ n < wordCount ∧ bits = code n) readUnsigned := by
  refine (countZeros_consumes 7).bind fun zeros lead ⟨_, hlead⟩ => ?_
  refine (readOnto_consumes zeros 1).bind fun digits mid ⟨hmid, hdigits⟩ => ?_
  split
  · exact .throw _
  · next hlong =>
    refine (readOnto_consumes (digits - 1) 1).mono fun n back ⟨hback, hn⟩ => ?_
    obtain ⟨hpos, hwidth, rfl⟩ := digits_of_onto hdigits
    obtain ⟨hne, hwidth', rfl⟩ := digits_of_onto hn
    have hwidthn : width n = digits := by omega
    have hzeros : width (width n) - 1 = zeros := by rw [hwidthn]; omega
    refine ⟨hne, ?_, ?_⟩
    · have hpow : 2 ^ width n ≤ 2 ^ 64 := Nat.pow_le_pow_right (by decide) (by omega)
      exact Nat.lt_of_lt_of_le (lt_pow_width n) hpow
    · rw [code_eq hne, hzeros, hlead, ← hwidthn, ← hzeros]

theorem zigzag_unzigzag (n : Nat) : zigzag (unzigzag n) = n := by
  unfold unzigzag
  split
  · next h =>
    show 2 * (n / 2) = n
    omega
  · next h =>
    show 2 * (n / 2) + 1 = n
    omega

/-- The numbers that have a code below `2 ^ 64` in the sequence 0, -1, 1, -2, 2, … are those of 64 bits. -/
theorem exists_unzigzag_eq {n : Nat} (h : n < wordCount) : ∃ v : Int64, unzigzag n = v.toInt := by
  refine ⟨.ofInt (unzigzag n), (Int64.toInt_ofInt_of_le ?_ ?_).symm⟩
  all_goals
    unfold wordCount at h
    unfold unzigzag
    split <;> simp <;> omega

theorem readSigned_consumes :
    Scan.Consumes (fun v bits => ∃ w : Int64, v = w.toInt ∧ bits = signedCode v) readSigned := by
  refine readBit_consumes.bind fun nonzero front hfront => ?_
  subst hfront
  split
  · next hnonzero =>
    subst hnonzero
    refine readUnsigned_consumes.map fun n bits ⟨hne, hlt, hbits⟩ => ?_
    obtain ⟨w, hw⟩ := exists_unzigzag_eq hlt
    have hv : unzigzag n ≠ 0 := fun h => hne (by rw [← zigzag_unzigzag n, h]; rfl)
    refine ⟨w, hw, ?_⟩
    rw [signedCode, if_neg hv, zigzag_unzigzag, hbits]
    rfl
  · next hnonzero =>
    obtain rfl : nonzero = false := Bool.eq_false_iff.mpr hnonzero
    exact .pure ⟨0, rfl, rfl⟩

end Elias
end DrillCode
