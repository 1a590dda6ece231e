import DrillCode.Proofs.Bits.Consumes

/-! # Signed numbers in words

The zigzag number of a word is made of shifts: twice the word, and its sign, spread over all bits, xored onto that.
Back, the lowest bit says whether to complement the half. On words these are the zigzag numbers of integers, also at
the two ends, so each of the two undoes the other, every word has a code, and a reader of signed numbers accepts the
codes of words and nothing else. -/

namespace DrillCode.Elias

/-- The zigzag number of a word. -/
def zigzagWord (v : Int64) : UInt64 := ((v <<< 1) ^^^ (v >>> 63)).toUInt64

/-- The word of a zigzag number. -/
def unzigzagWord (n : UInt64) : Int64 := (n >>> 1).toInt64 ^^^ -(n &&& 1).toInt64

/-- The code of a word, unless it takes the code of a number that has none. -/
def signedCode? (v : Int64) : Option (List Bool) :=
  if v = 0 then some [false] else (true :: ·) <$> code? (zigzagWord v).toNat

/-! ### The sign of a word -/

theorem sshiftRight_of_nonneg {x : BitVec 64} (h : x.msb = false) : x.sshiftRight 63 = 0#64 := by
  have hlt : 2 * x.toNat < 2 ^ 64 := BitVec.msb_eq_false_iff_two_mul_lt.mp h
  rw [BitVec.sshiftRight_eq_of_msb_false h]
  apply BitVec.eq_of_toNat_eq
  rw [BitVec.toNat_ushiftRight, Nat.shiftRight_eq_div_pow]
  exact Nat.div_eq_of_lt (by omega)

theorem sshiftRight_of_neg {x : BitVec 64} (h : x.msb = true) : x.sshiftRight 63 = BitVec.allOnes 64 := by
  have hnot : (~~~x).msb = false := by simp [BitVec.msb_not, h]
  rw [← BitVec.not_sshiftRight_not, sshiftRight_of_nonneg hnot, BitVec.not_zero]

/-! ### Zigzag numbers -/

theorem toBitVec_zigzagWord (v : Int64) :
    (zigzagWord v).toBitVec = v.toBitVec <<< 1 ^^^ v.toBitVec.sshiftRight 63 := by
  simp [zigzagWord]

theorem toBitVec_unzigzagWord (n : UInt64) :
    (unzigzagWord n).toBitVec = n.toBitVec >>> 1 ^^^ -(n.toBitVec &&& 1#64) := by
  simp [unzigzagWord]

theorem toNat_zigzagWord (v : Int64) : (zigzagWord v).toNat = zigzag v.toInt := by
  have hword : (zigzagWord v).toNat = (zigzagWord v).toBitVec.toNat := rfl
  have hint : v.toInt = v.toBitVec.toInt := rfl
  have hlt := v.toBitVec.isLt
  rw [hword, toBitVec_zigzagWord, hint]
  cases hsign : v.toBitVec.msb with
  | false =>
    have hhalf : 2 * v.toBitVec.toNat < 2 ^ 64 := BitVec.msb_eq_false_iff_two_mul_lt.mp hsign
    have hdouble : (v.toBitVec <<< 1).toNat = 2 * v.toBitVec.toNat := by
      rw [BitVec.toNat_shiftLeft, Nat.shiftLeft_eq]
      omega
    rw [sshiftRight_of_nonneg hsign, BitVec.xor_zero, BitVec.toInt_eq_toNat_of_msb hsign, hdouble]
    rfl
  | true =>
    -- Twice the word loses its sign, which is the bit that the complement gives back.
    have hhalf : 2 ^ 64 ≤ 2 * v.toBitVec.toNat := BitVec.msb_eq_true_iff_two_mul_ge.mp hsign
    have hdouble : (v.toBitVec <<< 1).toNat = 2 * v.toBitVec.toNat - 2 ^ 64 := by
      rw [BitVec.toNat_shiftLeft, Nat.shiftLeft_eq]
      omega
    have hneg : v.toBitVec.toInt = .negSucc (2 ^ 64 - 1 - v.toBitVec.toNat) := by
      rw [BitVec.toInt_eq_msb_cond, if_pos hsign]
      omega
    rw [sshiftRight_of_neg hsign, BitVec.xor_allOnes, BitVec.toNat_not, hdouble, hneg]
    show _ = 2 * (2 ^ 64 - 1 - v.toBitVec.toNat) + 1
    omega

theorem toInt_unzigzagWord (n : UInt64) : (unzigzagWord n).toInt = unzigzag n.toNat := by
  have hword : (unzigzagWord n).toInt = (unzigzagWord n).toBitVec.toInt := rfl
  have hnat : n.toNat = n.toBitVec.toNat := rfl
  have hlt := n.toBitVec.isLt
  have hparity : (n.toBitVec &&& 1#64).toNat = n.toBitVec.toNat % 2 := by
    rw [BitVec.toNat_and]
    exact Nat.and_one_is_mod _
  have hhalf : (n.toBitVec >>> 1).toNat = n.toBitVec.toNat / 2 := by
    rw [BitVec.toNat_ushiftRight, Nat.shiftRight_eq_div_pow]
  have hsign : (n.toBitVec >>> 1).msb = false := BitVec.msb_eq_false_iff_two_mul_lt.mpr (by omega)
  rw [hword, toBitVec_unzigzagWord, hnat]
  unfold unzigzag
  split
  · next heven =>
    have hzero : n.toBitVec &&& 1#64 = 0#64 := BitVec.eq_of_toNat_eq (hparity.trans heven)
    rw [hzero, BitVec.neg_zero, BitVec.xor_zero, BitVec.toInt_eq_toNat_of_msb hsign, hhalf]
    rfl
  · next hodd =>
    have hone : n.toBitVec &&& 1#64 = 1#64 := BitVec.eq_of_toNat_eq (hparity.trans (by simpa using hodd))
    have hnot : (~~~(n.toBitVec >>> 1)).msb = true := by simp [BitVec.msb_not, hsign]
    rw [hone, BitVec.neg_one_eq_allOnes, BitVec.xor_allOnes, BitVec.toInt_eq_msb_cond, if_pos hnot, BitVec.toNat_not,
      hhalf, Int.negSucc_eq]
    omega

/-! ### Codes -/

theorem signedCode?_eq (v : Int64) : signedCode? v = some (signedCode v.toInt) := by
  unfold signedCode? signedCode
  by_cases hv : v = 0
  · subst hv
    rfl
  · have hne : v.toInt ≠ 0 := fun h => hv (Int64.toInt_inj.mp h)
    rw [if_neg hv, if_neg hne, toNat_zigzagWord, code?, if_neg (zigzag_ne_zero hne)]
    rfl

/-- Every word is written, and read back from its code. Whatever a reader of signed numbers accepts is the code of a
    word, the single bit for zero. Zigzag numbers and words stand for each other, one for one. -/
theorem readSigned_exact :
    (∀ v : Int64, signedCode? v = some (signedCode v.toInt) ∧ Scan.Reads readSigned (signedCode v.toInt) v.toInt) ∧
    (∀ r n rest, readSigned r = .ok n rest → ∃ v : Int64, n = v.toInt ∧ signedCode? v = some (signedCode n) ∧
      r.unread = signedCode n ++ rest.unread ∧ (n = 0 → r.unread = false :: rest.unread)) ∧
    (∀ v : Int64, (zigzagWord v).toNat = zigzag v.toInt ∧ unzigzagWord (zigzagWord v) = v) ∧
    ∀ n : UInt64, (unzigzagWord n).toInt = unzigzag n.toNat ∧ zigzagWord (unzigzagWord n) = n := by
  refine ⟨fun v => ⟨signedCode?_eq v, readSigned_reads v⟩, fun r n rest h => ?_, fun v => ⟨toNat_zigzagWord v, ?_⟩,
    fun n => ⟨toInt_unzigzagWord n, ?_⟩⟩
  · obtain ⟨bits, ⟨v, rfl, rfl⟩, hunread⟩ := readSigned_consumes r n rest h
    refine ⟨v, rfl, signedCode?_eq v, hunread, fun hzero => ?_⟩
    rw [hunread, hzero]
    rfl
  · rw [← Int64.toInt_inj, toInt_unzigzagWord, toNat_zigzagWord, unzigzag_zigzag]
  · rw [← UInt64.toNat_inj, toNat_zigzagWord, toInt_unzigzagWord, zigzag_unzigzag]

end DrillCode.Elias
