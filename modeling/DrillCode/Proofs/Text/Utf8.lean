import DrillCode.Text.Utf8

/-! # Text survives its bytes

The bytes of a text, read as UTF-8, give the text back. Each character is written in one to four bytes;
its first byte says how many follow and where the second one lies, so reading takes exactly the bytes of
the character, whatever comes behind them. -/

namespace DrillCode.Text.Utf8

/-- The bytes lie in the ranges, one for one. -/
def Within : (ranges : List (UInt8 × UInt8)) → (bytes : List UInt8) → Prop
  | [], [] => True
  | (low, high) :: ranges, byte :: bytes => (low ≤ byte ∧ byte ≤ high) ∧ Within ranges bytes
  | _, _ => False

theorem takeIn_append : ∀ {ranges : List (UInt8 × UInt8)} {bytes : List UInt8}, Within ranges bytes →
    ∀ rest : List UInt8, takeIn ranges (bytes ++ rest) = bytes
  | [], [], _, rest => by cases rest <;> rfl
  | (_, _) :: _, _ :: _, h, rest => by simp [takeIn, h.1, takeIn_append h.2 rest]

theorem Within.length_eq : ∀ {ranges : List (UInt8 × UInt8)} {bytes : List UInt8}, Within ranges bytes →
    bytes.length = ranges.length
  | [], [], _ => rfl
  | (_, _) :: _, _ :: _, h => by rw [List.length_cons, List.length_cons, h.2.length_eq]

/-! ### One character -/

theorem decode_ascii {first : UInt8} (h : first.toNat < 0x80) (rest : List UInt8) :
    decode (first :: rest) = Char.ofNat first.toNat :: decode rest := by
  rw [decode, if_pos (UInt8.lt_iff_toNat_lt.mpr h)]

theorem decode_long {first : UInt8} {bytes : List UInt8} (hfirst : 0x80 ≤ first.toNat)
    (hne : following first ≠ []) (h : Within (following first) bytes) (rest : List UInt8) :
    decode (first :: (bytes ++ rest)) = character first bytes :: decode rest := by
  rw [decode, if_neg (fun hlt => Nat.not_lt.mpr hfirst (UInt8.lt_iff_toNat_lt.mp hlt))]
  simp [takeIn_append h, h.length_eq, hne]

theorem following_two {f : UInt8} (h : 0xC2 ≤ f.toNat ∧ f.toNat ≤ 0xDF) : following f = [(0x80, 0xBF)] := by
  simp [following, UInt8.le_iff_toNat_le, h]

theorem following_three {f : UInt8} (h : 0xE0 ≤ f.toNat ∧ f.toNat ≤ 0xEF) :
    following f =
      [(if f.toNat = 0xE0 then 0xA0 else 0x80, if f.toNat = 0xED then 0x9F else 0xBF), (0x80, 0xBF)] := by
  unfold following
  simp [UInt8.le_iff_toNat_le, ← UInt8.toNat_inj]
  grind

theorem following_four {f : UInt8} (h : 0xF0 ≤ f.toNat ∧ f.toNat ≤ 0xF4) :
    following f =
      [(if f.toNat = 0xF0 then 0x90 else 0x80, if f.toNat = 0xF4 then 0x8F else 0xBF), (0x80, 0xBF),
        (0x80, 0xBF)] := by
  unfold following
  simp [UInt8.le_iff_toNat_le, ← UInt8.toNat_inj]
  grind

theorem decode_two {c : Char} {f b : UInt8} (hc : 0x80 ≤ c.toNat ∧ c.toNat < 0x800)
    (hf : f.toNat = c.toNat / 64 + 0xC0) (hb : b.toNat = c.toNat % 64 + 0x80) (rest : List UInt8) :
    decode (f :: b :: rest) = c :: decode rest := by
  have hfollow := following_two (f := f) (by omega)
  have hwithin : Within (following f) [b] := by
    rw [hfollow]
    simp [Within, UInt8.le_iff_toNat_le]
    omega
  have hchar : character f [b] = c := by
    show Char.ofNat (64 * (f.toNat - 0xC0) + (b.toNat - 0x80)) = c
    rw [show 64 * (f.toNat - 0xC0) + (b.toNat - 0x80) = c.toNat by omega, Char.ofNat_toNat]
  have h := decode_long (by omega) (by simp [hfollow]) hwithin rest
  rwa [hchar] at h

/-- A character of three bytes; no character lies between `0xD800` and `0xDFFF`. -/
theorem decode_three {c : Char} {f b₁ b₂ : UInt8} (hc : 0x800 ≤ c.toNat ∧ c.toNat < 0x10000)
    (hf : f.toNat = c.toNat / 4096 + 0xE0) (hb₁ : b₁.toNat = c.toNat / 64 % 64 + 0x80)
    (hb₂ : b₂.toNat = c.toNat % 64 + 0x80) (rest : List UInt8) :
    decode (f :: b₁ :: b₂ :: rest) = c :: decode rest := by
  have hvalid : c.toNat < 0xD800 ∨ 0xDFFF < c.toNat ∧ c.toNat < 0x110000 := c.valid
  have hfollow := following_three (f := f) (by omega)
  have hwithin : Within (following f) [b₁, b₂] := by
    rw [hfollow]
    refine ⟨⟨?_, ?_⟩, ⟨?_, ?_⟩, trivial⟩ <;> rw [UInt8.le_iff_toNat_le]
    · split <;> simp <;> omega
    · split <;> simp <;> omega
    · simp
      omega
    · simp
      omega
  have hchar : character f [b₁, b₂] = c := by
    show Char.ofNat (64 * (64 * (f.toNat - 0xE0) + (b₁.toNat - 0x80)) + (b₂.toNat - 0x80)) = c
    rw [show 64 * (64 * (f.toNat - 0xE0) + (b₁.toNat - 0x80)) + (b₂.toNat - 0x80) = c.toNat by omega,
      Char.ofNat_toNat]
  have h := decode_long (by omega) (by simp [hfollow]) hwithin rest
  rwa [hchar] at h

theorem decode_four {c : Char} {f b₁ b₂ b₃ : UInt8} (hc : 0x10000 ≤ c.toNat)
    (hf : f.toNat = c.toNat / 262144 + 0xF0) (hb₁ : b₁.toNat = c.toNat / 4096 % 64 + 0x80)
    (hb₂ : b₂.toNat = c.toNat / 64 % 64 + 0x80) (hb₃ : b₃.toNat = c.toNat % 64 + 0x80) (rest : List UInt8) :
    decode (f :: b₁ :: b₂ :: b₃ :: rest) = c :: decode rest := by
  have hvalid : c.toNat < 0xD800 ∨ 0xDFFF < c.toNat ∧ c.toNat < 0x110000 := c.valid
  have hfollow := following_four (f := f) (by omega)
  have hwithin : Within (following f) [b₁, b₂, b₃] := by
    rw [hfollow]
    refine ⟨⟨?_, ?_⟩, ⟨?_, ?_⟩, ⟨?_, ?_⟩, trivial⟩ <;> rw [UInt8.le_iff_toNat_le]
    · split <;> simp <;> omega
    · split <;> simp <;> omega
    all_goals simp
    all_goals omega
  have hchar : character f [b₁, b₂, b₃] = c := by
    show Char.ofNat (64 * (64 * (64 * (f.toNat - 0xF0) + (b₁.toNat - 0x80)) + (b₂.toNat - 0x80)) +
      (b₃.toNat - 0x80)) = c
    rw [show 64 * (64 * (64 * (f.toNat - 0xF0) + (b₁.toNat - 0x80)) + (b₂.toNat - 0x80)) +
      (b₃.toNat - 0x80) = c.toNat by omega, Char.ofNat_toNat]
  have h := decode_long (by omega) (by simp [hfollow]) hwithin rest
  rwa [hchar] at h

/-! ### Text -/

theorem ofNat_toNat_of_lt {n : Nat} (h : n < 256) : (UInt8.ofNat n).toNat = n := Nat.mod_eq_of_lt h

/-- Reading takes exactly the bytes of a character. -/
theorem decode_utf8EncodeChar (c : Char) (rest : List UInt8) :
    decode (String.utf8EncodeChar c ++ rest) = c :: decode rest := by
  have hvalid : c.toNat < 0xD800 ∨ 0xDFFF < c.toNat ∧ c.toNat < 0x110000 := c.valid
  have hval : c.val.toNat = c.toNat := rfl
  fun_cases String.utf8EncodeChar c with
  | case1 v h =>
    have hf : (UInt8.ofNat v).toNat = c.toNat := ofNat_toNat_of_lt (by omega)
    rw [List.cons_append, List.nil_append, decode_ascii (by omega), hf, Char.ofNat_toNat]
  | case2 _ h₁ h₂ =>
    refine decode_two (by omega) ?_ ?_ rest <;> rw [ofNat_toNat_of_lt] <;> omega
  | case3 _ h₁ h₂ h₃ =>
    refine decode_three (by omega) ?_ ?_ ?_ rest <;> rw [ofNat_toNat_of_lt] <;> omega
  | case4 _ h₁ h₂ h₃ =>
    refine decode_four (by omega) ?_ ?_ ?_ ?_ rest <;> rw [ofNat_toNat_of_lt] <;> omega

theorem decode_encode (text : List Char) : decode (encode text) = text := by
  induction text with
  | nil => rw [encode, List.flatMap_nil, decode]
  | cons c text ih => rw [encode, List.flatMap_cons, decode_utf8EncodeChar, ← encode, ih]

/-- No byte of a character beyond ASCII is an ASCII character of its own. -/
theorem le_of_mem_utf8EncodeChar {c : Char} {byte : UInt8} (hc : 0x80 ≤ c.toNat)
    (h : byte ∈ String.utf8EncodeChar c) : 0x80 ≤ byte.toNat := by
  have hvalid : c.toNat < 0xD800 ∨ 0xDFFF < c.toNat ∧ c.toNat < 0x110000 := c.valid
  unfold String.utf8EncodeChar at h
  rw [show c.val.toNat = c.toNat from rfl] at h
  simp only at h
  rw [if_neg (by omega)] at h
  split at h
  · simp only [List.mem_cons, List.not_mem_nil, or_false] at h
    rcases h with rfl | rfl <;> rw [ofNat_toNat_of_lt] <;> omega
  · split at h
    · simp only [List.mem_cons, List.not_mem_nil, or_false] at h
      rcases h with rfl | rfl | rfl <;> rw [ofNat_toNat_of_lt] <;> omega
    · simp only [List.mem_cons, List.not_mem_nil, or_false] at h
      rcases h with rfl | rfl | rfl | rfl <;> rw [ofNat_toNat_of_lt] <;> omega

theorem mem_of_mem_encode {text : List Char} {byte : UInt8} (h : byte ∈ encode text) (hb : byte.toNat < 0x80) :
    ∃ c ∈ text, c.toNat = byte.toNat := by
  obtain ⟨c, hc, hbyte⟩ := List.mem_flatMap.mp h
  refine ⟨c, hc, ?_⟩
  by_cases hascii : c.toNat < 0x80
  · have hone : String.utf8EncodeChar c = [UInt8.ofNat c.toNat] := if_pos (Nat.le_of_lt_succ hascii)
    rw [hone, List.mem_singleton] at hbyte
    rw [hbyte, ofNat_toNat_of_lt (by omega)]
  · exact absurd (le_of_mem_utf8EncodeChar (Nat.le_of_not_lt hascii) hbyte) (Nat.not_le_of_lt hb)

/-! ### Any bytes -/

/-- Where every range has its byte, the bytes lie in the ranges. -/
theorem within_takeIn : ∀ {ranges : List (UInt8 × UInt8)} {bytes : List UInt8},
    (takeIn ranges bytes).length = ranges.length → Within ranges (takeIn ranges bytes)
  | [], bytes, _ => by
    cases bytes <;> trivial
  | (low, high) :: ranges, [], h => nomatch h
  | (low, high) :: ranges, byte :: bytes, h => by
    rw [takeIn] at h ⊢
    split
    · next hin =>
      rw [if_pos hin, List.length_cons, List.length_cons] at h
      rw [Bool.and_eq_true, decide_eq_true_eq, decide_eq_true_eq] at hin
      exact ⟨hin, within_takeIn (Nat.succ.inj h)⟩
    · next hout =>
      rw [if_neg hout] at h
      cases h

theorem first_of_following {f : UInt8} (h : following f ≠ []) :
    0xC2 ≤ f.toNat ∧ f.toNat ≤ 0xDF ∨ 0xE0 ≤ f.toNat ∧ f.toNat ≤ 0xEF ∨ 0xF0 ≤ f.toNat ∧ f.toNat ≤ 0xF4 := by
  unfold following at h
  simp only [Bool.and_eq_true, decide_eq_true_eq, beq_iff_eq, UInt8.le_iff_toNat_le, ← UInt8.toNat_inj] at h
  grind

theorem toNat_ofNat {n : Nat} (h : n.isValidChar) : (Char.ofNat n).toNat = n := by
  rw [Char.ofNat, dif_pos h]
  rfl

theorem le_toNat_ofNat {n : Nat} (hle : 0x80 ≤ n) (h : n.isValidChar) : 0x80 ≤ (Char.ofNat n).toNat := by
  rwa [toNat_ofNat h]

/-- The bytes of a longer sequence never spell an ASCII character. -/
theorem le_character {f : UInt8} {bytes : List UInt8} (hne : following f ≠ []) (h : Within (following f) bytes) :
    0x80 ≤ (character f bytes).toNat := by
  rcases first_of_following hne with hf | hf | hf
  · rw [following_two hf] at h
    match bytes, h with
    | [b], h =>
      simp only [Within, UInt8.le_iff_toNat_le, UInt8.reduceToNat] at h
      have hvalue : character f [b] = Char.ofNat (64 * (f.toNat - 0xC0) + (b.toNat - 0x80)) := rfl
      rw [hvalue]
      exact le_toNat_ofNat (by omega) (.inl (by omega))
  · rw [following_three hf] at h
    match bytes, h with
    | [b₁, b₂], h =>
      have hvalue : character f [b₁, b₂] =
          Char.ofNat (64 * (64 * (f.toNat - 0xE0) + (b₁.toNat - 0x80)) + (b₂.toNat - 0x80)) := rfl
      simp only [Within, UInt8.le_iff_toNat_le, UInt8.reduceToNat, apply_ite UInt8.toNat] at h
      rw [hvalue]
      refine le_toNat_ofNat ?_ ?_
      · split at h <;> omega
      · have hsplit : f.toNat < 0xED ∨ f.toNat = 0xED ∨ 0xED < f.toNat := Nat.lt_trichotomy _ _
        unfold Nat.isValidChar
        split at h <;> split at h <;> omega
  · rw [following_four hf] at h
    match bytes, h with
    | [b₁, b₂, b₃], h =>
      have hvalue : character f [b₁, b₂, b₃] = Char.ofNat (64 * (64 * (64 * (f.toNat - 0xF0) +
          (b₁.toNat - 0x80)) + (b₂.toNat - 0x80)) + (b₃.toNat - 0x80)) := rfl
      simp only [Within, UInt8.le_iff_toNat_le, UInt8.reduceToNat, apply_ite UInt8.toNat] at h
      rw [hvalue]
      refine le_toNat_ofNat ?_ (.inr ?_)
      · split at h <;> omega
      · split at h <;> split at h <;> omega

theorem length_decode_le (bytes : List UInt8) : (decode bytes).length ≤ bytes.length := by
  fun_induction decode bytes with
  | case1 => exact Nat.le_refl 0
  | case2 first bytes hascii ih => exact Nat.succ_le_succ ih
  | case3 first bytes hlong ranges found x ih =>
    rw [List.length_drop] at ih
    rw [List.length_cons, List.length_cons]
    omega

theorem mem_of_mem_decode {bytes : List UInt8} {c : Char} (h : c ∈ decode bytes) (hc : c.toNat < 0x80) :
    ∃ byte ∈ bytes, byte.toNat = c.toNat := by
  fun_induction decode bytes with
  | case1 => cases h
  | case2 first bytes hascii ih =>
    have hlt : first.toNat < 0x80 := UInt8.lt_iff_toNat_lt.mp hascii
    have hfirst : (Char.ofNat first.toNat).toNat = first.toNat := toNat_ofNat (.inl (by omega))
    rcases List.mem_cons.mp h with rfl | h
    · exact ⟨first, List.mem_cons_self, hfirst.symm⟩
    · obtain ⟨byte, hbyte, heq⟩ := ih h
      exact ⟨byte, List.mem_cons_of_mem first hbyte, heq⟩
  | case3 first bytes hlong ranges found x ih =>
    have hx : 0x80 ≤ x.toNat := by
      unfold x
      split
      · next hfound =>
        rw [Bool.and_eq_true, Bool.not_eq_true', List.isEmpty_eq_false_iff, decide_eq_true_eq] at hfound
        exact le_character hfound.1 (within_takeIn hfound.2)
      · decide
    rcases List.mem_cons.mp h with rfl | h
    · exact absurd hc (Nat.not_lt.mpr hx)
    · obtain ⟨byte, hbyte, heq⟩ := ih h
      exact ⟨byte, List.mem_cons_of_mem first (List.mem_of_mem_drop hbyte), heq⟩

end DrillCode.Text.Utf8
