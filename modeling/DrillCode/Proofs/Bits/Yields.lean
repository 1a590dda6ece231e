import DrillCode.Proofs.Bits.Reads

/-! # What scans can give

Whatever the bits are, every value of a scan has some property (`Scan.Yields`). A number has no more digits than
bits were read for it, and a value that is put together from others has what they bring along. -/

namespace DrillCode

/-- Every value that the scan gives has the property. -/
def Scan.Yields {α : Type} (P : α → Prop) (s : Scan α) : Prop := ∀ r a r', s r = .ok a r' → P a

namespace Scan.Yields
variable {α β : Type} {P : α → Prop} {Q : β → Prop} {s : Scan α}

theorem pure {a : α} (ha : P a) : Yields P (pure a : Scan α) := by
  intro r x r' h
  cases h
  exact ha

theorem throw (e : DecodeError) : Yields P (throw e : Scan α) := by
  intro r x r' h
  cases h

theorem bind {f : α → Scan β} (hs : Yields P s) (hf : ∀ a, P a → Yields Q (f a)) : Yields Q (s >>= f) := by
  intro r b r' h
  cases hr : s r with
  | ok a r₁ =>
    rw [bind_ok hr] at h
    exact hf a (hs r a r₁ hr) r₁ b r' h
  | error e r₁ =>
    rw [bind_error hr] at h
    cases h

/-- What the first scan gives may not matter. -/
theorem bind_any {f : α → Scan β} (hf : ∀ a, Yields Q (f a)) : Yields Q (s >>= f) := by
  have hs : Yields (fun _ => True) s := fun _ _ _ _ => trivial
  exact hs.bind fun a _ => hf a

theorem map {f : α → β} (hs : Yields P s) (hf : ∀ a, P a → Q (f a)) : Yields Q (f <$> s) := by
  rw [map_eq_pure_bind]
  exact hs.bind fun a ha => .pure (hf a ha)

end Scan.Yields

/-! ### Numbers of a fixed width -/

theorem readOnto_yields : ∀ n value, Scan.Yields (· < (value + 1) * 2 ^ n) (readOnto value n)
  | 0, value => .pure (by rw [Nat.pow_zero, Nat.mul_one]; exact Nat.lt_succ_self value)
  | n + 1, value => .bind_any fun bit r number r' h => by
    have hnumber := readOnto_yields n (2 * value + bit.toNat) r number r' h
    have hbit : 2 * value + bit.toNat + 1 ≤ 2 * (value + 1) := by
      cases bit <;> simp only [Bool.toNat_false, Bool.toNat_true] <;> omega
    calc number < (2 * value + bit.toNat + 1) * 2 ^ n := hnumber
      _ ≤ 2 * (value + 1) * 2 ^ n := Nat.mul_le_mul_right _ hbit
      _ = (value + 1) * 2 ^ (n + 1) := by rw [Nat.pow_succ']; ac_rfl

theorem readBits_yields (n : Nat) : Scan.Yields (· < 2 ^ n) (readBits n) := by
  unfold readBits
  split
  · have h := readOnto_yields n 0
    rwa [Nat.zero_add, Nat.one_mul] at h
  · exact .throw _

end DrillCode
