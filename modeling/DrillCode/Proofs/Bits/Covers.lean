import DrillCode.Proofs.Bits.Consumes

/-! # What the bits that were read pay for

Every value of a scan has a size, and a scan covers sizes at a rate `k` if `k` for each bit that it read comes to the
size of what it gives (`Scan.Covers`). Scans that follow each other pay for their own parts, so what is put together
from the values costs no more than the bits of them all. -/

namespace DrillCode

/-- Whatever value the scan gives, `k` for each bit that was read for it comes to its size `w` at least. -/
def Scan.Covers {α : Type} (k : Nat) (w : α → Nat) (s : Scan α) : Prop :=
  ∀ r a r', s r = .ok a r' → ∃ n, r.Ahead n r' ∧ w a ≤ k * n

/-- A scan that moves on by `j` bits covers what these bits come to. -/
theorem Scan.Advances.covers {α : Type} {j : Nat} {s : Scan α} (hs : Advances j s) (k : Nat) :
    Covers k (fun _ => k * j) s := fun _ _ _ h => ⟨j, hs.ok h, Nat.le_refl _⟩

namespace Scan.Covers
variable {α β : Type} {k : Nat} {v w : α → Nat} {s : Scan α}

theorem pure {a : α} (h : w a ≤ 0) : Covers k w (pure a : Scan α) := by
  rintro r _ r' ⟨⟩
  exact ⟨0, .refl r, by omega⟩

theorem throw (e : DecodeError) : Covers k w (throw e : Scan α) := by
  rintro r _ r' ⟨⟩

theorem mono (hs : Covers k v s) (h : ∀ a, w a ≤ v a) : Covers k w s := fun r a r' hr => by
  obtain ⟨n, hahead, hv⟩ := hs r a r' hr
  exact ⟨n, hahead, Nat.le_trans (h a) hv⟩

/-- The second scan pays for what the first one left open. -/
theorem bind {u : β → Nat} {f : α → Scan β} (hs : Covers k v s) (hf : ∀ a, Covers k (fun b => u b - v a) (f a)) :
    Covers k u (s >>= f) := by
  intro r b r' h
  cases hr : s r with
  | ok a r₁ =>
    rw [bind_ok hr] at h
    obtain ⟨m, hfront, hv⟩ := hs r a r₁ hr
    obtain ⟨n, hback, hu⟩ := hf a r₁ b r' h
    refine ⟨m + n, hfront.trans hback, ?_⟩
    calc u b ≤ v a + (u b - v a) := by omega
      _ ≤ k * m + k * n := Nat.add_le_add hv hu
      _ = k * (m + n) := (Nat.mul_add k m n).symm
  | error e r₁ =>
    rw [bind_error hr] at h
    cases h

theorem map {u : β → Nat} {f : α → β} (hs : Covers k v s) (h : ∀ a, u (f a) ≤ v a) : Covers k u (f <$> s) := by
  rw [map_eq_pure_bind]
  exact hs.bind fun a => .pure (Nat.le_of_eq (Nat.sub_eq_zero_of_le (h a)))

/-- A code that was passed over pays for the value. -/
theorem of_consumes {C : α → List Bool → Prop} (hadvances : Advances 0 s) (hs : Consumes C s)
    (h : ∀ a code, C a code → w a ≤ k * code.length) : Covers k w s := fun r a r' hr => by
  obtain ⟨code, hcode, hunread⟩ := hs r a r' hr
  obtain ⟨read, hread, hposition, -⟩ := hadvances.ok hr
  obtain rfl : read = code := List.append_cancel_right (hread.symm.trans hunread)
  exact ⟨read.length, ⟨read, hread, hposition, Nat.le_refl _⟩, h a read hcode⟩

end Scan.Covers
end DrillCode
