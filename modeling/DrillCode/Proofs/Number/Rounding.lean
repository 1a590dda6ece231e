import DrillCode.Number.Shortest
import Mathlib.Algebra.Order.Field.Power
import Mathlib.Data.Rat.Cast.Order
import Mathlib.Tactic.FieldSimp
import Mathlib.Tactic.Linarith
import Mathlib.Tactic.NormNum
import Mathlib.Tactic.Positivity
import Mathlib.Tactic.Ring

/-! # What rounds to a floating-point number

The numbers that round to a floating-point number lie around it, and those of two different ones lie apart: where
two of the intervals meet, the end belongs to one of them at most. The shortest decimal of a number rounds to it. -/

namespace DrillCode.Shortest
open Binary64 (fractionCount minExponent)

variable {m m' : Nat} {q q' k : Int} {x : ℚ}

/-- The number `m * 2 ^ q` is written as floating-point numbers are, in units that are as small as can be. -/
structure IsCanonical (m : Nat) (q : Int) : Prop where
  lt : m < 2 * fractionCount
  le : minExponent ≤ q
  normal : q = minExponent ∨ fractionCount ≤ m

/-- The lower end of the interval around `m * 2 ^ q`. -/
def lower (m : Nat) (q : Int) : ℚ := lowEnd m q * 2 ^ (q - 2)

/-- The upper end of the interval around `m * 2 ^ q`. -/
def upper (m : Nat) (q : Int) : ℚ := highEnd m * 2 ^ (q - 2)

/-- The number rounds to `m * 2 ^ q`: it lies between the ends, or is one of them if `m` is even. -/
structure RoundsTo (x : ℚ) (m : Nat) (q : Int) : Prop where
  lower_le : lower m q ≤ x
  le_upper : x ≤ upper m q
  inner : m % 2 = 1 → lower m q < x ∧ x < upper m q

theorem unit_pos (q : Int) : (0 : ℚ) < 2 ^ (q - 2) := zpow_pos (by norm_num) _

/-! ### Intervals lie apart -/

theorem fractionCount_eq : fractionCount = 4503599627370496 := rfl

/-- In the same units, the upper end of a number is at most the lower end of a greater one, and if it is the same
    one of the two is odd. -/
theorem highEnd_le_lowEnd (h : IsCanonical m q) (hlt : m < m') :
    highEnd m ≤ lowEnd m' q ∧ (highEnd m = lowEnd m' q → m % 2 = 1 ∨ m' % 2 = 1) := by
  have hlow : lowEnd m' q = 4 * m' - 2 := by
    refine if_neg ?_
    rintro ⟨rfl, hmin⟩
    rcases h.normal with rfl | hle
    · exact Int.lt_irrefl _ hmin
    · omega
  rw [hlow, highEnd]
  omega

/-- The upper end of a number is at most the lower end of one with greater units, and if it is the same the smaller
    one is odd. -/
theorem highEnd_le_two_mul_lowEnd (h : IsCanonical m q) (h' : IsCanonical m' q') (hlt : q < q') :
    highEnd m ≤ 2 * lowEnd m' q' ∧ (2 * lowEnd m' q' ≤ highEnd m → m % 2 = 1) := by
  have hm := h.lt
  have hmin : minExponent < q' := Int.lt_of_le_of_lt h.le hlt
  have hm' : fractionCount ≤ m' := h'.normal.resolve_left hmin.ne'
  have hlow : 4 * fractionCount - 1 ≤ lowEnd m' q' := by
    unfold lowEnd
    split <;> omega
  rw [fractionCount_eq] at hm hm' hlow
  rw [highEnd]
  omega

/-- A unit is at least twice as large as any smaller one. -/
theorem two_mul_unit_le (hlt : q < q') : 2 * (2 : ℚ) ^ (q - 2) ≤ 2 ^ (q' - 2) := by
  have hstep : 2 * (2 : ℚ) ^ (q - 2) = 2 ^ (q - 1) := by
    rw [show q - 1 = q - 2 + 1 by ring, zpow_add_one₀ (by norm_num), mul_comm]
  rw [hstep]
  exact zpow_le_zpow_right₀ (by norm_num) (by omega)

/-- The interval of a number lies below that of a greater one; they meet only where one end of them is open. -/
theorem upper_le_lower (h : IsCanonical m q) (h' : IsCanonical m' q') (hlt : q < q' ∨ q = q' ∧ m < m') :
    upper m q ≤ lower m' q' ∧ (upper m q = lower m' q' → m % 2 = 1 ∨ m' % 2 = 1) := by
  have hunit := unit_pos q
  rcases hlt with hlt | ⟨rfl, hlt⟩
  · obtain ⟨hle, hodd⟩ := highEnd_le_two_mul_lowEnd h h' hlt
    have hends : (highEnd m : ℚ) ≤ 2 * lowEnd m' q' := by exact_mod_cast hle
    -- The lower end in the smaller units.
    have hlower : 2 * lowEnd m' q' * (2 : ℚ) ^ (q - 2) ≤ lower m' q' :=
      calc 2 * lowEnd m' q' * (2 : ℚ) ^ (q - 2)
        _ = lowEnd m' q' * (2 * 2 ^ (q - 2)) := by ring
        _ ≤ lowEnd m' q' * 2 ^ (q' - 2) := by gcongr; exact two_mul_unit_le hlt
    refine ⟨(mul_le_mul_of_nonneg_right hends hunit.le).trans hlower, fun heq => .inl (hodd ?_)⟩
    have hback : 2 * lowEnd m' q' * (2 : ℚ) ^ (q - 2) ≤ highEnd m * 2 ^ (q - 2) := hlower.trans heq.ge
    exact_mod_cast le_of_mul_le_mul_right hback hunit
  · obtain ⟨hle, hodd⟩ := highEnd_le_lowEnd h hlt
    refine ⟨mul_le_mul_of_nonneg_right (by exact_mod_cast hle) hunit.le, fun heq => hodd ?_⟩
    exact_mod_cast mul_right_cancel₀ hunit.ne' heq

/-- No number rounds to two of which one is smaller. -/
theorem RoundsTo.not_less (h : RoundsTo x m q) (h' : RoundsTo x m' q') (hm : IsCanonical m q)
    (hm' : IsCanonical m' q') : ¬(q < q' ∨ q = q' ∧ m < m') := by
  intro hlt
  obtain ⟨hle, hodd⟩ := upper_le_lower hm hm' hlt
  have heq : upper m q = lower m' q' := le_antisymm hle (h'.lower_le.trans h.le_upper)
  rcases hodd heq with hodd | hodd
  · have hinner := (h.inner hodd).2
    linarith [h'.lower_le]
  · have hinner := (h'.inner hodd).1
    linarith [h.le_upper]

theorem RoundsTo.unique (h : RoundsTo x m q) (h' : RoundsTo x m' q') (hm : IsCanonical m q)
    (hm' : IsCanonical m' q') : m = m' ∧ q = q' := by
  have hless := h.not_less h' hm hm'
  have hgreater := h'.not_less h hm' hm
  omega

/-! ### The shortest decimal -/

/-- The numerator and the denominator compare as what they stand for does. -/
theorem exists_scale (q k : Int) : ∃ scale : ℚ, 0 < scale ∧
    (∀ a : Nat, (numerator a q k : ℚ) = a * 2 ^ q * scale) ∧
    ∀ c : Nat, ((c * denominator q k : Nat) : ℚ) = c * 10 ^ k * scale := by
  have h2 : (2 : ℚ) ^ q * 2 ^ (-q).toNat = 2 ^ q.toNat := by
    rw [← zpow_natCast, ← zpow_natCast, ← zpow_add₀ (by norm_num)]
    congr 1
    omega
  have h10 : (10 : ℚ) ^ k * 10 ^ (-k).toNat = 10 ^ k.toNat := by
    rw [← zpow_natCast, ← zpow_natCast, ← zpow_add₀ (by norm_num)]
    congr 1
    omega
  refine ⟨2 ^ (-q).toNat * 10 ^ (-k).toNat, by positivity, fun a => ?_, fun c => ?_⟩
  · rw [numerator]
    push_cast
    rw [← h2]
    ring
  · rw [denominator]
    push_cast
    rw [← h10]
    ring

theorem numerator_le_iff (a c : Nat) (q k : Int) :
    numerator a q k ≤ c * denominator q k ↔ (a : ℚ) * 2 ^ q ≤ c * 10 ^ k := by
  obtain ⟨scale, hscale, hnumerator, hpoint⟩ := exists_scale q k
  rw [← Nat.cast_le (α := ℚ), hnumerator, hpoint, mul_le_mul_iff_left₀ hscale]

theorem le_numerator_iff (a c : Nat) (q k : Int) :
    c * denominator q k ≤ numerator a q k ↔ (c : ℚ) * 10 ^ k ≤ a * 2 ^ q := by
  obtain ⟨scale, hscale, hnumerator, hpoint⟩ := exists_scale q k
  rw [← Nat.cast_le (α := ℚ), hnumerator, hpoint, mul_le_mul_iff_left₀ hscale]

theorem roundsTo_of_inside {c : Nat} (h : inside m q k c = true) : RoundsTo (c * 10 ^ k) m q := by
  rw [inside] at h
  split at h
  · next heven =>
    rw [Bool.and_eq_true, decide_eq_true_iff, decide_eq_true_iff, numerator_le_iff, le_numerator_iff] at h
    exact ⟨h.1, h.2, fun hodd => by omega⟩
  · rw [Bool.and_eq_true, decide_eq_true_iff, decide_eq_true_iff, ← not_le, ← not_le, le_numerator_iff,
      numerator_le_iff, not_le, not_le] at h
    exact ⟨h.1.le, h.2.le, fun _ => h⟩

theorem roundsTo_self (m : Nat) (q : Int) : RoundsTo (m * 2 ^ q) m q := by
  have hunit := unit_pos q
  have hself : (m : ℚ) * 2 ^ q = (4 * m : Nat) * 2 ^ (q - 2) := by
    rw [show q = q - 2 + 2 by ring, zpow_add₀ (by norm_num)]
    push_cast
    norm_num
    ring
  have hlow : lowEnd m q ≤ 4 * m ∧ (m % 2 = 1 → lowEnd m q < 4 * m) := by
    unfold lowEnd
    split <;> omega
  rw [hself]
  refine ⟨?_, ?_, fun hodd => ⟨?_, ?_⟩⟩
  · exact mul_le_mul_of_nonneg_right (by exact_mod_cast hlow.1) hunit.le
  · exact mul_le_mul_of_nonneg_right (by exact_mod_cast Nat.le_add_right _ 2) hunit.le
  · exact mul_lt_mul_of_pos_right (by exact_mod_cast hlow.2 hodd) hunit
  · exact mul_lt_mul_of_pos_right (by exact_mod_cast Nat.lt_add_of_pos_right Nat.two_pos) hunit

theorem inside_of_onGrid {tie : Tie} {c : Nat} (h : onGrid tie m q k = some c) : inside m q k c = true := by
  unfold onGrid at h
  dsimp only at h
  split at h
  · cases h
  · next hthis _ =>
    cases h
    exact (Bool.and_eq_true_iff.mp hthis).2
  · next _ hnext =>
    cases h
    exact hnext
  · next hthis hnext =>
    have hinside := (Bool.and_eq_true_iff.mp hthis).2
    split at h
    · cases h
      exact hinside
    · split at h
      · cases h
        exact hnext
      · cases tie with
        | up =>
          cases h
          exact hnext
        | toEven =>
          cases h
          split
          · exact hinside
          · exact hnext

/-- The exact decimal, for the case that no grid has a point in the interval. -/
theorem exact_eq (m : Nat) (q : Int) :
    ((m * 2 ^ q.toNat * 10 ^ (-q).toNat / 2 ^ (-q).toNat : Nat) : ℚ) * 10 ^ (-((-q).toNat : Int)) = m * 2 ^ q := by
  rcases Int.le_total 0 q with hq | hq
  · obtain ⟨n, rfl⟩ := Int.eq_ofNat_of_zero_le hq
    simp
  · obtain ⟨n, hn⟩ := Int.exists_eq_neg_ofNat hq
    subst hn
    have hfive : m * 10 ^ n / 2 ^ n = m * 5 ^ n := by
      refine Nat.div_eq_of_eq_mul_left (Nat.pow_pos Nat.two_pos) ?_
      rw [Nat.mul_assoc, ← Nat.mul_pow]
    have hten : (10 : ℚ) ^ n = 5 ^ n * 2 ^ n := by rw [← mul_pow]; norm_num
    simp only [Int.neg_neg, Int.toNat_neg_natCast, Int.toNat_natCast, pow_zero, mul_one, hfive, zpow_neg, zpow_natCast]
    rw [hten]
    push_cast
    field_simp

/-- The shortest decimal of a number rounds to it. -/
theorem roundsTo_decimal (tie : Tie) (m : Nat) (q : Int) :
    RoundsTo ((decimal tie m q).1 * 10 ^ (decimal tie m q).2) m q := by
  unfold decimal
  dsimp only
  generalize hfound : (List.range 20).findSome? _ = found
  cases found with
  | none =>
    rw [Option.getD_none, exact_eq]
    exact roundsTo_self m q
  | some point =>
    obtain ⟨i, -, hpoint⟩ := List.exists_of_findSome?_eq_some hfound
    obtain ⟨c, hc, rfl⟩ := Option.map_eq_some_iff.mp hpoint
    exact roundsTo_of_inside (inside_of_onGrid hc)

end DrillCode.Shortest
