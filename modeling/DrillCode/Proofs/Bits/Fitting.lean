import DrillCode.Proofs.Bits.Stable

/-! # Codes in a row, cut short

Items are written one behind the other, and the bits break off somewhere. `fitting` picks the items whose
code ends before that place. -/

namespace DrillCode.Bits
variable {α : Type}

/-- Of the items whose codes stand in a row from bit `start` on, those whose last bit lies within the
    first `limit` bits. -/
def fitting (code : α → List Bool) (limit : Nat) : (start : Nat) → (items : List α) → List α
  | _, [] => []
  | start, item :: items =>
    let stop := start + (code item).length
    if stop ≤ limit then item :: fitting code limit stop items else fitting code limit stop items

theorem fitting_cons_of_le {code : α → List Bool} {limit start : Nat} {item : α} {items : List α}
    (h : start + (code item).length ≤ limit) :
    fitting code limit start (item :: items) = item :: fitting code limit (start + (code item).length) items :=
  if_pos h

theorem fitting_of_lt {code : α → List Bool} {limit : Nat} : ∀ {start : Nat} {items : List α}, limit < start →
    fitting code limit start items = []
  | _, [], _ => rfl
  | start, item :: items, h => by
    rw [fitting, if_neg (by omega), fitting_of_lt (by omega)]

theorem fitting_cons_of_lt {code : α → List Bool} {limit start : Nat} {item : α} {items : List α}
    (h : limit < start + (code item).length) : fitting code limit start (item :: items) = [] := by
  rw [fitting, if_neg (Nat.not_le.mpr h), fitting_of_lt h]

theorem fitting_of_le {code : α → List Bool} {limit : Nat} : ∀ {start : Nat} {items : List α},
    start + (items.flatMap code).length ≤ limit → fitting code limit start items = items
  | _, [], _ => rfl
  | start, item :: items, h => by
    rw [List.flatMap_cons, List.length_append] at h
    rw [fitting_cons_of_le (by omega), fitting_of_le (by omega)]

/-- Bits that are cut somewhere hold a first code as a whole, or break off inside it. -/
theorem cut_cases {code unread lost rest : List Bool} (h : unread ++ lost = code ++ rest) :
    (∃ more, unread = code ++ more ∧ more ++ lost = rest) ∨ (∃ more, code = unread ++ more ∧ more ≠ []) := by
  rcases List.append_eq_append_iff.mp h with ⟨more, hcode, hlost⟩ | ⟨more, hunread, hrest⟩
  · cases more with
    | nil =>
      rw [List.append_nil] at hcode
      exact .inl ⟨[], by rw [hcode, List.append_nil], hlost⟩
    | cons b more => exact .inr ⟨b :: more, hcode, List.cons_ne_nil b more⟩
  · exact .inl ⟨more, hunread, hrest.symm⟩

theorem length_lt_of_cut {code unread more : List Bool} (h : code = unread ++ more) (hne : more ≠ []) :
    unread.length < code.length := by
  rw [h, List.length_append]
  exact Nat.lt_add_of_pos_right (List.length_pos_iff.mpr hne)

theorem nextIs_of_cut {unread lost rest : List Bool} {n v position : Nat}
    (h : unread ++ lost = ofNat n v ++ rest) (hn : 1 ≤ n ∧ n ≤ 32) (hv : v < 2 ^ n) (expected : Nat) :
    BitReader.nextIs ⟨position, unread⟩ n expected = (decide (n ≤ unread.length) && v == expected) := by
  have hlen := length_ofNat n v
  rcases cut_cases h with ⟨more, rfl, -⟩ | ⟨more, hcode, hne⟩
  · rw [nextIs_ofNat hn hv, decide_eq_true (by rw [List.length_append, hlen]; exact Nat.le_add_right n _),
      Bool.true_and]
  · have hlt : unread.length < n := hlen ▸ length_lt_of_cut hcode hne
    rw [nextIs_of_lt hlt, decide_eq_false (Nat.not_le.mpr hlt), Bool.false_and]

end DrillCode.Bits
