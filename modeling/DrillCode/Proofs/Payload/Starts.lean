import DrillCode.Proofs.Bits.Front
import DrillCode.Proofs.Bits.Placeless
import DrillCode.Proofs.Payload.Exercise

/-! # Where exercises are looked for

The phase of exercises is a row of attempts, each from a place of its own: the first place, the place behind an
exercise, and the place one bit behind damage (`Attempt.starts`). What the phase gives is what each of these places
gives, in their order. Two bits that are left hold no exercise, so damage there is the last thing that matters. -/

namespace DrillCode

namespace Exercise
variable {r : BitReader}

/-! ### One exercise -/

theorem read_of_nextIs (h : r.nextIs 2 1 = true) (cap : Nat) : read cap r = readBody cap (r.skip 2) := by
  obtain ⟨position, unread⟩ := r
  have hunread := eq_append_of_nextIs h
  generalize hrest : (BitReader.skip ⟨position, unread⟩ 2).unread = rest at hunread
  dsimp only at hunread
  subst hunread
  have hmarker := skipBits_reads (Bits.ofNat 2 1) position rest
  rw [← BitReader.skip_append (Bits.length_ofNat 2 1)] at hmarker
  exact (Scan.bind_ok (peekBits_ofNat (by decide) (by decide))).trans (Scan.bind_ok hmarker)

/-- Without the marker of an exercise nothing is read, whatever the cap; it is an error when the bits are too few for
    any marker. -/
theorem read_of_nextIs_eq_false (h : r.nextIs 2 1 = false) :
    (∀ cap, read cap r = .ok none r) ∨ ∀ cap, read cap r = .error (.endOfData r.bitLength) r := by
  unfold BitReader.nextIs at h
  split at h
  · next number rest hread =>
    have hpeek : peekBits 2 r = .ok number r := by rw [peekBits, hread]
    refine .inl fun cap => (Scan.bind_ok hpeek).trans ?_
    rw [if_neg (by simpa using h)]
    rfl
  · next e rest hread =>
    obtain rfl | hnone := (readBits_placeless (E := fun _ => False) (by decide)).of_error hread
    · have hpeek : peekBits 2 r = .error (.endOfData r.bitLength) r := by
        rw [peekBits, hread, ((readBits_advances 2).error hread).bitLength_eq]
      exact .inr fun cap => Scan.bind_error hpeek
    · exact hnone.elim

end Exercise

namespace Attempt

/-! ### The row of attempts -/

/-- The places from which an exercise is read, whatever comes of it. -/
def starts (cap : Nat) (r : BitReader) : List BitReader :=
  match _h : Exercise.read cap r with
  | .ok none _ => [r]
  | .ok (some _) rest => r :: starts cap rest
  | .error _ rest => if _hrest : rest.unread = [] then [r] else r :: starts cap (rest.skip 1)
termination_by r.unread.length
decreasing_by
  · exact (Exercise.ahead_of_read _h).length_lt (by decide)
  · exact ((Exercise.read_advances cap).error _h).length_skip_lt _hrest

/-- What comes of reading an exercise from a place, if anything does. -/
def at? (cap : Nat) (r : BitReader) : Option Attempt :=
  match Exercise.read cap r with
  | .ok found _ => found.map exercise
  | .error e rest => some (damage e rest)

section
variable {cap : Nat} {r rest place : BitReader} {e : DecodeError}

theorem at?_of_ok {found : Option Exercise} (h : Exercise.read cap r = .ok found rest) :
    at? cap r = found.map exercise := by
  rw [at?, h]

theorem at?_of_error (h : Exercise.read cap r = .error e rest) : at? cap r = some (damage e rest) := by
  rw [at?, h]

theorem eq_error_of_at? (h : at? cap r = some (damage e place)) : Exercise.read cap r = .error e place := by
  cases hread : Exercise.read cap r with
  | ok found rest =>
    rw [at?_of_ok hread] at h
    cases found <;> cases h
  | error e' rest =>
    rw [at?_of_error hread] at h
    cases h
    rfl

theorem starts_of_none (h : Exercise.read cap r = .ok none rest) : starts cap r = [r] := by
  rw [starts]
  split <;> rename_i h' <;> rw [h] at h' <;> cases h'

theorem starts_of_some {found : Exercise} (h : Exercise.read cap r = .ok (some found) rest) :
    starts cap r = r :: starts cap rest := by
  rw [starts]
  split <;> rename_i h' <;> rw [h] at h' <;> cases h'
  rfl

theorem starts_of_error (h : Exercise.read cap r = .error e rest) :
    starts cap r = if rest.unread = [] then [r] else r :: starts cap (rest.skip 1) := by
  rw [starts]
  split <;> rename_i h' <;> rw [h] at h' <;> cases h'
  split <;> rfl

end

theorem ahead_of_mem_starts {cap : Nat} {r start : BitReader} (h : start ∈ starts cap r) : r.Ahead 0 start := by
  induction r using readAll_induction cap with
  | ends r rest hread =>
    rw [starts_of_none hread] at h
    exact List.mem_singleton.mp h ▸ .refl r
  | finds r found rest hread ih =>
    rw [starts_of_some hread] at h
    rcases List.mem_cons.mp h with rfl | h
    · exact .refl _
    · exact ((Exercise.read_advances cap).ok hread).trans (ih h)
  | stops r e rest hread hrest =>
    rw [starts_of_error hread, if_pos hrest] at h
    exact List.mem_singleton.mp h ▸ .refl r
  | restarts r e rest hread hrest ih =>
    rw [starts_of_error hread, if_neg hrest] at h
    rcases List.mem_cons.mp h with rfl | h
    · exact .refl _
    · exact ((Exercise.read_advances cap).error hread).trans ((rest.ahead_skip 1).trans (ih h))

/-- The phase gives what comes of its places one after the other. -/
theorem readAll_eq_starts (cap : Nat) (r : BitReader) : readAll cap r = (starts cap r).filterMap (at? cap) := by
  induction r using readAll_induction cap with
  | ends r rest hread =>
    rw [readAll_of_none hread, starts_of_none hread, List.filterMap_cons_none (at?_of_ok hread), List.filterMap_nil]
  | finds r found rest hread ih =>
    rw [readAll_of_some hread, starts_of_some hread, List.filterMap_cons_some (at?_of_ok hread), ih]
  | stops r e rest hread hrest =>
    rw [readAll_of_error hread, starts_of_error hread, if_pos hrest, if_pos hrest,
      List.filterMap_cons_some (at?_of_error hread), List.filterMap_nil]
  | restarts r e rest hread hrest ih =>
    rw [readAll_of_error hread, starts_of_error hread, if_neg hrest, if_neg hrest,
      List.filterMap_cons_some (at?_of_error hread), ih]

/-- Damage was found from one of the places, and behind it reading starts again one bit further. -/
theorem of_readAll_eq {cap : Nat} {r place : BitReader} {before after : List Attempt} {e : DecodeError}
    (h : readAll cap r = before ++ damage e place :: after) :
    (∃ start ∈ starts cap r, Exercise.read cap start = .error e place) ∧
      after.filterMap exercise? = if place.unread = [] then [] else exercises cap (place.skip 1) := by
  refine ⟨?_, ?_⟩
  · have hmem : damage e place ∈ readAll cap r := h ▸ List.mem_append_right before List.mem_cons_self
    rw [readAll_eq_starts] at hmem
    obtain ⟨start, hstart, hat⟩ := List.mem_filterMap.mp hmem
    exact ⟨start, hstart, eq_error_of_at? hat⟩
  · induction r using readAll_induction cap generalizing before with
    | ends r rest hread =>
      rw [readAll_of_none hread] at h
      exact absurd h.symm (List.append_ne_nil_of_right_ne_nil before (List.cons_ne_nil _ _))
    | finds r found rest hread ih =>
      rw [readAll_of_some hread] at h
      cases before with
      | nil => cases h
      | cons first before => exact ih (List.cons.inj h).2
    | stops r e' rest hread hrest =>
      rw [readAll_of_error hread, if_pos hrest] at h
      cases before with
      | nil =>
        cases h
        rw [if_pos hrest]
        rfl
      | cons first before =>
        exact absurd (List.cons.inj h).2.symm (List.append_ne_nil_of_right_ne_nil before (List.cons_ne_nil _ _))
    | restarts r e' rest hread hrest ih =>
      rw [readAll_of_error hread, if_neg hrest] at h
      cases before with
      | nil =>
        cases h
        rw [if_neg hrest]
        rfl
      | cons first before => exact ih (List.cons.inj h).2

end Attempt
end DrillCode
