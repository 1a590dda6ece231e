import DrillCode.Proofs.Bits.Reads

/-! # Scans of a bit string that goes on

What a scan finds in a bit string it also finds when more bits follow, unless it ran out of bits
(`Scan.Stable`). A scan that did run out has read on to the end, or stands at most two bits before it: a
marker or a number of three bits is only looked at before it is taken. -/

namespace DrillCode

namespace BitReader

/-- The same place in a bit string that goes on with `more`. -/
def extend (r : BitReader) (more : List Bool) : BitReader :=
  ⟨r.position, r.unread ++ more⟩

/-- At most two bits are left to read. -/
def Spent (r : BitReader) : Prop := r.unread.length ≤ 2

theorem Ahead.spent {k : Nat} {r r' : BitReader} (h : r.Ahead k r') (hr : r.Spent) : r'.Spent :=
  Nat.le_trans (Nat.le_trans (Nat.le_add_right _ k) h.length_le) hr

theorem ahead_skip (r : BitReader) (n : Nat) : r.Ahead 0 (r.skip n) :=
  ⟨r.unread.take n, (List.take_append_drop n r.unread).symm, by rw [List.length_take]; rfl, Nat.zero_le _⟩

theorem Spent.skip {r : BitReader} (h : r.Spent) (n : Nat) : (r.skip n).Spent := by
  have hle : (r.skip n).unread.length ≤ r.unread.length := (List.drop_sublist n r.unread).length_le
  exact Nat.le_trans hle h

theorem ahead_skipMarker (r : BitReader) (n : Nat) : r.Ahead 0 (r.skipMarker n) := by
  unfold skipMarker
  split
  · exact r.ahead_skip n
  · exact .refl r

theorem Spent.skipMarker {r : BitReader} (h : r.Spent) (n : Nat) : (r.skipMarker n).Spent :=
  (r.ahead_skipMarker n).spent h

end BitReader

open BitReader

/-- The place where a result stands. -/
def Scanned.rest {α : Type} : Scanned α → BitReader
  | .ok _ rest => rest
  | .error _ rest => rest

/-- A result that took the bits up to the last and did not run out of them. -/
def Scanned.Whole {α : Type} : Scanned α → Prop
  | .ok _ rest => rest.unread = []
  | .error e rest => e.isEndOfData = false ∧ rest.unread = []

theorem Scanned.Whole.rest_unread {α : Type} : ∀ {x : Scanned α}, Whole x → (Scanned.rest x).unread = []
  | .ok _ _, h => h
  | .error _ _, h => h.2

/-- What the scan gives at a place it also gives when more bits follow, unless the bits ran out. -/
structure Scan.StableAt {α : Type} (s : Scan α) (r : BitReader) : Prop where
  ok : ∀ {a r'}, s r = .ok a r' → ∀ more, s (r.extend more) = .ok a (r'.extend more)
  error : ∀ {e r'}, s r = .error e r' → e.isEndOfData = false →
    ∀ more, s (r.extend more) = .error e (r'.extend more)
  spent : ∀ {e r'}, s r = .error e r' → e.isEndOfData = true → r'.Spent

/-- The scan is stable at every place. -/
def Scan.Stable {α : Type} (s : Scan α) : Prop := ∀ r, Scan.StableAt s r

namespace Scan.StableAt
variable {α β : Type} {s : Scan α} {r : BitReader}

theorem pure (a : α) : StableAt (pure a : Scan α) r where
  ok hs more := by
    cases hs
    rfl
  error hs := by cases hs
  spent hs := by cases hs

theorem throw {e : DecodeError} (he : e.isEndOfData = false) : StableAt (throw e : Scan α) r where
  ok hs := by cases hs
  error hs _ more := by
    cases hs
    rfl
  spent hs hend := by
    cases hs
    rw [he] at hend
    cases hend

theorem bind {f : α → Scan β} (hs : StableAt s r) (hf : ∀ a r', s r = .ok a r' → StableAt (f a) r') :
    StableAt (s >>= f) r := by
  cases hr : s r with
  | ok a r₁ =>
    have hstep : (s >>= f) r = f a r₁ := bind_ok hr
    have hlong : ∀ more, (s >>= f) (r.extend more) = f a (r₁.extend more) := fun more => bind_ok (hs.ok hr more)
    refine ⟨fun h more => ?_, fun h he more => ?_, fun h he => ?_⟩
    · rw [hlong more, (hf a r₁ hr).ok (hstep ▸ h) more]
    · rw [hlong more, (hf a r₁ hr).error (hstep ▸ h) he more]
    · exact (hf a r₁ hr).spent (hstep ▸ h) he
  | error e r₁ =>
    have hstep : (s >>= f) r = .error e r₁ := bind_error hr
    refine ⟨fun h => ?_, fun h he more => ?_, fun h he => ?_⟩
    · rw [hstep] at h
      cases h
    · rw [hstep] at h
      cases h
      exact bind_error (hs.error hr he more)
    · rw [hstep] at h
      cases h
      exact hs.spent hr he

theorem map (f : α → β) (hs : StableAt s r) : StableAt (f <$> s) r := by
  rw [map_eq_pure_bind]
  exact hs.bind fun a _ _ => .pure (f a)

end Scan.StableAt

namespace Scan.Stable
variable {α β : Type} {s : Scan α}

theorem pure (a : α) : Stable (pure a : Scan α) := fun _ => .pure a

theorem throw {e : DecodeError} (he : e.isEndOfData = false) : Stable (throw e : Scan α) := fun _ => .throw he

theorem bind {f : α → Scan β} (hs : Stable s) (hf : ∀ a, Stable (f a)) : Stable (s >>= f) :=
  fun r => (hs r).bind fun a r' _ => hf a r'

theorem map (f : α → β) (hs : Stable s) : Stable (f <$> s) := fun r => (hs r).map f

/-- A loop is stable at a place if it is so at every place with fewer bits left. -/
theorem of_shorter (h : ∀ r, (∀ r', r'.unread.length < r.unread.length → StableAt s r') → StableAt s r) :
    Stable s := fun r => (measure fun r : BitReader => r.unread.length).wf.induction r h

/-- Bits that the scan takes up to the last are too few for it when some of them are missing. -/
theorem runs_out {more : List Bool} (hs : Stable s) {r : BitReader} (hwhole : Scanned.Whole (s (r.extend more)))
    (hmore : more ≠ []) : ∃ e r', s r = .error e r' ∧ e.isEndOfData = true ∧ r'.Spent := by
  cases hcut : s r with
  | ok a r' =>
    rw [(hs r).ok hcut more] at hwhole
    exact absurd (List.append_eq_nil_iff.mp hwhole).2 hmore
  | error e r' =>
    by_cases he : e.isEndOfData = true
    · exact ⟨e, r', rfl, he, (hs r).spent hcut he⟩
    · rw [(hs r).error hcut (Bool.eq_false_iff.mpr he) more] at hwhole
      exact absurd (List.append_eq_nil_iff.mp hwhole.2).2 hmore

/-- A code that is cut short makes the scan that reads it run out of bits. -/
theorem of_cut {code bits more : List Bool} {a : α} (hs : Stable s) (hr : Reads s code a)
    (hcode : code = bits ++ more) (hmore : more ≠ []) (position : Nat) :
    ∃ e r', s ⟨position, bits⟩ = .error e r' ∧ e.isEndOfData = true ∧ r'.Spent := by
  have hwhole : s (extend ⟨position, bits⟩ more) = .ok a ⟨position + code.length, []⟩ := by
    rw [extend, ← hcode, ← hr position [], List.append_nil]
  exact hs.runs_out (by rw [hwhole]; rfl) hmore

end Scan.Stable

/-! ### Numbers -/

theorem readBit_stable : Scan.Stable readBit := fun r => by
  obtain ⟨position, unread⟩ := r
  cases unread with
  | nil =>
    refine ⟨fun h => (nomatch h), fun h he => ?_, fun h _ => ?_⟩
    · cases h
      cases he
    · cases h
      exact Nat.zero_le 2
  | cons bit rest =>
    refine ⟨fun h more => ?_, fun h => (nomatch h), fun h => (nomatch h)⟩
    cases h
    rfl

theorem readOnto_stable : ∀ (n value : Nat), Scan.Stable (readOnto value n)
  | 0, value => .pure value
  | n + 1, _ => readBit_stable.bind fun _ => readOnto_stable n _

theorem readBits_stable (n : Nat) : Scan.Stable (readBits n) := by
  unfold readBits
  split
  · exact readOnto_stable n 0
  · exact .throw rfl

theorem skipBits_stable : ∀ n : Nat, Scan.Stable (skipBits n)
  | 0 => .pure ()
  | n + 1 => readBit_stable.bind fun _ => skipBits_stable n

/-- Looking at three bits or fewer fails only where at most two are left. -/
theorem peekBits_stable {n : Nat} (hn : n ≤ 3) : Scan.Stable (peekBits n) := fun r => by
  have hread := readBits_stable n r
  cases hr : readBits n r with
  | ok v r₁ =>
    have hpeek : peekBits n r = .ok v r := by
      unfold peekBits
      rw [hr]
    refine ⟨fun h more => ?_, fun h => ?_, fun h => ?_⟩ <;> rw [hpeek] at h <;> cases h
    unfold peekBits
    rw [hread.ok hr more]
  | error e r₁ =>
    have hpeek : peekBits n r = .error e r := by
      unfold peekBits
      rw [hr]
    refine ⟨fun h => ?_, fun h he more => ?_, fun h _ => ?_⟩ <;> rw [hpeek] at h <;> cases h
    · unfold peekBits
      rw [hread.error hr he more]
    · by_cases hpos : 1 ≤ n
      · have hlen : ¬n ≤ r.unread.length := fun hlen => by
          rw [readBits_of_le hlen ⟨hpos, by omega⟩] at hr
          cases hr
        show r.unread.length ≤ 2
        omega
      · rename_i he
        rw [readBits, if_neg (fun h => hpos h.1)] at hr
        cases hr
        cases he

theorem nextIs_extend {r : BitReader} {n : Nat} (hn : 1 ≤ n ∧ n ≤ 32) (hlen : n ≤ r.unread.length) (expected : Nat)
    (more : List Bool) : (r.extend more).nextIs n expected = r.nextIs n expected := by
  have hread := readBits_of_le hlen hn
  unfold BitReader.nextIs
  rw [hread, (readBits_stable n r).ok hread more]

theorem skipMarker_extend {r : BitReader} {n : Nat} (hn : 1 ≤ n ∧ n ≤ 32) (hlen : n ≤ r.unread.length)
    (more : List Bool) : (r.extend more).skipMarker n = (r.skipMarker n).extend more := by
  unfold BitReader.skipMarker
  rw [isAt_eq, isAt_eq, nextIs_extend hn hlen 0 more]
  split
  · have hmin : min n (r.unread ++ more).length = min n r.unread.length := by
      rw [List.length_append]
      omega
    simp only [BitReader.skip, BitReader.extend, hmin, List.drop_append_of_le_length hlen]
  · rfl

/-! ### Integer codes -/

namespace Elias

theorem countZeros_stable : ∀ limit : Nat, Scan.Stable (countZeros limit)
  | 0 => .throw rfl
  | limit + 1 => readBit_stable.bind fun bit => by
    split
    · exact .pure 0
    · exact (countZeros_stable limit).map _

theorem readUnsigned_stable : Scan.Stable readUnsigned :=
  (countZeros_stable 7).bind fun zeros => (readOnto_stable zeros 1).bind fun digits => by
    split
    · exact .throw rfl
    · exact readOnto_stable _ _

theorem readSigned_stable : Scan.Stable readSigned := readBit_stable.bind fun nonzero => by
  split
  · exact readUnsigned_stable.map _
  · exact .pure 0

end Elias
end DrillCode
