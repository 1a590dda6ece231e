import DrillCode.Proofs.Bits.Yields

/-! # Scans see nothing but the bits ahead

Two places with the same bits ahead are alike to a scan (`Scan.Placeless`): it gives the same value or fails for the
same reason, in front of the same bits, whatever lies behind the two places and however many bits that is. Only where
the bits run out does the reason name a position, and that is then the end of the bit string. Besides running out,
the scan fails for reasons of a given kind `E` alone. -/

namespace DrillCode
variable {α β : Type} {E : DecodeError → Prop}

/-- The cause, with no position where bits ran out. -/
def DecodeError.anywhere : DecodeError → DecodeError
  | .endOfData _ => .endOfData 0
  | e => e

/-- A cause other than bits that run out. -/
def DecodeError.IsDamage (e : DecodeError) : Prop := e.isEndOfData = false

/-- Two results are the same up to where in its bit string each of them stands. Bits that ran out did so at the end
    of the bit string, and any other cause is one of `E`. -/
inductive Scanned.Alike {α : Type} (E : DecodeError → Prop) : Scanned α → Scanned α → Prop
  | ok (a : α) {r r' : BitReader} (hr : r'.unread = r.unread) : Alike E (.ok a r) (.ok a r')
  | exhausted {r r' : BitReader} (hr : r'.unread = r.unread) :
    Alike E (.error (.endOfData r.bitLength) r) (.error (.endOfData r'.bitLength) r')
  | damage {e : DecodeError} (he : E e) {r r' : BitReader} (hr : r'.unread = r.unread) :
    Alike E (.error e r) (.error e r')

namespace Scanned.Alike
variable {x y : Scanned α} {r : BitReader}

theorem of_error (h : Alike E x y) {e : DecodeError} (hx : x = .error e r) : e = .endOfData r.bitLength ∨ E e := by
  cases h with
  | ok => cases hx
  | exhausted =>
    cases hx
    exact .inl rfl
  | damage he =>
    cases hx
    exact .inr he

theorem ok_of_ok (h : Alike E x y) {a : α} (hx : x = .ok a r) : ∃ r', y = .ok a r' ∧ r'.unread = r.unread := by
  cases h with
  | ok a hr =>
    cases hx
    exact ⟨_, rfl, hr⟩
  | exhausted => cases hx
  | damage => cases hx

theorem error_of_error (h : Alike E x y) {e : DecodeError} (hx : x = .error e r) :
    ∃ e' r', y = .error e' r' ∧ e'.anywhere = e.anywhere ∧ r'.unread = r.unread := by
  cases h with
  | ok => cases hx
  | exhausted hr =>
    cases hx
    exact ⟨_, _, rfl, rfl, hr⟩
  | damage _ hr =>
    cases hx
    exact ⟨_, _, rfl, rfl, hr⟩

end Scanned.Alike

/-- The scan gives the same at every place with the same bits ahead. -/
def Scan.PlacelessAt (E : DecodeError → Prop) (s : Scan α) (r : BitReader) : Prop :=
  ∀ r', r'.unread = r.unread → Scanned.Alike E (s r) (s r')

/-- The scan gives the same at any two places with the same bits ahead. -/
def Scan.Placeless (E : DecodeError → Prop) (s : Scan α) : Prop := ∀ r, PlacelessAt E s r

namespace Scan.PlacelessAt
variable {s : Scan α} {r : BitReader}

theorem pure (a : α) : PlacelessAt E (pure a : Scan α) r := fun _ hr => .ok a hr

theorem throw {e : DecodeError} (he : E e) : PlacelessAt E (throw e : Scan α) r := fun _ hr => .damage he hr

theorem bind {f : α → Scan β} (hs : PlacelessAt E s r) (hf : ∀ a rest, s r = .ok a rest → PlacelessAt E (f a) rest) :
    PlacelessAt E (s >>= f) r := by
  intro r' hr
  have h := hs r' hr
  generalize hx : s r = x at h
  generalize hy : s r' = y at h
  cases h with
  | ok a hrest =>
    rw [bind_ok hx, bind_ok hy]
    exact hf a _ hx _ hrest
  | exhausted hrest =>
    rw [bind_error hx, bind_error hy]
    exact .exhausted hrest
  | damage he hrest =>
    rw [bind_error hx, bind_error hy]
    exact .damage he hrest

theorem map (f : α → β) (hs : PlacelessAt E s r) : PlacelessAt E (f <$> s) r := by
  rw [map_eq_pure_bind]
  exact hs.bind fun a _ _ => .pure (f a)

end Scan.PlacelessAt

namespace Scan.Placeless
variable {s : Scan α} {r r' rest : BitReader} {e : DecodeError}

theorem pure (a : α) : Placeless E (pure a : Scan α) := fun _ => .pure a

theorem throw (he : E e) : Placeless E (throw e : Scan α) := fun _ => .throw he

theorem bind {f : α → Scan β} (hs : Placeless E s) (hf : ∀ a, Placeless E (f a)) : Placeless E (s >>= f) :=
  fun r => (hs r).bind fun a rest _ => hf a rest

/-- What comes second has to be looked at only for what the first scan can give. -/
theorem bind_yields {P : α → Prop} {f : α → Scan β} (hs : Placeless E s) (hP : Yields P s)
    (hf : ∀ a, P a → Placeless E (f a)) : Placeless E (s >>= f) :=
  fun r => (hs r).bind fun a rest h => hf a (hP r a rest h) rest

theorem map (f : α → β) (hs : Placeless E s) : Placeless E (f <$> s) := fun r => (hs r).map f

/-- A loop gives the same wherever the same bits are ahead if it does so wherever there are fewer. -/
theorem of_shorter
    (h : ∀ r, (∀ rest : BitReader, rest.unread.length < r.unread.length → PlacelessAt E s rest) → PlacelessAt E s r) :
    Placeless E s := fun r => (measure fun r : BitReader => r.unread.length).wf.induction r h

/-- Where the scan fails, the bits ran out at the end of the bit string or the cause is one of `E`. -/
theorem of_error (hs : Placeless E s) (h : s r = .error e rest) : e = .endOfData rest.bitLength ∨ E e :=
  (hs r r rfl).of_error h

theorem ok_of_ok (hs : Placeless E s) (hr : r'.unread = r.unread) {a : α} (h : s r = .ok a rest) :
    ∃ rest', s r' = .ok a rest' ∧ rest'.unread = rest.unread := (hs r r' hr).ok_of_ok h

theorem error_of_error (hs : Placeless E s) (hr : r'.unread = r.unread) (h : s r = .error e rest) :
    ∃ e' rest', s r' = .error e' rest' ∧ e'.anywhere = e.anywhere ∧ rest'.unread = rest.unread :=
  (hs r r' hr).error_of_error h

end Scan.Placeless

/-! ### Numbers -/

theorem readBit_placeless : Scan.Placeless E readBit := fun r r' hr => by
  obtain ⟨p, bits⟩ := r
  obtain ⟨q, bits'⟩ := r'
  obtain rfl : bits' = bits := hr
  cases bits' with
  | nil => exact @Scanned.Alike.exhausted Bool E ⟨p, []⟩ ⟨q, []⟩ rfl
  | cons bit bits => exact .ok bit rfl

theorem readOnto_placeless : ∀ n value : Nat, Scan.Placeless E (readOnto value n)
  | 0, value => .pure value
  | n + 1, _ => readBit_placeless.bind fun _ => readOnto_placeless n _

theorem readBits_placeless {n : Nat} (hn : 1 ≤ n ∧ n ≤ 32) : Scan.Placeless E (readBits n) := by
  unfold readBits
  rw [if_pos hn]
  exact readOnto_placeless n 0

theorem skipBits_placeless : ∀ n : Nat, Scan.Placeless E (skipBits n)
  | 0 => .pure ()
  | n + 1 => readBit_placeless.bind fun _ => skipBits_placeless n

theorem peekBits_placeless {n : Nat} (hn : 1 ≤ n ∧ n ≤ 32) : Scan.Placeless E (peekBits n) := fun r r' hr => by
  have h := readBits_placeless (E := E) hn r r' hr
  unfold peekBits
  generalize hx : readBits n r = x at h
  generalize hy : readBits n r' = y at h
  cases h with
  | ok v => exact .ok v hr
  | exhausted =>
    -- The position is that of the end of the bit string, also for who stays in place.
    dsimp only
    rw [((readBits_advances n).error hx).bitLength_eq, ((readBits_advances n).error hy).bitLength_eq]
    exact .exhausted hr
  | damage he => exact .damage he hr

theorem nextIs_congr {n : Nat} (hn : 1 ≤ n ∧ n ≤ 32) {r r' : BitReader} (hr : r'.unread = r.unread)
    (expected : Nat) : r'.nextIs n expected = r.nextIs n expected := by
  have h := readBits_placeless (E := fun _ => True) hn r r' hr
  unfold BitReader.nextIs
  generalize readBits n r = x at h
  generalize readBits n r' = y at h
  cases h <;> rfl

theorem skipMarker_congr {n : Nat} (hn : 1 ≤ n ∧ n ≤ 32) {r r' : BitReader} (hr : r'.unread = r.unread) :
    (r'.skipMarker n).unread = (r.skipMarker n).unread := by
  unfold BitReader.skipMarker
  rw [BitReader.isAt_eq, BitReader.isAt_eq, nextIs_congr hn hr]
  split
  · exact congrArg (List.drop n) hr
  · exact hr

/-! ### Integer codes -/

namespace Elias

theorem countZeros_placeless (hE : E (.integerOverflow 128)) : ∀ limit : Nat, Scan.Placeless E (countZeros limit)
  | 0 => .throw hE
  | limit + 1 => readBit_placeless.bind fun bit => by
    split
    · exact .pure 0
    · exact (countZeros_placeless hE limit).map _

theorem countZeros_yields : ∀ limit : Nat, Scan.Yields (· < limit) (countZeros limit)
  | 0 => .throw _
  | limit + 1 => .bind_any fun bit => by
    split
    · exact .pure (Nat.succ_pos limit)
    · exact (countZeros_yields limit).map fun _ h => Nat.succ_lt_succ h

/-- An integer fails for a number of digits above 64 that seven binary digits can announce, or for the next one. -/
theorem readUnsigned_placeless (hE : ∀ n, 65 ≤ n → n ≤ 128 → E (.integerOverflow n)) :
    Scan.Placeless E readUnsigned := by
  refine (countZeros_placeless (hE 128 (by decide) (by decide)) 7).bind_yields (countZeros_yields 7)
    fun zeros hzeros => ?_
  refine (readOnto_placeless zeros 1).bind_yields (readOnto_yields zeros 1) fun digits hdigits => ?_
  have hpow : 2 ^ zeros ≤ 2 ^ 6 := Nat.pow_le_pow_right (by decide) (by omega)
  split
  · next hlong => exact .throw (hE digits (by omega) (by omega))
  · exact readOnto_placeless _ _

theorem readSigned_placeless (hE : ∀ n, 65 ≤ n → n ≤ 128 → E (.integerOverflow n)) : Scan.Placeless E readSigned :=
  readBit_placeless.bind fun nonzero => by
    split
    · exact (readUnsigned_placeless hE).map _
    · exact .pure 0

end Elias
end DrillCode
