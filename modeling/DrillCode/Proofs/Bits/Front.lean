import DrillCode.Proofs.Bits.Consumes
import DrillCode.Proofs.Bits.Stable
import Mathlib.Logic.ExistsUnique

/-! # What the bits ahead begin with

To a reader of integers the bits ahead begin with the code of a number, or with what announces a number of more than
64 digits, or they are a proper first part of one of these (`Elias.Front`). It is always exactly one of the three, and
which one decides what the reader gives. For this a scan is looked at where it fails: behind which bits it rejects
what follows (`Scan.Fails`, `Scan.Rejects`), and that bits that ran out were all read and could have gone on to an
end (`Scan.Exhausts`). -/

namespace DrillCode

section
variable {α β : Type} {s : Scan α} {code more : List Bool} {a : α} {e : DecodeError}

/-! ### Bits that are rejected -/

/-- The scan fails right behind the bits `code`, whatever lies before and behind them. -/
def Scan.Fails (s : Scan α) (code : List Bool) (e : DecodeError) : Prop :=
  ∀ position rest, s ⟨position, code ++ rest⟩ = .error e ⟨position + code.length, rest⟩

namespace Scan.Fails

theorem throw (e : DecodeError) : Fails (throw e : Scan α) [] e := fun _ _ => rfl

theorem bind {f : α → Scan β} (hs : Fails s code e) : Fails (s >>= f) code e := fun position rest =>
  bind_error (hs position rest)

theorem map (f : α → β) (hs : Fails s code e) : Fails (f <$> s) code e := fun position rest =>
  map_error (hs position rest)

theorem whole (hs : Fails s code e) (he : e.isEndOfData = false) (position : Nat) :
    Scanned.Whole (s ⟨position, code⟩) := by
  have h := hs position []
  rw [List.append_nil] at h
  rw [h]
  exact ⟨he, rfl⟩

end Scan.Fails

theorem Scan.Reads.whole (hs : Scan.Reads s code a) (position : Nat) : Scanned.Whole (s ⟨position, code⟩) := by
  have h := hs position []
  rw [List.append_nil] at h
  rw [h]
  rfl

theorem Scan.Reads.bind_fails {f : α → Scan β} (hs : Scan.Reads s code a) (hf : Scan.Fails (f a) more e) :
    Scan.Fails (s >>= f) (code ++ more) e := by
  intro position rest
  rw [List.append_assoc, bind_ok (hs position (more ++ rest)), hf, List.length_append, Nat.add_assoc]

/-- Whatever the scan rejects, it passed over bits that show the cause. Bits that run out are no such cause. -/
def Scan.Rejects (D : DecodeError → List Bool → Prop) (s : Scan α) : Prop :=
  ∀ r e rest, s r = .error e rest → e.isEndOfData = false → ∃ front, D e front ∧ r.unread = front ++ rest.unread

namespace Scan.Rejects
variable {C : α → List Bool → Prop} {D : DecodeError → List Bool → Prop}

theorem pure (a : α) : Rejects D (pure a : Scan α) := by
  rintro r _ rest ⟨⟩

theorem throw (h : D e []) : Rejects D (throw e : Scan α) := by
  rintro r _ rest ⟨⟩ -
  exact ⟨[], h, rfl⟩

theorem bind {f : α → Scan β} (hs : Rejects D s) (hcode : Consumes C s)
    (hf : ∀ a front, C a front → Rejects (fun e back => D e (front ++ back)) (f a)) : Rejects D (s >>= f) := by
  intro r e rest h he
  cases hr : s r with
  | ok a r₁ =>
    rw [bind_ok hr] at h
    obtain ⟨front, hfront, hunread⟩ := hcode r a r₁ hr
    obtain ⟨back, hback, hrest⟩ := hf a front hfront r₁ e rest h he
    exact ⟨front ++ back, hback, by rw [hunread, hrest, List.append_assoc]⟩
  | error e₁ r₁ =>
    rw [bind_error hr] at h
    obtain ⟨rfl, rfl⟩ := EStateM.Result.error.inj h
    exact hs r e₁ r₁ hr he

theorem mono {D' : DecodeError → List Bool → Prop} (hs : Rejects D s) (h : ∀ e front, D e front → D' e front) :
    Rejects D' s := fun r e rest hr he => by
  obtain ⟨front, hfront, hunread⟩ := hs r e rest hr he
  exact ⟨front, h e front hfront, hunread⟩

theorem map {f : α → β} (hs : Rejects D s) : Rejects D (f <$> s) := by
  intro r e rest h he
  cases hr : s r with
  | ok a r₁ =>
    rw [map_ok hr] at h
    cases h
  | error e₁ r₁ =>
    rw [map_error hr] at h
    obtain ⟨rfl, rfl⟩ := EStateM.Result.error.inj h
    exact hs r e₁ r₁ hr he

end Scan.Rejects

/-! ### Bits that run out -/

namespace BitReader

theorem extend_append (r : BitReader) (more others : List Bool) :
    r.extend (more ++ others) = (r.extend more).extend others := by
  simp [extend]

theorem skip_append {code rest : List Bool} {n position : Nat} (h : code.length = n) :
    skip ⟨position, code ++ rest⟩ n = ⟨position + code.length, rest⟩ := by
  subst h
  simp [skip]

end BitReader

/-- Where the bits run out, the scan stands at their end, and with some more of them it would have come to an end
    of its own. -/
structure Scan.Exhausts (s : Scan α) : Prop where
  stable : Stable s
  advances : Advances 0 s
  stops : ∀ {r e rest}, s r = .error e rest → e.isEndOfData = true →
    e = .endOfData r.bitLength ∧ rest = ⟨r.bitLength, []⟩
  goesOn : ∀ {r e rest}, s r = .error e rest → e.isEndOfData = true →
    ∃ more, more ≠ [] ∧ Scanned.Whole (s (r.extend more))

namespace Scan.Exhausts

theorem pure (a : α) : Exhausts (pure a : Scan α) where
  stable := .pure a
  advances := .pure a
  stops h := by cases h
  goesOn h := by cases h

theorem throw (he : e.isEndOfData = false) : Exhausts (throw e : Scan α) where
  stable := .throw he
  advances := .throw e
  stops h hend := by
    cases h
    rw [he] at hend
    cases hend
  goesOn h hend := by
    cases h
    rw [he] at hend
    cases hend

/-- At the end of the bits the scan comes to an end of its own, or more bits take it there. -/
theorem exists_whole (hs : Exhausts s) {r : BitReader} (hr : r.unread = []) :
    ∃ more, Scanned.Whole (s (r.extend more)) := by
  have hend : ∀ {rest : BitReader}, r.Ahead 0 rest → rest.unread = [] := fun hahead => by
    have hlen := hahead.length_le
    rw [hr] at hlen
    exact List.eq_nil_of_length_eq_zero (Nat.le_zero.mp hlen)
  have hnil : r.extend [] = r := by simp [BitReader.extend]
  cases h : s r with
  | ok a rest =>
    refine ⟨[], ?_⟩
    rw [hnil, h]
    exact hend (hs.advances.ok h)
  | error e rest =>
    by_cases he : e.isEndOfData = true
    · obtain ⟨more, -, hwhole⟩ := hs.goesOn h he
      exact ⟨more, hwhole⟩
    · refine ⟨[], ?_⟩
      rw [hnil, h]
      exact ⟨Bool.eq_false_iff.mpr he, hend (hs.advances.error h)⟩

theorem bind {f : α → Scan β} (hs : Exhausts s) (hf : ∀ a, Exhausts (f a)) : Exhausts (s >>= f) where
  stable := hs.stable.bind fun a => (hf a).stable
  advances := hs.advances.bind fun a => (hf a).advances
  stops {r e rest} h he := by
    cases hr : s r with
    | ok a r₁ =>
      rw [bind_ok hr] at h
      rw [← (hs.advances.ok hr).bitLength_eq]
      exact (hf a).stops h he
    | error e₁ r₁ =>
      rw [bind_error hr] at h
      obtain ⟨rfl, rfl⟩ := EStateM.Result.error.inj h
      exact hs.stops hr he
  goesOn {r e rest} h he := by
    cases hr : s r with
    | ok a r₁ =>
      rw [bind_ok hr] at h
      obtain ⟨more, hmore, hwhole⟩ := (hf a).goesOn h he
      refine ⟨more, hmore, ?_⟩
      rwa [bind_ok ((hs.stable r).ok hr more)]
    | error e₁ r₁ =>
      rw [bind_error hr] at h
      obtain ⟨rfl, rfl⟩ := EStateM.Result.error.inj h
      obtain ⟨more, hmore, hwhole⟩ := hs.goesOn hr he
      cases hlong : s (r.extend more) with
      | ok a r₂ =>
        -- The first scan has come to its end; the second one may want more bits still.
        rw [hlong] at hwhole
        obtain ⟨others, hothers⟩ := (hf a).exists_whole hwhole
        refine ⟨more ++ others, fun hnil => hmore (List.append_eq_nil_iff.mp hnil).1, ?_⟩
        rwa [BitReader.extend_append, bind_ok ((hs.stable _).ok hlong others)]
      | error e₂ r₂ =>
        refine ⟨more, hmore, ?_⟩
        rw [bind_error hlong]
        rwa [hlong] at hwhole

theorem map (f : α → β) (hs : Exhausts s) : Exhausts (f <$> s) := by
  rw [map_eq_pure_bind]
  exact hs.bind fun a => .pure (f a)

end Scan.Exhausts
end

/-! ### Numbers -/

theorem readBit_rejects {D : DecodeError → List Bool → Prop} : Scan.Rejects D readBit := by
  rintro ⟨position, unread⟩ e rest h he
  cases unread with
  | nil =>
    cases h
    cases he
  | cons bit unread => cases h

theorem readOnto_rejects {D : DecodeError → List Bool → Prop} : ∀ n value : Nat, Scan.Rejects D (readOnto value n)
  | 0, value => .pure value
  | n + 1, _ => readBit_rejects.bind readBit_consumes fun _ _ _ => readOnto_rejects n _

theorem readBit_exhausts : Scan.Exhausts readBit where
  stable := readBit_stable
  advances := readBit_advances.mono (Nat.zero_le 1)
  stops {r e rest} h _ := by
    obtain ⟨position, unread⟩ := r
    cases unread with
    | nil =>
      cases h
      exact ⟨rfl, rfl⟩
    | cons bit unread => cases h
  goesOn {r e rest} h _ := by
    obtain ⟨position, unread⟩ := r
    cases unread with
    | nil => exact ⟨[false], by simp, rfl⟩
    | cons bit unread => cases h

theorem readOnto_exhausts : ∀ n value : Nat, Scan.Exhausts (readOnto value n)
  | 0, value => .pure value
  | n + 1, _ => readBit_exhausts.bind fun _ => readOnto_exhausts n _

/-! ### Integer codes -/

namespace Elias

/-- What bits can begin with. -/
inductive Front where
  /-- The code of a number. -/
  | number (n : Nat)
  /-- What announces a number of so many digits, too many for a word. -/
  | overlong (digits : Nat)
  /-- Nothing but a first part of one of these. -/
  | broken

/-- The bits that a front is told by, one that is not broken. -/
inductive Front.Marks : Front → List Bool → Prop
  | number {n : Nat} (hne : n ≠ 0) (hlt : n < wordCount) : Marks (.number n) (code n)
  | zeros : Marks (.overlong 128) (List.replicate 7 false)
  | digits {digits : List Bool} (hlen : digits.length = 6) (hne : Bits.toNat digits ≠ 0) :
    Marks (.overlong (64 + Bits.toNat digits)) (List.replicate 6 false ++ true :: digits)

/-- The bits begin like this. -/
inductive Front.Begins : Front → List Bool → Prop
  | whole {front : Front} {mark : List Bool} (h : front.Marks mark) (rest : List Bool) : front.Begins (mark ++ rest)
  | part {front : Front} {bits more : List Bool} (h : front.Marks (bits ++ more)) (hmore : more ≠ []) :
    Begins .broken bits

/-- What the reader of integers gives for a front. -/
def Front.answer (r : BitReader) : Front → Scanned Nat
  | number n => .ok n (r.skip (code n).length)
  | overlong digits => .error (.integerOverflow digits) (r.skip (if digits = 128 then 7 else 13))
  | broken => .error (.endOfData r.bitLength) ⟨r.bitLength, []⟩

theorem Front.answer_injective (r : BitReader) {front other : Front} (h : front.answer r = other.answer r) :
    front = other := by
  cases front <;> cases other <;> cases h <;> rfl

/-! #### What the reader gives -/

theorem countZeros_exhausts : ∀ limit : Nat, Scan.Exhausts (countZeros limit)
  | 0 => .throw rfl
  | limit + 1 => readBit_exhausts.bind fun bit => by
    split
    · exact .pure 0
    · exact (countZeros_exhausts limit).map _

theorem readUnsigned_exhausts : Scan.Exhausts readUnsigned :=
  (countZeros_exhausts 7).bind fun zeros => (readOnto_exhausts zeros 1).bind fun digits => by
    split
    · exact .throw rfl
    · exact readOnto_exhausts _ _

theorem countZeros_fails : ∀ limit : Nat,
    Scan.Fails (countZeros limit) (List.replicate limit false) (.integerOverflow 128)
  | 0 => .throw _
  | limit + 1 => (readBit_reads false).bind_fails ((countZeros_fails limit).map (· + 1))

theorem readUnsigned_fails_zeros : Scan.Fails readUnsigned (List.replicate 7 false) (.integerOverflow 128) :=
  (countZeros_fails 7).bind

theorem readUnsigned_fails_digits {digits : List Bool} (hlen : digits.length = 6) (hne : Bits.toNat digits ≠ 0) :
    Scan.Fails readUnsigned (List.replicate 6 false ++ true :: digits)
      (.integerOverflow (64 + Bits.toNat digits)) := by
  have hdigits := readOnto_reads digits 1
  rw [Bits.foldl_eq, hlen] at hdigits
  have hcode : List.replicate 6 false ++ true :: digits = (List.replicate 6 false ++ [true]) ++ (digits ++ []) := by
    simp
  rw [hcode]
  refine (countZeros_reads (by decide)).bind_fails (hdigits.bind_fails ?_)
  rw [if_pos (by omega)]
  exact .throw _

theorem Front.Marks.readUnsigned_eq {front : Front} {mark : List Bool} (h : front.Marks mark) (position : Nat)
    (rest : List Bool) : readUnsigned ⟨position, mark ++ rest⟩ = front.answer ⟨position, mark ++ rest⟩ := by
  cases h with
  | number hne hlt =>
    rw [readUnsigned_reads hne hlt position rest, answer, BitReader.skip_append rfl]
  | zeros =>
    rw [readUnsigned_fails_zeros position rest, answer, if_pos rfl,
      BitReader.skip_append List.length_replicate]
  | @digits digits hlen hne =>
    have hlt := Bits.toNat_lt digits
    rw [hlen] at hlt
    have hmark : (List.replicate 6 false ++ true :: digits).length = 13 := by simp [hlen]
    rw [readUnsigned_fails_digits hlen hne position rest, answer, if_neg (by omega), BitReader.skip_append hmark, hmark]

theorem Front.Marks.whole {front : Front} {mark : List Bool} (h : front.Marks mark) (position : Nat) :
    Scanned.Whole (readUnsigned ⟨position, mark⟩) := by
  cases h with
  | number hne hlt => exact (readUnsigned_reads hne hlt).whole position
  | zeros => exact readUnsigned_fails_zeros.whole rfl position
  | digits hlen hne => exact (readUnsigned_fails_digits hlen hne).whole rfl position

/-- The reader gives what the front says. -/
theorem Front.Begins.readUnsigned_eq {front : Front} {r : BitReader} (h : front.Begins r.unread) :
    readUnsigned r = front.answer r := by
  obtain ⟨position, unread⟩ := r
  cases h with
  | whole hmark rest => exact hmark.readUnsigned_eq position rest
  | part hmark hmore =>
    obtain ⟨e, rest, hread, he, -⟩ :=
      readUnsigned_stable.runs_out (r := ⟨position, unread⟩) (hmark.whole position) hmore
    obtain ⟨rfl, rfl⟩ := readUnsigned_exhausts.stops hread he
    exact hread

/-! #### Every front -/

theorem countZeros_rejects : ∀ limit : Nat, Scan.Rejects
    (fun e front => e = .integerOverflow 128 ∧ front = List.replicate limit false) (countZeros limit)
  | 0 => .throw ⟨rfl, rfl⟩
  | limit + 1 => readBit_rejects.bind readBit_consumes fun bit front hfront => by
    subst hfront
    split
    · exact .pure 0
    · next hbit =>
      obtain rfl : bit = false := Bool.eq_false_iff.mpr hbit
      exact ((countZeros_rejects limit).mono fun e back ⟨he, hback⟩ => ⟨he, congrArg (false :: ·) hback⟩).map

theorem readUnsigned_rejects : Scan.Rejects
    (fun e mark => ∃ digits, e = .integerOverflow digits ∧ (Front.overlong digits).Marks mark) readUnsigned := by
  refine Scan.Rejects.bind ((countZeros_rejects 7).mono fun e mark ⟨he, hmark⟩ => ⟨128, he, hmark ▸ .zeros⟩)
    (countZeros_consumes 7) fun zeros lead ⟨hzeros, hlead⟩ => ?_
  refine (readOnto_rejects zeros 1).bind (readOnto_consumes zeros 1) fun digits mid ⟨hmid, hdigits⟩ => ?_
  rw [Bits.foldl_eq, Nat.one_mul, hmid] at hdigits
  split
  · next hlong =>
    have hlt := Bits.toNat_lt mid
    rw [hmid] at hlt
    -- With fewer zeros than six the digits of a word are enough.
    have hsix : zeros = 6 := by
      rcases Nat.lt_or_ge zeros 6 with hfew | hmany
      · have hpow : 2 ^ zeros ≤ 2 ^ 5 := Nat.pow_le_pow_right (by decide) (by omega)
        omega
      · omega
    subst hsix hlead hdigits
    refine .throw ⟨_, rfl, ?_⟩
    have hmark := Front.Marks.digits hmid (by omega)
    simpa using hmark
  · exact readOnto_rejects _ _

/-- Unless the bits run out, the reader passes over a mark. -/
theorem Front.exists_marks (r : BitReader) :
    (∃ e rest, readUnsigned r = .error e rest ∧ e.isEndOfData = true) ∨
      ∃ front mark, Front.Marks front mark ∧ r.unread = mark ++ (Scanned.rest (readUnsigned r)).unread := by
  cases h : readUnsigned r with
  | ok n rest =>
    obtain ⟨mark, ⟨hne, hlt, rfl⟩, hunread⟩ := readUnsigned_consumes r n rest h
    exact .inr ⟨.number n, code n, .number hne hlt, hunread⟩
  | error e rest =>
    by_cases he : e.isEndOfData = true
    · exact .inl ⟨e, rest, rfl, he⟩
    · obtain ⟨mark, ⟨digits, -, hmark⟩, hunread⟩ := readUnsigned_rejects r e rest h (Bool.eq_false_iff.mpr he)
      exact .inr ⟨.overlong digits, mark, hmark, hunread⟩

/-- Whatever the bits are, they begin in one of the three ways. -/
theorem Front.exists_begins (r : BitReader) : ∃ front : Front, front.Begins r.unread := by
  rcases exists_marks r with ⟨e, rest, h, he⟩ | ⟨front, mark, hmark, hunread⟩
  · -- The bits go on to a mark, and what they lack of it is not empty.
    obtain ⟨more, hmore, hwhole⟩ := readUnsigned_exhausts.goesOn h he
    rcases exists_marks (r.extend more) with ⟨e', rest', h', he'⟩ | ⟨front, mark, hmark, hunread⟩
    · rw [h'] at hwhole
      exact absurd (he'.symm.trans hwhole.1) (by decide)
    · rw [hwhole.rest_unread, List.append_nil] at hunread
      subst hunread
      exact ⟨.broken, .part hmark hmore⟩
  · exact ⟨front, hunread ▸ .whole hmark _⟩

/-- The bits ahead of a reader of integers begin in just one of the three ways, and what it gives is what that way
    says. So it reads the codes of the positive numbers of a word and no other bits. -/
theorem readUnsigned_exact :
    (∀ r : BitReader, (∃! front : Front, front.Begins r.unread) ∧
      ∀ front : Front, front.Begins r.unread → readUnsigned r = front.answer r) ∧
    (∀ n, n ≠ 0 → n < wordCount → code? n = some (code n) ∧ Scan.Reads readUnsigned (code n) n) ∧
    ∀ r n rest, readUnsigned r = .ok n rest →
      n < wordCount ∧ code? n = some (code n) ∧ r.unread = code n ++ rest.unread := by
  refine ⟨fun r => ⟨?_, fun front h => h.readUnsigned_eq⟩, fun n hne hlt => ⟨if_neg hne, readUnsigned_reads hne hlt⟩,
    fun r n rest h => ?_⟩
  · obtain ⟨front, hfront⟩ := Front.exists_begins r
    refine ⟨front, hfront, fun other hother => Front.answer_injective r ?_⟩
    rw [← hother.readUnsigned_eq, ← hfront.readUnsigned_eq]
  · obtain ⟨mark, ⟨hne, hlt, rfl⟩, hunread⟩ := readUnsigned_consumes r n rest h
    exact ⟨hlt, if_neg hne, hunread⟩

end Elias
end DrillCode
