import DrillCode.Proofs.Payload.Draft

/-! # Bytes that are cut off

Whatever the bytes are, cutting some off only takes entries away from the end of the solutions and of the
exercises. The two readings agree up to the place where the shorter one runs out of bits, and from there on
the shorter one finds nothing. A header is read in full or not at all. -/

namespace DrillCode.Contents

/-- The same header, and solutions and exercises that go on. -/
structure Continues (c more : Contents) : Prop where
  labels : more.labels = c.labels
  generators : more.generators = c.generators
  solutions : c.solutions <+: more.solutions
  exercises : c.exercises <+: more.exercises

/-! ### From the start of the header on -/

theorem read_of_ok {cap : Nat} {r rest : BitReader} {entries : List HeaderEntry}
    (h : HeaderEntry.readAll r = .ok entries rest) :
    read cap r = .ok ⟨HeaderEntry.labels entries, HeaderEntry.generators entries,
      (SolutionPhase.read rest).solutions, Attempt.exercises cap (SolutionPhase.read rest).rest⟩ := by
  rw [read, h]

theorem read_of_error {cap : Nat} {r rest : BitReader} {e : DecodeError}
    (h : HeaderEntry.readAll r = .error e rest) : read cap r = .error e := by
  rw [read, h]

/-- What is read has a header that was read, and the phases behind it. -/
theorem exists_of_read {cap : Nat} {r : BitReader} {c : Contents} (h : read cap r = .ok c) :
    ∃ entries rest, HeaderEntry.readAll r = .ok entries rest ∧
      c = ⟨HeaderEntry.labels entries, HeaderEntry.generators entries,
        (SolutionPhase.read rest).solutions, Attempt.exercises cap (SolutionPhase.read rest).rest⟩ := by
  cases hheader : HeaderEntry.readAll r with
  | error e rest =>
    rw [read_of_error hheader] at h
    cases h
  | ok entries rest =>
    rw [read_of_ok hheader] at h
    exact ⟨entries, rest, rfl, (Except.ok.inj h).symm⟩

theorem read_extend_ok {cap : Nat} {r : BitReader} {c : Contents} (h : read cap r = .ok c) (more : List Bool) :
    ∃ c', read cap (r.extend more) = .ok c' ∧ c.Continues c' := by
  obtain ⟨entries, rest, hheader, rfl⟩ := exists_of_read h
  refine ⟨_, read_of_ok ((HeaderEntry.readAll_stable r).ok hheader more), rfl, rfl, ?_, ?_⟩
  · rcases SolutionPhase.read_extend rest more with hsame | ⟨-, hprefix⟩
    · exact ⟨[], by rw [hsame, List.append_nil]⟩
    · exact hprefix
  · rcases SolutionPhase.read_extend rest more with hsame | ⟨hspent, -⟩
    · rw [hsame]
      exact Attempt.exercises_extend cap _ more
    · show Attempt.exercises cap (SolutionPhase.read rest).rest <+: _
      rw [Attempt.exercises_of_spent hspent]
      exact List.nil_prefix

theorem read_extend_error {cap : Nat} {r : BitReader} {e : DecodeError} (h : read cap r = .error e)
    (he : e.isEndOfData = false) (more : List Bool) : read cap (r.extend more) = .error e := by
  cases hheader : HeaderEntry.readAll r with
  | error e' rest =>
    rw [read_of_error hheader] at h
    obtain rfl := Except.error.inj h
    exact read_of_error ((HeaderEntry.readAll_stable r).error hheader he more)
  | ok entries rest =>
    rw [read_of_ok hheader] at h
    cases h

/-! ### From the first byte on -/

/-- The header lies where it lay, or the bytes are too few to reach it. -/
theorem ofBytes_append (bytes more : List UInt8) (offset : Nat) :
    BitReader.ofBytes (bytes ++ more) offset = (BitReader.ofBytes bytes offset).extend (Bits.ofBytes more) ∨
      (BitReader.ofBytes bytes offset).unread = [] := by
  rcases Nat.le_total offset (Bits.ofBytes bytes).length with hle | hge
  · refine .inl ?_
    have hmin : min offset (Bits.ofBytes bytes ++ Bits.ofBytes more).length =
        min offset (Bits.ofBytes bytes).length := by
      rw [List.length_append]
      omega
    simp only [BitReader.ofBytes, BitReader.skip, BitReader.extend, Bits.ofBytes_append, hmin,
      List.drop_append_of_le_length hle]
  · exact .inr (List.drop_eq_nil_of_le hge)

theorem read_of_nil (cap : Nat) {r : BitReader} (h : r.unread = []) :
    read cap r = .error (.endOfData r.position) := by
  obtain ⟨position, unread⟩ := r
  obtain rfl : unread = [] := h
  have hheader : HeaderEntry.readAll ⟨position, []⟩ = .error (.endOfData position) ⟨position, []⟩ := by
    rw [HeaderEntry.readAll_eq]
    rfl
  exact read_of_error hheader

/-- Decoding more of the same bytes finds the same header and goes on with the same solutions and exercises.
    An error other than running out of bits stays. -/
theorem decode_prefix_continues (settings : PayloadSettings) {bytes long : List UInt8} (h : bytes <+: long) :
    (∀ c, decode settings bytes = .ok c → ∃ c', decode settings long = .ok c' ∧ c.Continues c') ∧
      (∀ e, decode settings bytes = .error e → e.isEndOfData = false → decode settings long = .error e) := by
  obtain ⟨more, rfl⟩ := h
  rcases ofBytes_append bytes more settings.headerOffset with hsame | hnil
  · rw [decode, decode, hsame]
    exact ⟨fun c hc => read_extend_ok hc _, fun e he hend => read_extend_error he hend _⟩
  · have hdecode := read_of_nil settings.expressionCap hnil
    refine ⟨fun c hc => ?_, fun e he hend => ?_⟩
    · rw [decode, hdecode] at hc
      cases hc
    · rw [decode, hdecode] at he
      obtain rfl := Except.error.inj he
      cases hend

/-- A label, a generator, two solutions and two exercises. -/
def worksheet : List UInt8 :=
  [0x00, 0x00, 0x01, 0x4C, 0x39, 0x32, 0x03, 0x80, 0xC2, 0x0E,
    0x92, 0x90, 0x83, 0x15, 0x6C, 0x41, 0x83, 0x20, 0x68, 0x20,
    0xC9, 0x5B, 0x20, 0x60, 0xD0, 0x1A, 0x02, 0x06, 0x10, 0x70,
    0x47, 0x90, 0x63, 0xF0, 0x64, 0x25, 0x03, 0x08, 0x3E, 0x60]

/-- What is left of it where it is cut inside the second solution. -/
def worksheetStart : Contents where
  labels := .ofList [(.plus, "add")]
  generators := .ofList [("a", ⟨1, 9⟩)]
  solutions := [⟨"1+1", "2", [.plus]⟩]
  exercises := []

/-- What is left of it where it is cut inside the second exercise. -/
def worksheetMost : Contents where
  labels := .ofList [(.plus, "add")]
  generators := .ofList [("a", ⟨1, 9⟩)]
  solutions := [⟨"1+1", "2", [.plus]⟩, ⟨"2+2", "4", [.plus]⟩]
  exercises := [⟨"a + 1", [.plus]⟩]

/-- A payload that is cut inside its second solution and inside its second exercise, and a marker that no entry has. -/
theorem decode_prefix_continues_sample :
    (decode .standard (worksheet.take 23) = .ok worksheetStart ∧
      ∃ c, decode .standard (worksheet.take 36) = .ok c ∧ worksheetStart.Continues c) ∧
    (decode .standard (worksheet.take 36) = .ok worksheetMost ∧
      ∃ c, decode .standard worksheet = .ok c ∧ worksheetMost.Continues c) ∧
    decode .standard [0, 0, 3] = .error (.malformedHeader 3) ∧
      decode .standard [0, 0, 3, 255] = .error (.malformedHeader 3) := by
  have hstart : decode .standard (worksheet.take 23) = .ok worksheetStart := by decide +kernel
  have hmost : decode .standard (worksheet.take 36) = .ok worksheetMost := by decide +kernel
  have hmalformed : decode .standard [0, 0, 3] = .error (.malformedHeader 3) := by decide +kernel
  exact ⟨⟨hstart, (decode_prefix_continues .standard (List.take_prefix_take_left (by decide))).1 _ hstart⟩,
    ⟨hmost, (decode_prefix_continues .standard (List.take_prefix 36 worksheet)).1 _ hmost⟩,
    hmalformed, (decode_prefix_continues .standard ⟨[255], rfl⟩).2 _ hmalformed rfl⟩

end DrillCode.Contents
