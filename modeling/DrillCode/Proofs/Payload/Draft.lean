import DrillCode.Payload.Authoring
import DrillCode.Payload.Decode
import DrillCode.Proofs.Bits.Packing
import DrillCode.Proofs.Payload.Exercise
import DrillCode.Proofs.Payload.Header

/-! # Payloads as they are written

A payload is written from a number that fills the bits before the header, the entries of the header, the
solutions and the exercises. However far its bits reach, once they hold the header they are read as the
whole header with the solutions and exercises that end before the bits break off. -/

namespace DrillCode

namespace Part

theorem writeAll_eq : ∀ {parts : List Part}, (∀ part ∈ parts, part.hasCode = true) →
    writeAll parts = .ok (parts.map bits)
  | [], _ => rfl
  | part :: parts, h => by
    have hparts := writeAll_eq fun p hp => h p (List.mem_cons_of_mem part hp)
    have hpart : write part = .ok part.bits := if_pos (h part List.mem_cons_self)
    rw [writeAll] at hparts ⊢
    rw [List.mapM_cons, hpart, hparts]
    rfl

end Part

/-- What a payload is written from. -/
structure Draft where
  /-- The number that fills the bits before the header. -/
  lead : Nat
  /-- How many bits there are before the header. -/
  offset : Nat
  entries : List HeaderEntry
  solutions : List Solution
  outlines : List Outline

namespace Draft

/-- The parts of the payload, with an end marker behind each phase. -/
def parts (d : Draft) : List Part :=
  .raw d.lead d.offset :: (d.entries.map .header ++ .endHeader :: (d.solutions.map .solution ++
    .endSolutions :: (d.outlines.map (fun o => .exercise o.question o.tokens o.tags) ++ [.endExercises])))

/-- What the payload carries. -/
def contents (d : Draft) : Contents where
  labels := HeaderEntry.labels d.entries
  generators := HeaderEntry.generators d.entries
  solutions := d.solutions
  exercises := d.outlines.map Outline.exercise

/-- Everything in the payload can be told from its code. -/
structure Readable (cap : Nat) (d : Draft) : Prop where
  entries : ∀ entry ∈ d.entries, entry.Readable
  solutions : ∀ s ∈ d.solutions, s.Readable
  outlines : ∀ o ∈ d.outlines, o.Readable cap

/-! ### Where the phases lie -/

/-- The code of the header with its end marker. -/
def headerBits (d : Draft) : List Bool := d.entries.flatMap HeaderEntry.bits ++ HeaderEntry.endBits

/-- The code of the solutions with their end marker. -/
def solutionBits (d : Draft) : List Bool := d.solutions.flatMap Solution.bits ++ Solution.endBits

/-- The code of the exercises with their end marker. -/
def exerciseBits (d : Draft) : List Bool := d.outlines.flatMap Outline.bits ++ Exercise.endBits

/-- The code of the payload. -/
def bits (d : Draft) : List Bool :=
  Bits.ofNat d.offset d.lead ++ (d.headerBits ++ (d.solutionBits ++ d.exerciseBits))

/-- The number of bits up to the end of the header. -/
def headerEnd (d : Draft) : Nat := d.offset + d.headerBits.length

/-- The number of bits up to the end of the solutions. -/
def solutionsEnd (d : Draft) : Nat := d.headerEnd + d.solutionBits.length

theorem length_bits (d : Draft) : d.bits.length = d.solutionsEnd + d.exerciseBits.length := by
  simp only [bits, solutionsEnd, headerEnd, List.length_append, Bits.length_ofNat, Nat.add_assoc]

theorem headerEnd_le (d : Draft) : d.headerEnd ≤ d.bits.length := by
  rw [length_bits, solutionsEnd, Nat.add_assoc]
  exact Nat.le_add_right _ _

/-! ### Writing -/

theorem flatten_parts (d : Draft) : (d.parts.map Part.bits).flatten = d.bits := by
  have hmap : ∀ {α : Type} (f : α → Part) (items : List α),
      ((items.map f).map Part.bits).flatten = items.flatMap (Part.bits ∘ f) := fun f items => by
    rw [List.map_map, List.flatMap_def]
  simp only [parts, List.map_cons, List.map_append, List.flatten_cons, List.flatten_append, hmap, List.map_nil,
    List.flatten_nil, List.append_nil]
  simp only [bits, headerBits, solutionBits, exerciseBits, List.append_assoc]
  rfl

theorem Readable.hasCode {cap : Nat} {d : Draft} (h : d.Readable cap) : ∀ part ∈ d.parts, part.hasCode = true := by
  intro part hpart
  simp only [parts, List.mem_cons, List.mem_append, List.mem_map, List.not_mem_nil, or_false] at hpart
  rcases hpart with rfl | ⟨_, _, rfl⟩ | rfl | ⟨_, _, rfl⟩ | rfl | ⟨o, ho, rfl⟩ | rfl
  case inr.inr.inr.inr.inr.inl =>
    exact List.all_eq_true.mpr fun token htoken => ((h.outlines o ho).tokens token htoken).hasCode
  all_goals rfl

theorem Readable.written {cap : Nat} {d : Draft} (h : d.Readable cap) :
    ∃ codes, Part.writeAll d.parts = .ok codes ∧ codes.flatten = d.bits :=
  ⟨_, Part.writeAll_eq h.hasCode, d.flatten_parts⟩

/-! ### Reading, wherever the bits break off -/

/-- What is left of the contents where the payload breaks off behind the given number of bits. -/
def contentsWithin (d : Draft) (limit : Nat) : Contents where
  labels := d.contents.labels
  generators := d.contents.generators
  solutions := Bits.fitting Solution.bits limit d.headerEnd d.solutions
  exercises := (Bits.fitting Outline.bits limit d.solutionsEnd d.outlines).map Outline.exercise

theorem contentsWithin_of_le {d : Draft} {limit : Nat} (h : d.bits.length ≤ limit) :
    d.contentsWithin limit = d.contents := by
  rw [length_bits] at h
  have hsolutions : d.headerEnd + (d.solutions.flatMap Solution.bits).length ≤ limit := by
    simp only [solutionsEnd, solutionBits, List.length_append] at h
    omega
  have houtlines : d.solutionsEnd + (d.outlines.flatMap Outline.bits).length ≤ limit := by
    simp only [exerciseBits, List.length_append] at h
    omega
  rw [contentsWithin, Bits.fitting_of_le hsolutions, Bits.fitting_of_le houtlines]
  rfl

theorem read_cut {cap : Nat} {d : Draft} (h : d.Readable cap) {unread lost tail : List Bool}
    (hbits : unread ++ lost = d.headerBits ++ (d.solutionBits ++ (d.exerciseBits ++ tail)))
    (hheader : d.headerBits.length ≤ unread.length) :
    Contents.read cap ⟨d.offset, unread⟩ = .ok (d.contentsWithin (d.offset + unread.length)) := by
  rcases Bits.cut_cases hbits with ⟨more, rfl, hmore⟩ | ⟨more, hcode, hne⟩
  · have hread := HeaderEntry.readAll_reads h.entries d.offset more
    have hlimit : d.offset + (d.headerBits ++ more).length = d.headerEnd + more.length := by
      rw [List.length_append, ← Nat.add_assoc]
      rfl
    rw [solutionBits, List.append_assoc] at hmore
    obtain ⟨hsolutions, hrest⟩ := SolutionPhase.read_cut d.headerEnd h.solutions hmore
    have hexercises : Attempt.exercises cap (SolutionPhase.read ⟨d.headerEnd, more⟩).rest =
        (Bits.fitting Outline.bits (d.headerEnd + more.length) d.solutionsEnd d.outlines).map Outline.exercise := by
      rcases hrest with ⟨rest, rfl, hrest⟩ | ⟨hspent, hlt⟩
      · have hout : rest ++ lost = d.outlines.flatMap Outline.bits ++ (Exercise.endBits ++ tail) := by
          simp only [List.append_assoc, List.append_cancel_left_eq] at hmore
          rw [hmore, exerciseBits, List.append_assoc]
        have hlen : d.headerEnd + (d.solutions.flatMap Solution.bits ++ Solution.endBits ++ rest).length =
            d.solutionsEnd + rest.length := by
          rw [List.length_append, ← Nat.add_assoc]
          rfl
        rw [hrest, Attempt.exercises_cut h.outlines hout, hlen]
        rfl
      · rw [Attempt.exercises_of_spent hspent, Bits.fitting_of_lt]
        · rfl
        · exact Nat.add_lt_add_left hlt d.headerEnd
    rw [hlimit, Contents.read, headerBits, hread]
    show Except.ok (Contents.mk _ _ (SolutionPhase.read ⟨d.headerEnd, more⟩).solutions
      (Attempt.exercises cap (SolutionPhase.read ⟨d.headerEnd, more⟩).rest)) = _
    rw [hsolutions, hexercises]
    rfl
  · exact absurd hheader (Nat.not_le.mpr (Bits.length_lt_of_cut hcode hne))

theorem ofBytes_offset (d : Draft) {bytes : List UInt8} {unread : List Bool}
    (h : Bits.ofBytes bytes = Bits.ofNat d.offset d.lead ++ unread) :
    BitReader.ofBytes bytes d.offset = ⟨d.offset, unread⟩ := by
  have hlead : (Bits.ofNat d.offset d.lead).length = d.offset := Bits.length_ofNat _ _
  have hmin : min d.offset (Bits.ofBytes bytes).length = d.offset := by
    rw [h, List.length_append, hlead]
    exact Nat.min_eq_left (Nat.le_add_right _ _)
  rw [BitReader.ofBytes, BitReader.skip, hmin, h, List.drop_left' hlead, Nat.zero_add]

/-- The first bytes of a payload that hold its header are read. -/
theorem decode_cut {cap : Nat} {d : Draft} (h : d.Readable cap) {bytes : List UInt8} {lost tail : List Bool}
    (hbits : Bits.ofBytes bytes ++ lost = d.bits ++ tail) (hheader : d.headerEnd ≤ 8 * bytes.length) :
    Contents.decode ⟨d.offset, cap⟩ bytes = .ok (d.contentsWithin (8 * bytes.length)) := by
  have hlen := Bits.length_ofBytes bytes
  have hlead : (Bits.ofNat d.offset d.lead).length = d.offset := Bits.length_ofNat _ _
  rw [bits, List.append_assoc, List.append_assoc, List.append_assoc] at hbits
  rw [headerEnd] at hheader
  rcases Bits.cut_cases hbits with ⟨unread, hunread, hmore⟩ | ⟨more, hcode, hne⟩
  · rw [hunread, List.length_append, hlead] at hlen
    rw [Contents.decode, d.ofBytes_offset hunread, read_cut h hmore (by omega), hlen]
  · have hlt := Bits.length_lt_of_cut hcode hne
    omega

theorem decode_whole {cap : Nat} {d : Draft} (h : d.Readable cap) {bytes : List UInt8} {tail : List Bool}
    (hbits : Bits.ofBytes bytes = d.bits ++ tail) : Contents.decode ⟨d.offset, cap⟩ bytes = .ok d.contents := by
  have hlen : d.bits.length ≤ 8 * bytes.length := by
    rw [← Bits.length_ofBytes, hbits, List.length_append]
    exact Nat.le_add_right _ _
  have hcut : Bits.ofBytes bytes ++ [] = d.bits ++ tail := by
    rw [List.append_nil, hbits]
  rw [decode_cut h hcut (Nat.le_trans d.headerEnd_le hlen), contentsWithin_of_le hlen]

end Draft
end DrillCode
