import DrillCode.Proofs.OrderedMap
import DrillCode.Proofs.Payload.Draft

/-! # A payload that was written is read back

A payload gives back what it was written from, whatever bytes follow it. Its first bytes, if they hold the
header, give back the whole header and exactly the solutions and exercises whose code they hold as a whole. -/

namespace DrillCode

namespace Draft

/-! ### The whole payload -/

/-- Decoding undoes writing. Of several labels of one kind, or generators of one name, the last counts, in
    the place of the first. -/
theorem decode_payloadBytes {cap : Nat} {d : Draft} (h : d.Readable cap) (more : List UInt8) :
    ∃ codes, Part.writeAll d.parts = .ok codes ∧
      Contents.decode ⟨d.offset, cap⟩ (payloadBytes codes ++ more) = .ok d.contents ∧
      d.contents.labels.Gathers (d.entries.filterMap HeaderEntry.label?) ∧
      d.contents.generators.Gathers (d.entries.filterMap HeaderEntry.generator?) := by
  obtain ⟨codes, hcodes, hbits⟩ := h.written
  have hbytes : Bits.ofBytes (payloadBytes codes ++ more) ++ [] =
      d.bits ++ (List.replicate (Bits.padding d.bits.length) false ++ Bits.ofBytes more) := by
    rw [Bits.ofBytes_append, payloadBytes, Bits.ofBytes_toBytes, hbits, List.append_nil, List.append_assoc]
  have hlen : d.bits.length ≤ 8 * (payloadBytes codes ++ more).length := by
    rw [← Bits.length_ofBytes, ← List.append_nil (Bits.ofBytes _), hbytes, List.length_append]
    exact Nat.le_add_right _ _
  have hdecode := decode_cut h hbytes (Nat.le_trans d.headerEnd_le hlen)
  rw [contentsWithin_of_le hlen] at hdecode
  exact ⟨codes, hcodes, hdecode, OrderedMap.ofList_gathers _, OrderedMap.ofList_gathers _⟩

/-- A payload with two labels of one kind, and with a question, a variable and a number in its exercise. -/
def sample : Draft where
  lead := 5
  offset := 22
  entries := [.label .plus "add", .generator "a" ⟨-3, 9⟩, .label .plus "plus"]
  solutions := [⟨"1 + 1", "2", [.plus]⟩]
  outlines := [⟨some "Sum", [.name "a", .plus, .integer (-7)], [.plus, .star]⟩]

theorem sample_readable : sample.Readable 500 where
  entries := by simp [sample, HeaderEntry.Readable, TextField.Unbroken, TextField.terminator]
  solutions := by simp [sample, Solution.Readable, TextField.isPlain, TextField.terminator]
  outlines := by
    intro o ho
    obtain rfl := List.mem_singleton.mp ho
    refine ⟨?_, ?_, ⟨'a', ?_, ?_⟩, ?_⟩
    · simp [TextField.Unbroken, TextField.terminator]
    · simp [Token.Readable, TextField.Unbroken, TextField.terminator, wordCount]
    · simp [TokenRun.rawText, Token.text]
    · rfl
    · decide

theorem decode_payloadBytes_sample : sample.Readable 500 ∧ ∃ codes, Part.writeAll sample.parts = .ok codes ∧
    Contents.decode ⟨22, 500⟩ (payloadBytes codes ++ [7, 255]) = .ok sample.contents ∧
    sample.contents.labels.Gathers (sample.entries.filterMap HeaderEntry.label?) ∧
    sample.contents.generators.Gathers (sample.entries.filterMap HeaderEntry.generator?) :=
  ⟨sample_readable, decode_payloadBytes sample_readable [7, 255]⟩

/-! ### The first bytes of a payload -/

/-- What is cut off is lost, and nothing else is. -/
theorem decode_take_payloadBytes {cap : Nat} {d : Draft} (h : d.Readable cap) {n : Nat} (hn : d.headerEnd ≤ 8 * n) :
    ∃ codes, Part.writeAll d.parts = .ok codes ∧
      Contents.decode ⟨d.offset, cap⟩ ((payloadBytes codes).take n) = .ok (d.contentsWithin (8 * n)) := by
  obtain ⟨codes, hcodes, hbits⟩ := h.written
  refine ⟨codes, hcodes, ?_⟩
  have hbytes : Bits.ofBytes (payloadBytes codes) =
      d.bits ++ List.replicate (Bits.padding d.bits.length) false := by
    rw [payloadBytes, Bits.ofBytes_toBytes, hbits]
  have hlen : d.bits.length ≤ 8 * (payloadBytes codes).length := by
    rw [← Bits.length_ofBytes, hbytes, List.length_append]
    exact Nat.le_add_right _ _
  rcases Nat.le_total n (payloadBytes codes).length with hle | hge
  · have hcut : Bits.ofBytes ((payloadBytes codes).take n) ++ (Bits.ofBytes (payloadBytes codes)).drop (8 * n) =
        d.bits ++ List.replicate (Bits.padding d.bits.length) false := by
      rw [Bits.ofBytes_take, List.take_append_drop, hbytes]
    have htake : ((payloadBytes codes).take n).length = n := List.length_take_of_le hle
    rw [decode_cut h hcut (by rw [htake]; exact hn), htake]
  · -- No byte is missing.
    have hwhole : Bits.ofBytes (payloadBytes codes) ++ [] =
        d.bits ++ List.replicate (Bits.padding d.bits.length) false := by
      rw [List.append_nil, hbytes]
    rw [List.take_of_length_le hge, decode_cut h hwhole (Nat.le_trans d.headerEnd_le hlen), contentsWithin_of_le hlen,
      contentsWithin_of_le (Nat.le_trans hlen (Nat.mul_le_mul_left 8 hge))]

theorem decode_take_payloadBytes_sample : sample.Readable 500 ∧ sample.headerEnd ≤ 8 * 30 ∧
    ∃ codes, Part.writeAll sample.parts = .ok codes ∧
      Contents.decode ⟨22, 500⟩ ((payloadBytes codes).take 30) = .ok (sample.contentsWithin (8 * 30)) :=
  ⟨sample_readable, by decide, decode_take_payloadBytes sample_readable (by decide)⟩

end Draft
end DrillCode
