import DrillCode.Proofs.OrderedMap
import DrillCode.Proofs.Payload.Charge

/-! # Every entry is paid for

No entry of a payload is shorter than its shortest code, and no bit counts for two entries: the phases read one after
the other, and passing over a bit behind damage moves on as well. So the bits behind the start of the header bound how
much a payload can carry, and a payload of fewer bytes than the least that is taken carries nothing. -/

namespace DrillCode

open Scan (Covers)

/-! ### The header -/

namespace HeaderEntry

/-- The bits of the shortest code of an entry of this form, its marker among them. -/
def leastBits : HeaderEntry → Nat
  | label _ _ => 13
  | generator _ _ => 17
  | reserved _ => 6

theorem readLabel_covers : Covers 1 (fun entry => leastBits entry - 2) readLabel :=
  ((readBits_advances 2).covers 1).bind fun _ => (TextField.readText_advances.covers 1).bind fun _ =>
    .pure (Nat.le_refl 0)

/-- The marker and the number of the kind lie before. -/
theorem readGenerator_covers : Covers 1 (fun entry => leastBits entry - 6) readGenerator :=
  (TextField.readText_advances.covers 1).bind fun _ => (Elias.readSigned_advances.covers 1).bind fun _ =>
    (Elias.readSigned_advances.covers 1).bind fun _ => .pure (Nat.le_refl 0)

theorem readOther_covers : Covers 1 (fun entry => leastBits entry - 2) readOther := by
  refine ((readBits_advances 4).covers 1).bind fun kind => ?_
  split
  · exact readGenerator_covers.mono fun entry => by omega
  · exact .pure (Nat.le_refl 0)

theorem read_covers : Covers 1 (fun found : Option HeaderEntry => found.elim 2 leastBits) read := by
  refine ((readBits_advances 2).covers 1).bind fun marker => ?_
  split
  · exact .pure (Nat.le_refl 0)
  · exact readLabel_covers.map fun entry => Nat.le_refl _
  · exact readOther_covers.map fun entry => Nat.le_refl _
  · exact .throw _

/-- The end marker takes two bits more. -/
theorem readAll_covers : Covers 1 (fun entries => (entries.map leastBits).sum + 2) readAll := by
  intro r entries rest h
  fun_induction readAll r generalizing entries with
  | case1 r e rest' hread => cases h
  | case2 r rest' hread =>
    cases h
    exact read_covers r none _ hread
  | case3 r entry rest₁ hread entries' rest' hrest ih =>
    cases h
    obtain ⟨m, hfront, hm⟩ := read_covers r (some entry) rest₁ hread
    obtain ⟨n, hback, hn⟩ := ih _ hrest
    refine ⟨m + n, hfront.trans hback, ?_⟩
    dsimp only [Option.elim_some] at hm hn ⊢
    rw [List.map_cons, List.sum_cons]
    omega
  | case4 r entry rest₁ hread e rest' hrest ih => cases h

theorem length_filterMap_le (entries : List HeaderEntry) :
    13 * (entries.filterMap label?).length + 17 * (entries.filterMap generator?).length ≤
      (entries.map leastBits).sum := by
  induction entries with
  | nil => exact Nat.le_refl 0
  | cons entry entries ih =>
    cases entry <;>
      simp only [List.filterMap_cons, label?, generator?, List.length_cons, List.map_cons, List.sum_cons,
        leastBits] <;> omega

/-- Labels and generators that are replaced are paid for as well. -/
theorem size_labels_generators_le (entries : List HeaderEntry) :
    13 * (labels entries).size + 17 * (generators entries).size ≤ (entries.map leastBits).sum := by
  have hlabels : (labels entries).size ≤ _ := OrderedMap.size_ofList_le (entries.filterMap label?)
  have hgenerators : (generators entries).size ≤ _ := OrderedMap.size_ofList_le (entries.filterMap generator?)
  have hleast := length_filterMap_le entries
  omega

end HeaderEntry

/-! ### The whole payload -/

theorem BitReader.length_unread_ofBytes (bytes : List UInt8) (offset : Nat) :
    (ofBytes bytes offset).unread.length = 8 * bytes.length - min offset (8 * bytes.length) := by
  rw [ofBytes, skip, List.length_drop, Bits.length_ofBytes]
  omega

namespace Contents

/-- The end marker of the header is there, whatever the payload carries. -/
theorem length_le_of_read {cap : Nat} {r : BitReader} {c : Contents} (h : read cap r = .ok c) :
    13 * c.labels.size + 17 * c.generators.size + 2 + 27 * c.solutions.length + 10 * c.exercises.length ≤
      r.unread.length := by
  obtain ⟨entries, rest, hheader, rfl⟩ := exists_of_read h
  obtain ⟨n, hahead, hn⟩ := HeaderEntry.readAll_covers r entries rest hheader
  have hsizes := HeaderEntry.size_labels_generators_le entries
  have hheaderBits := hahead.length_le
  have hsolutionBits := (SolutionPhase.read_ahead rest).length_le
  have hexerciseBits := Attempt.length_exercises_le cap (SolutionPhase.read rest).rest
  dsimp only at hn ⊢
  omega

/-- Contents that hold something have an entry that is paid for. -/
theorem twelve_le_of_isEmpty_eq_false {c : Contents} (h : c.isEmpty = false) :
    12 ≤ 13 * c.labels.size + 17 * c.generators.size + 2 + 27 * c.solutions.length + 10 * c.exercises.length := by
  have hpos : ∀ {α : Type} {entries : List α}, entries.isEmpty = false → 0 < entries.length := fun hne =>
    List.length_pos_iff.mpr (List.isEmpty_eq_false_iff.mp hne)
  simp only [isEmpty, Bool.and_eq_false_iff] at h
  rcases h with ((hlabels | hgenerators) | hsolutions) | hexercises
  · have : 0 < c.labels.size := hpos hlabels
    omega
  · have : 0 < c.generators.size := hpos hgenerators
    omega
  · have := hpos hsolutions
    omega
  · have := hpos hexercises
    omega

theorem validate_eq_ok_iff {settings : PayloadSettings} {bytes : List UInt8} {c : Contents} :
    validate settings bytes = .ok c ↔
      minimumBytes ≤ bytes.length ∧ decode settings bytes = .ok c ∧ c.isEmpty = false := by
  constructor
  · intro h
    unfold validate at h
    split at h
    · cases h
    · next hlong =>
      split at h
      · cases h
      · next c' hdecode =>
        split at h
        · cases h
        · next hcontent =>
          cases h
          exact ⟨Nat.le_of_not_lt hlong, hdecode, Bool.eq_false_iff.mpr hcontent⟩
  · rintro ⟨hlong, hdecode, hcontent⟩
    rw [validate, if_neg (Nat.not_lt.mpr hlong), hdecode]
    exact if_neg (Bool.eq_false_iff.mp hcontent)

/-- What a payload carries is no more than its bits behind the offset pay for: 13 for a label, 17 for a generator, 27
    for a solution, 10 for an exercise and 2 for the end of the header. Where the header starts behind 13 bits or more,
    no payload that carries something is too short for `validate`. -/
theorem decode_pays (settings : PayloadSettings) (bytes : List UInt8) :
    (∀ c, decode settings bytes = .ok c →
      13 * c.labels.size + 17 * c.generators.size + 2 + 27 * c.solutions.length + 10 * c.exercises.length ≤
        8 * bytes.length - min settings.headerOffset (8 * bytes.length)) ∧
    (13 ≤ settings.headerOffset → ∀ c, validate settings bytes = .ok c ↔
      decode settings bytes = .ok c ∧ c.isEmpty = false) := by
  have hpays : ∀ c, decode settings bytes = .ok c → 13 * c.labels.size + 17 * c.generators.size + 2 +
      27 * c.solutions.length + 10 * c.exercises.length ≤
        8 * bytes.length - min settings.headerOffset (8 * bytes.length) := fun c h => by
    rw [← BitReader.length_unread_ofBytes]
    exact length_le_of_read h
  refine ⟨hpays, fun hoffset c => validate_eq_ok_iff.trans ⟨fun h => h.2, fun ⟨h, hcontent⟩ => ⟨?_, h, hcontent⟩⟩⟩
  -- An entry and the end of the header are more than three bytes hold behind the offset.
  have hleast := twelve_le_of_isEmpty_eq_false hcontent
  have hpaid := hpays c h
  unfold minimumBytes
  omega

/-- A label with an empty text, from the first bit on that the header may start at. -/
theorem decode_pays_sample :
    13 ≤ (PayloadSettings.mk 13 500).headerOffset ∧
    ∃ c, decode ⟨13, 500⟩ [0x00, 0x02, 0x80, 0xC0] = .ok c ∧
      13 * c.labels.size + 17 * c.generators.size + 2 + 27 * c.solutions.length + 10 * c.exercises.length ≤ 19 ∧
      validate ⟨13, 500⟩ [0x00, 0x02, 0x80, 0xC0] = .ok c := by
  have hreadable : (Draft.mk 0 13 [.label .plus ""] [] []).Readable 500 :=
    ⟨by rintro _ (_ | ⟨_, ⟨⟩⟩); simp [HeaderEntry.Readable, TextField.Unbroken], nofun, nofun⟩
  have hwhole : Bits.ofBytes [0x00, 0x02, 0x80, 0xC0] =
      (Draft.mk 0 13 [.label .plus ""] [] []).bits ++ List.replicate 0 false := rfl
  have hread := Draft.decode_whole hreadable hwhole
  obtain ⟨hpays, hvalidate⟩ := decode_pays ⟨13, 500⟩ [0x00, 0x02, 0x80, 0xC0]
  exact ⟨by decide, _, hread, hpays _ hread, (hvalidate (by decide) _).mpr ⟨hread, rfl⟩⟩

end Contents
end DrillCode
