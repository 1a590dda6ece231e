import DrillCode.Proofs.Bits.Consumes
import DrillCode.Proofs.Payload.Placeless
import DrillCode.Proofs.Payload.Truncation

/-! # What keeps a payload from being read

Whatever was read as a header is a code of the entries that came out. So a payload is read if and only if its bits
behind the offset begin with a header, with that header's labels and generators, and nothing behind the header can
change this. Where they do not, the bits ran out at the end of the last byte or the header is damaged in one of a few
ways. -/

namespace DrillCode

/-! ### Texts -/

namespace TextField

theorem readUnits_consumes (width : Nat) :
    Scan.Consumes (fun units code => Units width units ∧ code = unitBits width units) (readUnits width) := by
  intro r units r' hread
  fun_induction readUnits width r generalizing units r' with
  | case1 r e rest h => cases hread
  | case2 r rest h =>
    cases hread
    obtain ⟨code, ⟨-, rfl⟩, hunread⟩ := readBits_consumes width r _ _ h
    exact ⟨_, ⟨List.forall_mem_nil _, rfl⟩, hunread⟩
  | case3 r unit rest h hne units rest' hrec ih =>
    cases hread
    obtain ⟨code, ⟨hlt, rfl⟩, hunread⟩ := readBits_consumes width r _ _ h
    obtain ⟨more, ⟨hunits, rfl⟩, hmore⟩ := ih _ _ hrec
    refine ⟨_, ⟨List.forall_mem_cons.mpr ⟨⟨hlt, hne⟩, hunits⟩, rfl⟩, ?_⟩
    rw [hunread, hmore, unitBits, unitBits, List.flatMap_cons, List.append_assoc, List.append_assoc,
      List.append_assoc]
  | case4 r unit rest h hne e rest' hrec ih => cases hread

theorem readText_consumes : Scan.Consumes Codes readText := (readBits_consumes 2).bind fun selector front hfront => by
  obtain ⟨-, rfl⟩ := hfront
  split
  · exact (readUnits_consumes 7).map fun units code ⟨hunits, hcode⟩ => hcode ▸ .ascii hunits
  · exact (readUnits_consumes 8).map fun units code ⟨hunits, hcode⟩ => hcode ▸ .utf8 hunits
  · exact .throw _

end TextField

/-! ### Headers -/

theorem Tag.labelCode_ofLabelCode {number : Nat} (h : number < 4) : (ofLabelCode number).labelCode = number := by
  have hcases : number = 0 ∨ number = 1 ∨ number = 2 ∨ number = 3 := by omega
  rcases hcases with rfl | rfl | rfl | rfl <;> rfl

namespace HeaderEntry

theorem readLabel_consumes : Scan.Consumes (fun entry code => entry.Codes (Bits.ofNat 2 1 ++ code)) readLabel :=
  (readBits_consumes 2).bind fun number front ⟨hlt, hfront⟩ =>
    TextField.readText_consumes.bind fun text code htext => .pure <| by
      have hentry := Codes.label (Tag.ofLabelCode number) htext
      rw [Tag.labelCode_ofLabelCode hlt] at hentry
      rwa [hfront, List.append_nil]

theorem readOther_consumes : Scan.Consumes (fun entry code => entry.Codes (Bits.ofNat 2 2 ++ code)) readOther :=
  (readBits_consumes 4).bind fun kind front ⟨hlt, hfront⟩ => by
    subst hfront
    split
    · next hkind =>
      subst hkind
      refine TextField.readText_consumes.bind fun name code hname => ?_
      refine Elias.readSigned_consumes.bind fun min lowBits hlow => ?_
      refine Elias.readSigned_consumes.bind fun max highBits hhigh => .pure ?_
      obtain ⟨low, rfl, rfl⟩ := hlow
      obtain ⟨high, rfl, rfl⟩ := hhigh
      rw [Int64.ofInt_toInt, Int64.ofInt_toInt, List.append_nil]
      exact .generator hname ⟨low, high⟩
    · next hkind =>
      refine .pure ?_
      rw [List.append_nil]
      exact .reserved (Nat.pos_of_ne_zero hkind) hlt

/-- What was found is the end marker or has the bits that were passed over as a code. -/
theorem read_consumes : Scan.Consumes
    (fun found code => code = endBits ∧ found = none ∨ ∃ entry, found = some entry ∧ entry.Codes code) read :=
  (readBits_consumes 2).bind fun marker front ⟨hlt, hfront⟩ => by
    subst hfront
    split
    · exact .pure (.inl ⟨rfl, rfl⟩)
    · exact readLabel_consumes.map fun entry code hcode => .inr ⟨entry, rfl, hcode⟩
    · exact readOther_consumes.map fun entry code hcode => .inr ⟨entry, rfl, hcode⟩
    · exact .throw _

theorem readAll_consumes : Scan.Consumes HeaderCodes readAll := by
  intro r entries r' hread
  fun_induction readAll r generalizing entries r' with
  | case1 r e rest h => cases hread
  | case2 r rest h =>
    cases hread
    obtain ⟨code, ⟨rfl, -⟩ | ⟨_, hfound, -⟩, hunread⟩ := read_consumes r _ _ h
    · exact ⟨_, .nil, hunread⟩
    · cases hfound
  | case3 r entry rest h entries rest' hrec ih =>
    cases hread
    obtain ⟨more, hmore, hbehind⟩ := ih _ _ hrec
    obtain ⟨code, ⟨-, hfound⟩ | ⟨_, hfound, hcode⟩, hunread⟩ := read_consumes r _ _ h
    · cases hfound
    · cases hfound
      exact ⟨_, .cons hcode hmore, by rw [hunread, hbehind, List.append_assoc]⟩
  | case4 r entry rest h e rest' hrec ih => cases hread

/-- A header that cannot be read stays within the bit string. -/
theorem bitLength_of_readAll_error {r rest : BitReader} {e : DecodeError} (h : readAll r = .error e rest) :
    rest.bitLength = r.bitLength := by
  fun_induction readAll r with
  | case1 r e' rest' hread =>
    cases h
    exact (read_advances.error hread).bitLength_eq
  | case2 => cases h
  | case3 => cases h
  | case4 r entry rest' hread e' rest'' hrec ih =>
    cases h
    rw [ih hrec, (read_advances.ok hread).bitLength_eq]

end HeaderEntry

/-! ### Payloads -/

theorem BitReader.bitLength_ofBytes (bytes : List UInt8) (offset : Nat) :
    (ofBytes bytes offset).bitLength = 8 * bytes.length := by
  have hlen := Bits.length_ofBytes bytes
  simp only [ofBytes, skip, bitLength, List.length_drop]
  omega

namespace Contents

/-- The bits of the payload behind the offset begin with a header of the entries. -/
def HasHeader (settings : PayloadSettings) (bytes : List UInt8) (entries : List HeaderEntry) : Prop :=
  ∃ code rest, HeaderEntry.HeaderCodes entries code ∧
    (Bits.ofBytes bytes).drop settings.headerOffset = code ++ rest

theorem hasHeader_of_readAll {settings : PayloadSettings} {bytes : List UInt8} {entries : List HeaderEntry}
    {rest : BitReader} (h : HeaderEntry.readAll (.ofBytes bytes settings.headerOffset) = .ok entries rest) :
    HasHeader settings bytes entries := by
  obtain ⟨code, hcode, hunread⟩ := HeaderEntry.readAll_consumes _ _ _ h
  exact ⟨code, rest.unread, hcode, hunread⟩

theorem readAll_of_hasHeader {settings : PayloadSettings} {bytes : List UInt8} {entries : List HeaderEntry}
    (h : HasHeader settings bytes entries) :
    ∃ rest, HeaderEntry.readAll (.ofBytes bytes settings.headerOffset) = .ok entries rest := by
  obtain ⟨code, rest, hcode, hbits⟩ := h
  have hread := hcode.reads (BitReader.ofBytes bytes settings.headerOffset).position rest
  rw [← hbits] at hread
  exact ⟨_, hread⟩

/-- What lies behind the header has no part in whether the payload is read and with which labels and generators. -/
theorem decode_of_hasHeader {settings : PayloadSettings} {bytes : List UInt8} {entries : List HeaderEntry}
    (h : HasHeader settings bytes entries) : ∃ c, decode settings bytes = .ok c ∧
      c.labels = HeaderEntry.labels entries ∧ c.generators = HeaderEntry.generators entries := by
  obtain ⟨rest, hread⟩ := readAll_of_hasHeader h
  exact ⟨_, read_of_ok hread, rfl, rfl⟩

/-- Without a header the bits ran out at the end of the last byte, or there is damage before that. -/
theorem decode_of_not_hasHeader {settings : PayloadSettings} {bytes : List UInt8}
    (h : ∀ entries, ¬HasHeader settings bytes entries) :
    ∃ e, decode settings bytes = .error e ∧ (e = .endOfData (8 * bytes.length) ∨ HeaderEntry.Damage e) := by
  cases hread : HeaderEntry.readAll (.ofBytes bytes settings.headerOffset) with
  | ok entries rest => exact absurd (hasHeader_of_readAll hread) (h entries)
  | error e rest =>
    refine ⟨e, read_of_error hread, ?_⟩
    rcases HeaderEntry.readAll_placeless.of_error hread with hend | hdamage
    · rw [HeaderEntry.bitLength_of_readAll_error hread, BitReader.bitLength_ofBytes] at hend
      exact .inl hend
    · exact .inr hdamage

/-- A payload is read if and only if it has a header, whatever lies behind that header, and with the labels and
    generators of that header; and it fails for one of a few causes. -/
theorem decode_closed (settings : PayloadSettings) (bytes : List UInt8) :
    (∀ entries, HasHeader settings bytes entries → ∃ c, decode settings bytes = .ok c ∧
      c.labels = HeaderEntry.labels entries ∧ c.generators = HeaderEntry.generators entries) ∧
    ((∀ entries, ¬HasHeader settings bytes entries) ↔ ∃ e, decode settings bytes = .error e) ∧
    ∀ e, decode settings bytes = .error e → e = .endOfData (8 * bytes.length) ∨ HeaderEntry.Damage e := by
  have hnone : ∀ e, decode settings bytes = .error e → ∀ entries, ¬HasHeader settings bytes entries :=
    fun e he entries h => by
      obtain ⟨c, hc, -⟩ := decode_of_hasHeader h
      rw [he] at hc
      cases hc
  refine ⟨fun _ => decode_of_hasHeader, ⟨fun h => ?_, fun ⟨e, he⟩ => hnone e he⟩, fun e he => ?_⟩
  · obtain ⟨e, he, -⟩ := decode_of_not_hasHeader h
    exact ⟨e, he⟩
  · obtain ⟨e', he', hcause⟩ := decode_of_not_hasHeader (hnone e he)
    rw [he] at he'
    cases he'
    exact hcause

/-- A label in the longer of the two forms, and bits behind the header that belong to nothing. -/
theorem decode_closed_sample : HasHeader ⟨0, 500⟩ [0x55, 0x84, 0x0C, 0xFF] [.label .plus "a"] ∧
    ∃ c, decode ⟨0, 500⟩ [0x55, 0x84, 0x0C, 0xFF] = .ok c ∧ c.labels = HeaderEntry.labels [.label .plus "a"] := by
  have hunbroken : TextField.Unbroken "a" := by
    simp [TextField.Unbroken, TextField.terminator]
  have hheader : HasHeader ⟨0, 500⟩ [0x55, 0x84, 0x0C, 0xFF] [.label .plus "a"] :=
    ⟨_, List.replicate 8 true, .cons (.label .plus (TextField.codes_utf8Bits hunbroken)) .nil, rfl⟩
  obtain ⟨c, hc, hlabels, -⟩ := (decode_closed ⟨0, 500⟩ [0x55, 0x84, 0x0C, 0xFF]).1 _ hheader
  exact ⟨hheader, c, hc, hlabels⟩

end Contents
end DrillCode
