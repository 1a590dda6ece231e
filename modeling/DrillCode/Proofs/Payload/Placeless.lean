import DrillCode.Proofs.Bits.Cursor
import DrillCode.Proofs.Bits.Placeless
import DrillCode.Proofs.Payload.Draft

/-! # Payloads are read for the bits ahead alone

What is read of a payload depends on the bits from the start of its header on and on nothing else: not on the bits
before, nor on how the bits lie in bytes; the checks whether bits are left, which look at a byte, make no difference.
Readings of the same bits give the same contents, or fail for the same reason up to the position at which the bits ran
out. -/

namespace DrillCode

variable {E : DecodeError → Prop}

/-! ### Texts, tags and headers -/

namespace TextField

theorem readUnits_placeless {width : Nat} (hwidth : 1 ≤ width ∧ width ≤ 32) :
    Scan.Placeless E (readUnits width) := .of_shorter fun r ih => by
  rw [readUnits_eq]
  refine (readBits_placeless hwidth r).bind fun unit rest hr => ?_
  split
  · exact .pure []
  · exact (ih rest (((readBits_advances_one width).ok hr).length_lt Nat.one_pos)).map _

theorem readAscii_placeless : Scan.Placeless E readAscii := (readUnits_placeless (by decide)).map _

theorem readUtf8_placeless : Scan.Placeless E readUtf8 := (readUnits_placeless (by decide)).map _

/-- A text fails for a selector that no encoding has. -/
theorem readText_placeless (hE : ∀ selector, selector = 2 ∨ selector = 3 → E (.malformedEncoding selector)) :
    Scan.Placeless E readText :=
  (readBits_placeless (by decide)).bind_yields (readBits_yields 2) fun selector hselector => by
    split
    · exact readAscii_placeless
    · exact readUtf8_placeless
    · next h0 h1 =>
      have hne : selector ≠ 0 ∧ selector ≠ 1 := ⟨h0, h1⟩
      exact .throw (hE selector (by omega))

end TextField

theorem TagList.read_placeless : Scan.Placeless E TagList.read := .of_shorter fun r ih => by
  rw [TagList.read_eq]
  have hnumber : Scan.Placeless E (peekBits 3 >>= fun _ => readBits 3) :=
    (peekBits_placeless (by decide)).bind fun _ => readBits_placeless (by decide)
  have hadvances : Scan.Advances 3 (peekBits 3 >>= fun _ => readBits 3) :=
    (peekBits_advances 3).bind fun _ => readBits_advances 3
  refine (hnumber r).bind fun number rest hr => ?_
  split
  · exact .pure []
  · exact (ih rest ((hadvances.ok hr).length_lt (by decide))).map _

namespace HeaderEntry

/-- The causes for which a header cannot be read, besides bits that run out. -/
inductive Damage : DecodeError → Prop
  | marker : Damage (.malformedHeader 3)
  | encoding {selector : Nat} (h : selector = 2 ∨ selector = 3) : Damage (.malformedEncoding selector)
  | integer {digits : Nat} (hlow : 65 ≤ digits) (hhigh : digits ≤ 128) : Damage (.integerOverflow digits)

theorem readLabel_placeless : Scan.Placeless Damage readLabel :=
  (readBits_placeless (by decide)).bind fun _ =>
    (TextField.readText_placeless fun _ => .encoding).bind fun _ => .pure _

theorem readGenerator_placeless : Scan.Placeless Damage readGenerator :=
  (TextField.readText_placeless fun _ => .encoding).bind fun _ =>
    (Elias.readSigned_placeless fun _ => .integer).bind fun _ =>
      (Elias.readSigned_placeless fun _ => .integer).bind fun _ => .pure _

theorem readOther_placeless : Scan.Placeless Damage readOther := (readBits_placeless (by decide)).bind fun kind => by
  split
  · exact readGenerator_placeless
  · exact .pure _

theorem read_placeless : Scan.Placeless Damage read :=
  (readBits_placeless (by decide)).bind_yields (readBits_yields 2) fun marker hmarker => by
    split
    · exact .pure _
    · exact readLabel_placeless.map _
    · exact readOther_placeless.map _
    · next h0 h1 h2 =>
      have hne : marker ≠ 0 ∧ marker ≠ 1 ∧ marker ≠ 2 := ⟨h0, h1, h2⟩
      obtain rfl : marker = 3 := by omega
      exact .throw .marker

theorem readAll_placeless : Scan.Placeless Damage readAll := .of_shorter fun r ih => by
  rw [readAll_eq]
  refine (read_placeless r).bind fun found rest hr => ?_
  cases found with
  | none => exact .pure []
  | some entry => exact (ih rest ((read_advances.ok hr).length_lt (by decide))).map _

end HeaderEntry

/-! ### Solutions -/

theorem Solution.read_placeless : Scan.Placeless E Solution.read := Solution.read_eq ▸
  (skipBits_placeless 6).bind fun _ => TextField.readAscii_placeless.bind fun _ =>
    (skipBits_placeless 4).bind fun _ => TextField.readAscii_placeless.bind fun _ =>
      TagList.read_placeless.bind fun _ => .pure _

namespace SolutionPhase

/-- Both phases found the same and stopped in front of the same bits. -/
structure Alike (phase phase' : SolutionPhase) : Prop where
  solutions : phase'.solutions = phase.solutions
  rest : phase'.rest.unread = phase.rest.unread

theorem readEntries_alike {r r' : BitReader} (hr : r'.unread = r.unread) :
    (readEntries r).Alike (readEntries r') := by
  fun_induction readEntries r generalizing r' with simp only [BitReader.isAt_eq] at *
  | case1 r hnext e rest hread =>
    rw [← nextIs_congr (by decide) hr] at hnext
    obtain ⟨e', rest', hread', -, hrest⟩ := (Solution.read_placeless (E := fun _ => True)).error_of_error hr hread
    rw [readEntries_of_error hnext hread']
    exact ⟨rfl, hrest⟩
  | case2 r hnext solution rest hread phase =>
    rename_i ih
    rw [← nextIs_congr (by decide) hr] at hnext
    obtain ⟨rest', hread', hrest⟩ := (Solution.read_placeless (E := fun _ => True)).ok_of_ok hr hread
    obtain ⟨hsolutions, hbehind⟩ := ih hrest
    rw [readEntries_of_ok hnext hread']
    exact ⟨congrArg (solution :: ·) hsolutions, hbehind⟩
  | case3 r hnext =>
    rw [Bool.not_eq_true, ← nextIs_congr (by decide) hr] at hnext
    rw [readEntries_of_next hnext]
    exact ⟨rfl, hr⟩

theorem read_alike {r r' : BitReader} (hr : r'.unread = r.unread) : (read r).Alike (read r') :=
  have h := readEntries_alike hr
  ⟨h.solutions, skipMarker_congr (by decide) h.rest⟩

end SolutionPhase

/-! ### Exercises -/

namespace Token

theorem readOperator_placeless : Scan.Placeless E readOperator := (readBits_placeless (by decide)).bind fun number => by
  split
  case h_8 => exact (readBits_placeless (by decide)).map _
  all_goals exact .pure _

theorem readInteger_placeless : Scan.Placeless DecodeError.IsDamage readInteger :=
  readBit_placeless.bind fun _ => (Elias.readUnsigned_placeless fun _ _ _ => rfl).bind fun _ => .pure _

theorem readConstant_placeless : Scan.Placeless DecodeError.IsDamage readConstant :=
  (readBits_placeless (by decide)).bind fun kind => by
    split
    · exact readInteger_placeless
    · exact .pure _
    · exact .pure _

theorem readOperand_placeless : Scan.Placeless DecodeError.IsDamage readOperand :=
  (readBits_placeless (by decide)).bind fun kind => by
    split
    · exact (TextField.readText_placeless fun _ _ => rfl).map _
    · exact readConstant_placeless
    · exact .pure _

theorem read_placeless : Scan.Placeless DecodeError.IsDamage read := readBit_placeless.bind fun operator => by
  split
  · exact readOperator_placeless
  · exact readOperand_placeless.map _

end Token

namespace Ending

/-- The reason, with no position where bits ran out. -/
def anywhere : Ending → Ending
  | damage e => damage e.anywhere
  | ending => ending

/-- The bits ran out. -/
def RanOut (ending : Ending) : Prop := ∃ position, ending = damage (.endOfData position)

theorem ranOut_iff {ending : Ending} : ending.RanOut ↔ ending.anywhere = damage (.endOfData 0) := by
  refine ⟨fun ⟨_, h⟩ => h ▸ rfl, fun h => ?_⟩
  cases ending with
  | marker => cases h
  | cap => cases h
  | damage e =>
    cases e with
    | endOfData position => exact ⟨position, rfl⟩
    | _ => cases h

theorem isEndOfData_of_not_ranOut {ending : Ending} (h : ¬ending.RanOut) {e : DecodeError} (he : ending = damage e) :
    e.isEndOfData = false := by
  cases e with
  | endOfData position => exact absurd ⟨position, he⟩ h
  | _ => rfl

end Ending

namespace TokenRun

/-- Both rows are the same, ended for the same reason and stopped in front of the same bits. -/
structure Alike (run run' : TokenRun) : Prop where
  tokens : run'.tokens = run.tokens
  ending : run'.ending.anywhere = run.ending.anywhere
  rest : run'.rest.unread = run.rest.unread

theorem read_alike {room : Nat} {r r' : BitReader} (hr : r'.unread = r.unread) :
    (read room r).Alike (read room r') := by
  fun_induction read room r generalizing r' with simp only [Token.ifRemaining_read] at *
  | case1 room r e rest hread =>
    obtain ⟨e', rest', hread', he, hrest⟩ := Token.read_placeless.error_of_error hr hread
    rw [read_of_error hread']
    exact ⟨rfl, congrArg Ending.damage he, hrest⟩
  | case2 room r rest hread =>
    obtain ⟨rest', hread', hrest⟩ := Token.read_placeless.ok_of_ok hr hread
    rw [read_of_marker hread']
    exact ⟨rfl, rfl, hrest⟩
  | case3 room r token rest hread hcap =>
    obtain ⟨rest', hread', hrest⟩ := Token.read_placeless.ok_of_ok hr hread
    rw [read_of_exceeds hread' hcap]
    exact ⟨rfl, rfl, hrest⟩
  | case4 room r token rest hread hfit run =>
    rename_i ih
    obtain ⟨rest', hread', hrest⟩ := Token.read_placeless.ok_of_ok hr hread
    obtain ⟨htokens, hending, hbehind⟩ := ih hrest
    rw [read_of_fits hread' (Nat.le_of_not_lt hfit)]
    exact ⟨congrArg (token :: ·) htokens, hending, hbehind⟩

/-- A row that ran out of bits did so at the end of the bit string. -/
theorem ending_of_ranOut {room : Nat} {r : BitReader} (h : (read room r).ending.RanOut) :
    (read room r).ending = .damage (.endOfData (read room r).rest.bitLength) := by
  fun_induction read room r with simp only [Token.ifRemaining_read] at *
  | case1 room r e rest hread =>
    obtain ⟨position, he⟩ := h
    cases he
    rcases Token.read_placeless.of_error hread with he | he
    · exact congrArg Ending.damage he
    · cases he
  | case2 room r rest hread =>
    obtain ⟨position, he⟩ := h
    cases he
  | case3 room r token rest hread hcap =>
    obtain ⟨position, he⟩ := h
    cases he
  | case4 room r token rest hread hfit run ih => exact ih h

end TokenRun

namespace Exercise

theorem readQuestion_placeless : Scan.Placeless DecodeError.IsDamage readQuestion :=
  readBit_placeless.bind fun present => by
    split
    · exact TextField.readText_placeless fun _ _ => rfl
    · exact .pure ""

/-- Only running out of bits keeps an expression from being read. -/
theorem readExpression_placeless (cap : Nat) : Scan.Placeless E (readExpression cap) := fun r r' hr => by
  have halike : (TokenRun.read cap r).Alike (TokenRun.read cap r') := TokenRun.read_alike hr
  obtain ⟨htokens, hending, hrest⟩ := halike
  have htext : (TokenRun.read cap r').text = (TokenRun.read cap r).text := by
    rw [TokenRun.text, TokenRun.text, htokens]
  by_cases hout : (TokenRun.read cap r).ending.RanOut
  · have hout' : (TokenRun.read cap r').ending.RanOut :=
      Ending.ranOut_iff.mpr (hending.trans (Ending.ranOut_iff.mp hout))
    rw [readExpression_of_error (TokenRun.ending_of_ranOut hout) rfl,
      readExpression_of_error (TokenRun.ending_of_ranOut hout') rfl]
    exact .exhausted hrest
  · have hout' : ¬(TokenRun.read cap r').ending.RanOut := fun h =>
      hout (Ending.ranOut_iff.mpr (hending.symm.trans (Ending.ranOut_iff.mp h)))
    rw [readExpression_of_ok fun _ => Ending.isEndOfData_of_not_ranOut hout,
      readExpression_of_ok fun _ => Ending.isEndOfData_of_not_ranOut hout', htext]
    exact .ok _ hrest

theorem readBody_placeless (cap : Nat) : Scan.Placeless DecodeError.IsDamage (readBody cap) :=
  readQuestion_placeless.bind fun question => (readExpression_placeless cap).bind fun expression => by
    split
    · exact .pure none
    · exact TagList.read_placeless.bind fun _ => .pure _

theorem read_placeless (cap : Nat) : Scan.Placeless DecodeError.IsDamage (read cap) :=
  (peekBits_placeless (by decide)).bind fun marker => by
    split
    · exact (skipBits_placeless 2).bind fun _ => readBody_placeless cap
    · exact .pure none

end Exercise

theorem Attempt.exercises_congr {cap : Nat} {r r' : BitReader} (hr : r'.unread = r.unread) :
    exercises cap r' = exercises cap r := by
  induction r using Attempt.readAll_induction cap generalizing r' with
  | ends r rest hread =>
    obtain ⟨rest', hread', -⟩ := (Exercise.read_placeless cap).ok_of_ok hr hread
    rw [exercises_of_none hread, exercises_of_none hread']
  | finds r e rest hread ih =>
    obtain ⟨rest', hread', hrest⟩ := (Exercise.read_placeless cap).ok_of_ok hr hread
    rw [exercises_of_some hread, exercises_of_some hread', ih hrest]
  | stops r error rest hread hnil =>
    obtain ⟨error', rest', hread', -, hrest⟩ := (Exercise.read_placeless cap).error_of_error hr hread
    rw [exercises_of_error hread, exercises_of_error hread', hrest, if_pos hnil, if_pos hnil]
  | restarts r error rest hread hnil ih =>
    obtain ⟨error', rest', hread', -, hrest⟩ := (Exercise.read_placeless cap).error_of_error hr hread
    rw [exercises_of_error hread, exercises_of_error hread', hrest, if_neg hnil, if_neg hnil]
    exact ih (congrArg (List.drop 1) hrest)

/-! ### The whole payload -/

namespace Contents

theorem read_congr (cap : Nat) {r r' : BitReader} (hr : r'.unread = r.unread) :
    (read cap r').mapError DecodeError.anywhere = (read cap r).mapError DecodeError.anywhere := by
  cases hheader : HeaderEntry.readAll r with
  | error e rest =>
    obtain ⟨e', rest', hheader', he, -⟩ := HeaderEntry.readAll_placeless.error_of_error hr hheader
    rw [read, read, hheader, hheader']
    exact congrArg Except.error he
  | ok entries rest =>
    obtain ⟨rest', hheader', hrest⟩ := HeaderEntry.readAll_placeless.ok_of_ok hr hheader
    obtain ⟨hsolutions, hbehind⟩ := SolutionPhase.read_alike hrest
    rw [read, read, hheader, hheader']
    dsimp only
    rw [hsolutions, Attempt.exercises_congr hbehind]

/-- Payloads with the same bits from the start of the header on, whatever lies before and however the bits lie in
    bytes, are read alike: with the same contents, or for the same reason not, up to where the bits ran out. Asking
    whether a byte is left has the same answer in both, at any two places with the same bits ahead. -/
theorem decode_congr {bytes bytes' : List UInt8} {offset offset' : Nat} (cap : Nat)
    (h : (Bits.ofBytes bytes').drop (min offset' (8 * bytes'.length)) =
      (Bits.ofBytes bytes).drop (min offset (8 * bytes.length))) :
    (decode ⟨offset', cap⟩ bytes').mapError DecodeError.anywhere =
      (decode ⟨offset, cap⟩ bytes).mapError DecodeError.anywhere ∧
    ∀ (c : Cursor bytes) (c' : Cursor bytes'), c'.reader.unread = c.reader.unread →
      c'.hasRemaining = c.hasRemaining := by
  refine ⟨read_congr cap ?_, fun c c' hunread => ?_⟩
  · rw [← Bits.length_ofBytes, ← Bits.length_ofBytes, ← List.drop_eq_drop_min, ← List.drop_eq_drop_min] at h
    exact h
  · rw [Cursor.hasRemaining_eq, Cursor.hasRemaining_eq, BitReader.hasRemaining, BitReader.hasRemaining, hunread]

/-- A label behind two bits, and the same label behind ten others. -/
theorem decode_congr_sample :
    (Bits.ofBytes [0xFF, 0xD4, 0xC2, 0x0C, 0x00]).drop (min 10 (8 * 5)) =
      (Bits.ofBytes [0x14, 0xC2, 0x0C, 0x00]).drop (min 2 (8 * 4)) ∧
    (decode ⟨10, 500⟩ [0xFF, 0xD4, 0xC2, 0x0C, 0x00]).mapError DecodeError.anywhere =
      .ok ⟨.ofList [(.plus, "a")], .empty, [], []⟩ := by
  have hbits : (Bits.ofBytes [0xFF, 0xD4, 0xC2, 0x0C, 0x00]).drop (min 10 (8 * 5)) =
      (Bits.ofBytes [0x14, 0xC2, 0x0C, 0x00]).drop (min 2 (8 * 4)) := rfl
  have hread : decode ⟨2, 500⟩ [0x14, 0xC2, 0x0C, 0x00] = .ok ⟨.ofList [(.plus, "a")], .empty, [], []⟩ := by
    have hplain : TextField.Unbroken "a" := by
      simp [TextField.Unbroken, TextField.terminator]
    have hreadable : (Draft.mk 0 2 [.label .plus "a"] [] []).Readable 500 :=
      ⟨by rintro _ (_ | ⟨_, ⟨⟩⟩); exact hplain, nofun, nofun⟩
    have hwhole : Bits.ofBytes [0x14, 0xC2, 0x0C, 0x00] =
        (Draft.mk 0 2 [.label .plus "a"] [] []).bits ++ List.replicate 4 false := rfl
    exact Draft.decode_whole hreadable hwhole
  have hcongr := (@decode_congr [0x14, 0xC2, 0x0C, 0x00] [0xFF, 0xD4, 0xC2, 0x0C, 0x00] 2 10 500 hbits).1
  rw [hread] at hcongr
  exact ⟨hbits, hcongr⟩

end Contents
end DrillCode
