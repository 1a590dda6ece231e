import DrillCode.Payload.TextField
import DrillCode.Proofs.Bits.Stable
import DrillCode.Proofs.Text.Utf8

/-! # Text in a payload is read back

A text without the character that ends texts is read back from either form, and the form that it is
written in says itself which one it is. Which bits are a code of a text is told apart from the reader
(`TextField.Codes`). -/

namespace DrillCode.TextField

/-- No character of the text is the one that ends texts. -/
def Unbroken (text : String) : Prop := ∀ c ∈ text.toList, c.toNat ≠ terminator

theorem isPlain_iff {text : List Char} :
    isPlain text = true ↔ ∀ c ∈ text, c.toNat < 0x80 ∧ c.toNat ≠ terminator := by
  simp [isPlain]

/-! ### Units -/

/-- Reading a unit and then, unless it ends the text, the others. -/
theorem readUnits_eq (width : Nat) :
    readUnits width = readBits width >>= fun unit =>
      if unit = terminator then pure [] else (unit :: ·) <$> readUnits width := by
  funext r
  rw [readUnits]
  split
  · next h => rw [Scan.bind_error h]
  · next h =>
    rw [Scan.bind_ok h]
    split
    · rfl
    · split
      · next h' => rw [Scan.map_ok h']
      · next h' => rw [Scan.map_error h']

theorem readUnits_stable (width : Nat) : Scan.Stable (readUnits width) := .of_shorter fun r ih => by
  rw [readUnits_eq]
  refine (readBits_stable width r).bind fun unit r' hr => ?_
  split
  · exact .pure []
  · exact (ih r' (((readBits_advances_one width).ok hr).length_lt Nat.one_pos)).map _

/-- Units that fit, none of which ends the text. -/
def Units (width : Nat) (units : List Nat) : Prop := ∀ unit ∈ units, unit < 2 ^ width ∧ unit ≠ terminator

/-- Units with the one that ends the text. -/
def unitBits (width : Nat) (units : List Nat) : List Bool :=
  units.flatMap (Bits.ofNat width) ++ Bits.ofNat width terminator

theorem readUnits_reads (width : Nat) (hwidth : 1 ≤ width ∧ width ≤ 32) (hend : terminator < 2 ^ width) :
    ∀ {units : List Nat}, Units width units → Scan.Reads (readUnits width) (unitBits width units) units
  | [], _ => by
    rw [readUnits_eq]
    refine (readBits_ofNat hwidth hend).bind_nil ?_
    rw [if_pos rfl]
    exact Scan.Reads.pure []
  | unit :: units, h => by
    obtain ⟨hlt, hne⟩ := h unit List.mem_cons_self
    rw [readUnits_eq, unitBits, List.flatMap_cons, List.append_assoc]
    refine (readBits_ofNat hwidth hlt).bind ?_
    rw [if_neg hne]
    exact (readUnits_reads width hwidth hend fun x hx => h x (List.mem_cons_of_mem unit hx)).map _

/-! ### Texts -/

/-- The bits are a code of the text. -/
inductive Codes : String → List Bool → Prop
  | ascii {units : List Nat} (h : Units 7 units) :
    Codes (String.ofList (units.map Char.ofNat)) (Bits.ofNat 2 0 ++ unitBits 7 units)
  | utf8 {units : List Nat} (h : Units 8 units) :
    Codes (String.ofList (Text.Utf8.decode (units.map UInt8.ofNat))) (Bits.ofNat 2 1 ++ unitBits 8 units)

theorem units_of_isPlain {text : List Char} (h : isPlain text = true) : Units 7 (text.map Char.toNat) := by
  intro unit hunit
  obtain ⟨c, hc, rfl⟩ := List.mem_map.mp hunit
  exact isPlain_iff.mp h c hc

theorem units_encode {text : String} (h : Unbroken text) :
    Units 8 ((Text.Utf8.encode text.toList).map UInt8.toNat) := by
  intro unit hunit
  obtain ⟨byte, hbyte, rfl⟩ := List.mem_map.mp hunit
  refine ⟨byte.toNat_lt, fun heq => ?_⟩
  -- A byte below `0x80` is a character of the text.
  obtain ⟨c, hc, hval⟩ := Text.Utf8.mem_of_mem_encode hbyte (by rw [heq]; decide)
  exact h c hc (hval.trans heq)

theorem asciiBits_eq (text : List Char) : asciiBits text = unitBits 7 (text.map Char.toNat) := by
  rw [asciiBits, unitBits, List.flatMap_map]

theorem utf8Bits_eq (text : List Char) : utf8Bits text = unitBits 8 ((Text.Utf8.encode text).map UInt8.toNat) := by
  rw [utf8Bits, unitBits, List.flatMap_map]

theorem ofList_ascii (text : String) : String.ofList ((text.toList.map Char.toNat).map Char.ofNat) = text := by
  have hback : (text.toList.map Char.toNat).map Char.ofNat = text.toList := by
    rw [List.map_map]
    exact List.map_id'' (fun c => Char.ofNat_toNat c) _
  rw [hback, String.ofList_toList]

theorem ofList_utf8 (text : String) : String.ofList
    (Text.Utf8.decode (((Text.Utf8.encode text.toList).map UInt8.toNat).map UInt8.ofNat)) = text := by
  have hback : ((Text.Utf8.encode text.toList).map UInt8.toNat).map UInt8.ofNat = Text.Utf8.encode text.toList := by
    rw [List.map_map]
    exact List.map_id'' (fun byte => UInt8.ofNat_toNat) _
  rw [hback, Text.Utf8.decode_encode, String.ofList_toList]

theorem readAscii_reads {text : String} (h : isPlain text.toList = true) :
    Scan.Reads readAscii (asciiBits text.toList) text := by
  have hread := (readUnits_reads 7 (by decide) (by decide) (units_of_isPlain h)).map
    fun units => String.ofList (units.map Char.ofNat)
  rwa [ofList_ascii, ← asciiBits_eq] at hread

theorem codes_utf8Bits {text : String} (h : Unbroken text) :
    Codes text (Bits.ofNat 2 1 ++ utf8Bits text.toList) := by
  have hcode := Codes.utf8 (units_encode h)
  rwa [ofList_utf8, ← utf8Bits_eq] at hcode

theorem codes_textBits {text : String} (h : Unbroken text) : Codes text (textBits text) := by
  unfold textBits
  split
  · next hplain =>
    have hcode := Codes.ascii (units_of_isPlain hplain)
    rwa [ofList_ascii, ← asciiBits_eq] at hcode
  · exact codes_utf8Bits h

theorem Codes.reads {text : String} {code : List Bool} (h : Codes text code) : Scan.Reads readText code text := by
  cases h with
  | ascii h =>
    exact (readBits_ofNat (by decide) (by decide)).bind ((readUnits_reads 7 (by decide) (by decide) h).map _)
  | utf8 h =>
    exact (readBits_ofNat (by decide) (by decide)).bind ((readUnits_reads 8 (by decide) (by decide) h).map _)

theorem readText_reads {text : String} (h : Unbroken text) : Scan.Reads readText (textBits text) text :=
  (codes_textBits h).reads

/-! ### Texts that hold the end of a text -/

/-- The character that is the unit that ends a text. -/
def breakChar : Char := Char.ofNat terminator

theorem unbroken_iff {text : String} : Unbroken text ↔ breakChar ∉ text.toList := by
  constructor
  · intro h hmem
    exact h breakChar hmem rfl
  · intro h c hc heq
    rw [← Char.ofNat_toNat c, heq] at hc
    exact h hc

/-- The part of a text before its first break is written up to the end of a text, and the part behind starts anew. -/
theorem utf8Bits_break (kept lost : List Char) :
    utf8Bits (kept ++ breakChar :: lost) = utf8Bits kept ++ utf8Bits lost := by
  have hbreak : Text.Utf8.encode (breakChar :: lost) = 3 :: Text.Utf8.encode lost := rfl
  have happend : Text.Utf8.encode (kept ++ breakChar :: lost) =
      Text.Utf8.encode kept ++ Text.Utf8.encode (breakChar :: lost) := List.flatMap_append
  simp only [utf8Bits, happend, hbreak, List.flatMap_append, List.flatMap_cons, List.append_assoc]
  rfl

/-- Of a text that holds the break, what stands before the first one is read, and the rest of the code is left. -/
theorem readText_broken {text : String} (h : breakChar ∈ text.toList) : ∃ kept lost,
    text.toList = kept ++ breakChar :: lost ∧ breakChar ∉ kept ∧
    textBits text = (Bits.ofNat 2 1 ++ utf8Bits kept) ++ utf8Bits lost ∧
    Scan.Reads readText (Bits.ofNat 2 1 ++ utf8Bits kept) (String.ofList kept) := by
  obtain ⟨kept, lost, htext, hkept⟩ := List.eq_append_cons_of_mem h
  have hplain : ¬isPlain text.toList = true := fun hplain => (isPlain_iff.mp hplain breakChar h).2 rfl
  have hunbroken : Unbroken (String.ofList kept) := by
    rw [unbroken_iff, String.toList_ofList]
    exact hkept
  have hreads := (codes_utf8Bits hunbroken).reads
  rw [String.toList_ofList] at hreads
  refine ⟨kept, lost, htext, hkept, ?_, hreads⟩
  rw [textBits, if_neg hplain, htext, utf8Bits_break, List.append_assoc]

/-- A text is read back from its code where it does not hold the character that ends texts, and nowhere else. A text
    that does hold it is read up to there. -/
theorem readText_textBits (text : String) :
    (Scan.Reads readText (textBits text) text ↔ breakChar ∉ text.toList) ∧
    (breakChar ∈ text.toList → ∃ kept lost, text.toList = kept ++ breakChar :: lost ∧ breakChar ∉ kept ∧
      textBits text = (Bits.ofNat 2 1 ++ utf8Bits kept) ++ utf8Bits lost ∧
      Scan.Reads readText (Bits.ofNat 2 1 ++ utf8Bits kept) (String.ofList kept)) := by
  refine ⟨⟨fun hreads hmem => ?_, fun h => readText_reads (unbroken_iff.mpr h)⟩, readText_broken⟩
  obtain ⟨kept, lost, -, -, hbits, hkept⟩ := readText_broken hmem
  -- The two readings of the same code would end at one place.
  have hwhole := hreads 0 []
  rw [List.append_nil, hbits, hkept 0 (utf8Bits lost)] at hwhole
  have hnil : utf8Bits lost = [] := congrArg BitReader.unread (EStateM.Result.ok.inj hwhole).2
  exact absurd (List.append_eq_nil_iff.mp hnil).2 (by decide)

/-- A single break is written as a break and an end, of which the first is taken for the end. -/
theorem readText_break : textBits "\x03" = Bits.ofNat 2 1 ++ (Bits.ofNat 8 3 ++ Bits.ofNat 8 3) ∧
    readText ⟨0, textBits "\x03"⟩ = .ok "" ⟨10, Bits.ofNat 8 3⟩ ∧
    ¬Scan.Reads readText (textBits "\x03") "\x03" := by
  have hbits : textBits "\x03" = Bits.ofNat 2 1 ++ (Bits.ofNat 8 3 ++ Bits.ofNat 8 3) := by decide +kernel
  have hread : readText ⟨0, textBits "\x03"⟩ = .ok "" ⟨10, Bits.ofNat 8 3⟩ := by
    have hempty : Codes "" (Bits.ofNat 2 1 ++ utf8Bits []) := codes_utf8Bits (unbroken_iff.mpr (by simp))
    rw [hbits, ← List.append_assoc]
    exact hempty.reads 0 (Bits.ofNat 8 3)
  refine ⟨hbits, hread, fun hreads => ?_⟩
  have hwhole := hreads 0 []
  rw [List.append_nil, hread] at hwhole
  exact absurd (EStateM.Result.ok.inj hwhole).1 (by decide)

/-! ### Bit strings that go on -/

theorem readAscii_stable : Scan.Stable readAscii := (readUnits_stable 7).map _

theorem readUtf8_stable : Scan.Stable readUtf8 := (readUnits_stable 8).map _

theorem readText_stable : Scan.Stable readText := (readBits_stable 2).bind fun selector => by
  split
  · exact readAscii_stable
  · exact readUtf8_stable
  · exact .throw rfl

end DrillCode.TextField
