import DrillCode.Payload.Header
import DrillCode.Proofs.Payload.TextField

/-! # The header is read back

The entries of a header are read back in their order, those of a kind that is set aside too, and reading
stops behind the end marker. Which bits are a header is told apart from the reader: entry after entry with
its marker, and the end marker last (`HeaderEntry.HeaderCodes`). An entry may have more codes than the one it
is written with, as a text may come in either form. -/

namespace DrillCode.HeaderEntry

/-- The entry can be told from its code: its text does not break off, and its kind is set aside. -/
def Readable : HeaderEntry → Prop
  | label _ text => TextField.Unbroken text
  | generator name _ => TextField.Unbroken name
  | reserved kind => 0 < kind ∧ kind < 16

/-! ### One entry -/

/-- The bits are a code of the entry. -/
inductive Codes : HeaderEntry → List Bool → Prop
  | label (tag : Tag) {text : String} {code : List Bool} (h : TextField.Codes text code) :
    Codes (.label tag text) (Bits.ofNat 2 1 ++ (Bits.ofNat 2 tag.labelCode ++ code))
  | generator {name : String} {code : List Bool} (h : TextField.Codes name code) (range : Range) :
    Codes (.generator name range) (Bits.ofNat 2 2 ++ (Bits.ofNat 4 0 ++
      (code ++ (Elias.signedCode range.min.toInt ++ Elias.signedCode range.max.toInt))))
  | reserved {kind : Nat} (hpos : 0 < kind) (hlt : kind < 16) :
    Codes (.reserved kind) (Bits.ofNat 2 2 ++ Bits.ofNat 4 kind)

theorem codes_bits {entry : HeaderEntry} (h : entry.Readable) : entry.Codes entry.bits := by
  cases entry with
  | label tag text =>
    rw [bits, List.append_assoc]
    exact .label tag (TextField.codes_textBits h)
  | generator name range =>
    simp only [bits, List.append_assoc]
    exact .generator (TextField.codes_textBits h) range
  | reserved kind => exact .reserved h.1 h.2

theorem readLabel_reads (tag : Tag) {text : String} {code : List Bool} (h : TextField.Codes text code) :
    Scan.Reads readLabel (Bits.ofNat 2 tag.labelCode ++ code) (label tag text) := by
  have hcode : tag.labelCode < 2 ^ 2 := by cases tag <;> decide
  have htag : Tag.ofLabelCode tag.labelCode = tag := by cases tag <;> rfl
  refine (readBits_ofNat (by decide) hcode).bind (h.reads.bind_nil ?_)
  rw [htag]
  exact .pure _

theorem readGenerator_reads {name : String} {code : List Bool} (h : TextField.Codes name code) (range : Range) :
    Scan.Reads readGenerator (code ++ (Elias.signedCode range.min.toInt ++ Elias.signedCode range.max.toInt))
      (generator name range) := by
  refine h.reads.bind ((Elias.readSigned_reads range.min).bind ((Elias.readSigned_reads range.max).bind_nil ?_))
  rw [Int64.ofInt_toInt, Int64.ofInt_toInt]
  exact .pure _

theorem Codes.reads {entry : HeaderEntry} {code : List Bool} (h : entry.Codes code) :
    Scan.Reads read code (some entry) := by
  cases h with
  | label tag h =>
    have hlabel := readLabel_reads tag h
    exact (readBits_ofNat (by decide) (by decide)).bind (hlabel.map some)
  | @generator name code h range =>
    have hother : Scan.Reads readOther (Bits.ofNat 4 0 ++ (code ++ (Elias.signedCode range.min.toInt ++
        Elias.signedCode range.max.toInt))) (HeaderEntry.generator name range) :=
      (readBits_ofNat (by decide) (by decide)).bind (readGenerator_reads h range)
    exact (readBits_ofNat (by decide) (by decide)).bind (hother.map some)
  | @reserved kind hpos hlt =>
    have hother : Scan.Reads readOther (Bits.ofNat 4 kind) (HeaderEntry.reserved kind) := by
      refine (readBits_ofNat (by decide) hlt).bind_nil ?_
      rw [if_neg (Nat.ne_of_gt hpos)]
      exact .pure _
    exact (readBits_ofNat (by decide) (by decide)).bind (hother.map some)

theorem read_endBits_reads : Scan.Reads read endBits none :=
  (readBits_ofNat (by decide) (by decide)).bind_nil (.pure none)

theorem readLabel_stable : Scan.Stable readLabel :=
  (readBits_stable 2).bind fun _ => TextField.readText_stable.bind fun _ => .pure _

theorem readGenerator_stable : Scan.Stable readGenerator :=
  TextField.readText_stable.bind fun _ => Elias.readSigned_stable.bind fun _ =>
    Elias.readSigned_stable.bind fun _ => .pure _

theorem readOther_stable : Scan.Stable readOther := (readBits_stable 4).bind fun kind => by
  split
  · exact readGenerator_stable
  · exact .pure _

theorem read_stable : Scan.Stable read := (readBits_stable 2).bind fun marker => by
  split
  · exact .pure _
  · exact readLabel_stable.map _
  · exact readOther_stable.map _
  · exact .throw rfl

/-! ### All entries -/

/-- Reading an entry and then, unless it is the end marker, the others. -/
theorem readAll_eq :
    readAll = read >>= fun found =>
      match found with
      | none => pure []
      | some entry => (entry :: ·) <$> readAll := by
  funext r
  rw [readAll]
  split
  · next h => rw [Scan.bind_error h]
  · next h => rw [Scan.bind_ok h]; rfl
  · next h =>
    rw [Scan.bind_ok h]
    split
    · next h' => exact (Scan.map_ok h').symm
    · next h' => exact (Scan.map_error h').symm

theorem readAll_stable : Scan.Stable readAll := .of_shorter fun r ih => by
  rw [readAll_eq]
  refine (read_stable r).bind fun found r' hr => ?_
  cases found with
  | none => exact .pure []
  | some entry => exact (ih r' ((read_advances.ok hr).length_lt (by decide))).map _

/-- The bits are a code of the entries with the end marker. -/
inductive HeaderCodes : List HeaderEntry → List Bool → Prop
  | nil : HeaderCodes [] endBits
  | cons {entry : HeaderEntry} {entries : List HeaderEntry} {code more : List Bool} (h : entry.Codes code)
      (hmore : HeaderCodes entries more) : HeaderCodes (entry :: entries) (code ++ more)

theorem HeaderCodes.reads {entries : List HeaderEntry} {code : List Bool} (h : HeaderCodes entries code) :
    Scan.Reads readAll code entries := by
  induction h with
  | nil =>
    rw [readAll_eq]
    exact read_endBits_reads.bind_nil (.pure [])
  | cons hentry _ ih =>
    rw [readAll_eq]
    exact hentry.reads.bind (ih.map _)

theorem headerCodes_bits : ∀ {entries : List HeaderEntry}, (∀ entry ∈ entries, entry.Readable) →
    HeaderCodes entries (entries.flatMap bits ++ endBits)
  | [], _ => .nil
  | entry :: entries, h => by
    rw [List.flatMap_cons, List.append_assoc]
    exact .cons (codes_bits (h entry List.mem_cons_self))
      (headerCodes_bits fun x hx => h x (List.mem_cons_of_mem entry hx))

theorem readAll_reads {entries : List HeaderEntry} (h : ∀ entry ∈ entries, entry.Readable) :
    Scan.Reads readAll (entries.flatMap bits ++ endBits) entries := (headerCodes_bits h).reads

end DrillCode.HeaderEntry
