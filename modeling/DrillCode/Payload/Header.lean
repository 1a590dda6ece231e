import DrillCode.Bits.Elias
import DrillCode.Payload.Contents
import DrillCode.Payload.TextField

/-! # The header of a payload

The header lists labels and generators, each behind a two-bit marker, and ends with the marker 0. The
marker of generators has room for other kinds of entry, which are passed over. A label of a kind that
has one, or a generator of a name that has one, replaces it in its place. -/

namespace DrillCode

inductive HeaderEntry where
  | label (tag : Tag) (text : String)
  | generator (name : String) (range : Range)
  /-- An entry of a kind that is set aside, from 1 to 15. -/
  | reserved (kind : Nat)
  deriving DecidableEq, Repr

namespace HeaderEntry

def bits : HeaderEntry → List Bool
  | label tag text => Bits.ofNat 2 1 ++ Bits.ofNat 2 tag.labelCode ++ TextField.textBits text
  | generator name range =>
    Bits.ofNat 2 2 ++ Bits.ofNat 4 0 ++ TextField.textBits name ++ Elias.signedCode range.min.toInt ++
      Elias.signedCode range.max.toInt
  | reserved kind => Bits.ofNat 2 2 ++ Bits.ofNat 4 kind

/-- What ends the header. -/
def endBits : List Bool := Bits.ofNat 2 0

def label? : HeaderEntry → Option (Tag × String)
  | label tag text => some (tag, text)
  | _ => none

def generator? : HeaderEntry → Option (String × Range)
  | generator name range => some (name, range)
  | _ => none

def labels (entries : List HeaderEntry) : OrderedMap Tag String :=
  .ofList (entries.filterMap label?)

def generators (entries : List HeaderEntry) : OrderedMap String Range :=
  .ofList (entries.filterMap generator?)

/-! ### Reading -/

/-- Reads a label after its marker. -/
def readLabel : Scan HeaderEntry := do
  let number ← readBits 2
  let text ← TextField.readText
  pure (label (Tag.ofLabelCode number) text)

/-- Reads a generator after its kind. -/
def readGenerator : Scan HeaderEntry := do
  let name ← TextField.readText
  let min ← Elias.readSigned
  let max ← Elias.readSigned
  pure (generator name ⟨.ofInt min, .ofInt max⟩)

/-- Reads a generator, or passes over an entry of a kind that is set aside. -/
def readOther : Scan HeaderEntry := do
  let kind ← readBits 4
  if kind = 0 then readGenerator else pure (reserved kind)

/-- Reads an entry, or finds the end of the header. -/
def read : Scan (Option HeaderEntry) := do
  let marker ← readBits 2
  match marker with
  | 0 => pure none
  | 1 => some <$> readLabel
  | 2 => some <$> readOther
  | _ => throw (.malformedHeader marker)

theorem readLabel_advances : Scan.Advances 11 readLabel :=
  (readBits_advances 2).bind fun _ => TextField.readText_advances.bind fun _ => .pure _

theorem readGenerator_advances : Scan.Advances 11 readGenerator :=
  TextField.readText_advances.bind fun _ => Elias.readSigned_advances.bind fun _ =>
    Elias.readSigned_advances.bind fun _ => .pure _

theorem readOther_advances : Scan.Advances 4 readOther := by
  refine (readBits_advances 4).bind (k := 0) fun kind => ?_
  split
  · exact readGenerator_advances.mono (by decide)
  · exact .pure _

theorem read_advances : Scan.Advances 2 read := by
  refine (readBits_advances 2).bind (k := 0) fun marker => ?_
  split
  · exact .pure _
  · exact (readLabel_advances.map _).mono (by decide)
  · exact (readOther_advances.map _).mono (by decide)
  · exact .throw _

/-- Reads all entries of a header with its end. -/
def readAll (r : BitReader) : Scanned (List HeaderEntry) :=
  match _h : read r with
  | .error e rest => .error e rest
  | .ok none rest => .ok [] rest
  | .ok (some entry) rest =>
    match readAll rest with
    | .ok entries rest => .ok (entry :: entries) rest
    | .error e rest => .error e rest
termination_by r.unread.length
decreasing_by exact (read_advances.ok _h).length_lt (by decide)

end HeaderEntry
end DrillCode
