import DrillCode.Bits.Reader
import DrillCode.Text.Utf8

/-! # Text in a payload

A text is written in units of seven bits, one to a character, or of eight bits, one to a byte of its
UTF-8 form, and ends with the unit 3. Two bits before it say which. The shorter form holds ASCII
characters other than U+0003, and a text takes it whenever it can. -/

namespace DrillCode.TextField

/-- The unit that ends a text. -/
def terminator : Nat := 3

/-! ### Reading -/

/-- Reads units of `width` bits up to the one that ends the text. -/
def readUnits (width : Nat) (r : BitReader) : Scanned (List Nat) :=
  match _h : readBits width r with
  | .error e rest => .error e rest
  | .ok unit rest =>
    if unit = terminator then .ok [] rest
    else match readUnits width rest with
      | .ok units rest => .ok (unit :: units) rest
      | .error e rest => .error e rest
termination_by r.unread.length
decreasing_by exact ((readBits_advances_one width).ok _h).length_lt Nat.one_pos

def readAscii : Scan String :=
  (fun units => String.ofList (units.map Char.ofNat)) <$> readUnits 7

def readUtf8 : Scan String :=
  (fun units => String.ofList (Text.Utf8.decode (units.map UInt8.ofNat))) <$> readUnits 8

/-- Reads a text with the two bits before it that say how it is written. -/
def readText : Scan String := do
  let selector ← readBits 2
  match selector with
  | 0 => readAscii
  | 1 => readUtf8
  | _ => throw (.malformedEncoding selector)

/-! ### Writing -/

/-- The text can be written in seven-bit units. -/
def isPlain (text : List Char) : Bool :=
  text.all fun c => c.toNat < 0x80 && c.toNat != terminator

/-- The seven-bit units of a text; of a character beyond ASCII they keep the low seven bits. -/
def asciiBits (text : List Char) : List Bool :=
  text.flatMap (fun c => Bits.ofNat 7 c.toNat) ++ Bits.ofNat 7 terminator

def utf8Bits (text : List Char) : List Bool :=
  (Text.Utf8.encode text).flatMap (fun byte => Bits.ofNat 8 byte.toNat) ++ Bits.ofNat 8 terminator

/-- A text with the two bits before it that say how it is written. -/
def textBits (text : String) : List Bool :=
  if isPlain text.toList then Bits.ofNat 2 0 ++ asciiBits text.toList
  else Bits.ofNat 2 1 ++ utf8Bits text.toList

/-! ### Reading moves forward -/

theorem readUnits_advances (width : Nat) : Scan.Advances width (readUnits width) := by
  have both : ∀ r, (∀ units rest, readUnits width r = .ok units rest → r.Ahead width rest) ∧
      (∀ e rest, readUnits width r = .error e rest → r.Ahead 0 rest) := by
    intro r
    fun_induction readUnits width r with
    | case1 r e rest h =>
      refine ⟨fun _ _ hs => (nomatch hs), fun _ _ hs => ?_⟩
      cases hs
      exact (readBits_advances width).error h
    | case2 r rest h =>
      refine ⟨fun _ _ hs => ?_, fun _ _ hs => nomatch hs⟩
      cases hs
      exact (readBits_advances width).ok h
    | case3 r unit rest h hne units rest' hrec ih =>
      refine ⟨fun _ _ hs => ?_, fun _ _ hs => nomatch hs⟩
      cases hs
      exact (((readBits_advances width).ok h).trans (ih.1 _ _ hrec)).mono (Nat.le_add_right _ _)
    | case4 r unit rest h hne e rest' hrec ih =>
      refine ⟨fun _ _ hs => (nomatch hs), fun _ _ hs => ?_⟩
      cases hs
      exact (((readBits_advances width).ok h).trans (ih.2 _ _ hrec)).mono (Nat.zero_le _)
  exact ⟨fun {r a r'} h => (both r).1 a r' h, fun {r e r'} h => (both r).2 e r' h⟩

theorem readAscii_advances : Scan.Advances 7 readAscii :=
  (readUnits_advances 7).map _

theorem readUtf8_advances : Scan.Advances 8 readUtf8 :=
  (readUnits_advances 8).map _

theorem readText_advances : Scan.Advances 9 readText := by
  refine (readBits_advances 2).bind (k := 7) fun selector => ?_
  split
  · exact readAscii_advances
  · exact readUtf8_advances.mono (by decide)
  · exact .throw _

end DrillCode.TextField
