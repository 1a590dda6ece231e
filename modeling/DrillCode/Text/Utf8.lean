/-! # UTF-8

Text as bytes, and back. Bytes that are no UTF-8 are read as well: the bytes of a sequence that breaks
off, or a single byte that starts none, stand for one replacement character, and reading goes on right
after them. -/

namespace DrillCode.Text.Utf8

def encode (text : List Char) : List UInt8 :=
  text.flatMap String.utf8EncodeChar

/-- What stands for bytes that are no character. -/
def replacement : Char := Char.ofNat 0xFFFD

/-- The ranges that the bytes after the first of a longer sequence come from, given the first. No range
    at all means that no longer sequence starts with that byte. The second byte's range leaves out
    overlong forms, surrogates and numbers beyond the last character. -/
def following (first : UInt8) : List (UInt8 × UInt8) :=
  if 0xC2 ≤ first && first ≤ 0xDF then [(0x80, 0xBF)]
  else if first == 0xE0 then [(0xA0, 0xBF), (0x80, 0xBF)]
  else if first == 0xED then [(0x80, 0x9F), (0x80, 0xBF)]
  else if 0xE1 ≤ first && first ≤ 0xEF then [(0x80, 0xBF), (0x80, 0xBF)]
  else if first == 0xF0 then [(0x90, 0xBF), (0x80, 0xBF), (0x80, 0xBF)]
  else if 0xF1 ≤ first && first ≤ 0xF3 then [(0x80, 0xBF), (0x80, 0xBF), (0x80, 0xBF)]
  else if first == 0xF4 then [(0x80, 0x8F), (0x80, 0xBF), (0x80, 0xBF)]
  else []

/-- The bytes at the front that lie in the given ranges, one for one. -/
def takeIn : (ranges : List (UInt8 × UInt8)) → (bytes : List UInt8) → List UInt8
  | (low, high) :: ranges, byte :: bytes =>
    if low ≤ byte && byte ≤ high then byte :: takeIn ranges bytes else []
  | _, _ => []

/-- The character that a first byte and the bytes after it spell. -/
def character (first : UInt8) (rest : List UInt8) : Char :=
  let mark := if rest.length = 1 then 0xC0 else if rest.length = 2 then 0xE0 else 0xF0
  Char.ofNat (rest.foldl (fun n byte => 64 * n + (byte.toNat - 0x80)) (first.toNat - mark))

/-- The text of a byte string. -/
def decode : (bytes : List UInt8) → List Char
  | [] => []
  | first :: bytes =>
    if first < 0x80 then
      Char.ofNat first.toNat :: decode bytes
    else
      let ranges := following first
      let found := takeIn ranges bytes
      let c := if !ranges.isEmpty && found.length = ranges.length then character first found else replacement
      c :: decode (bytes.drop found.length)
termination_by bytes => bytes.length
decreasing_by
  all_goals simp only [List.length_drop, List.length_cons]; omega

/-- The text of a byte string that is UTF-8 throughout. -/
def decode? (bytes : List UInt8) : Option (List Char) :=
  let text := decode bytes
  if encode text = bytes then some text else none

end DrillCode.Text.Utf8
