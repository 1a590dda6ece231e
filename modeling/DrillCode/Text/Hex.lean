/-! # Hexadecimal text

Bytes as pairs of hexadecimal digits, and back. -/

namespace DrillCode.Text.Hex

/-- A digit in lower case. -/
def digit (n : Nat) : Char :=
  Char.ofNat (if n < 10 then 48 + n else 87 + n)

/-- The text of a byte string, in lower case. -/
def encode (bytes : List UInt8) : List Char :=
  bytes.flatMap fun byte => [digit (byte.toNat / 16), digit (byte.toNat % 16)]

/-- The number of a digit in either case, given as a byte. -/
def value? (byte : UInt8) : Option UInt8 :=
  if 48 ≤ byte && byte ≤ 57 then some (byte - 48)
  else if 65 ≤ byte && byte ≤ 70 then some (byte - 55)
  else if 97 ≤ byte && byte ≤ 102 then some (byte - 87)
  else none

/-- Why a text is not hexadecimal. -/
inductive Error where
  | oddLength
  /-- The byte at `position` is no digit. -/
  | invalidDigit (byte : UInt8) (position : Nat)
  deriving DecidableEq, Repr

/-- A byte below U+0100 as a character in single quotes, with an escape where it would not be seen. -/
def quotedByte (byte : UInt8) : String :=
  let n := byte.toNat
  let body :=
    if n = 0 then "\\0"
    else if n = 9 then "\\t"
    else if n = 10 then "\\n"
    else if n = 13 then "\\r"
    else if n = 39 then "\\'"
    else if n = 92 then "\\\\"
    else if n < 32 || (126 < n && n < 161) || n = 173 then
      "\\u\x7b" ++ String.ofList (Nat.toDigits 16 n) ++ "\x7d"
    else String.ofList [Char.ofNat n]
  "'" ++ body ++ "'"

def Error.message : Error → String
  | oddLength => "Odd number of digits"
  | invalidDigit byte position =>
    "Invalid character " ++ quotedByte byte ++ " at position " ++ toString position

/-- The bytes that pairs of digits from a position on spell. -/
def decodePairs (position : Nat) : (text : List UInt8) → Except Error (List UInt8)
  | high :: low :: text =>
    match value? high, value? low with
    | none, _ => .error (.invalidDigit high position)
    | _, none => .error (.invalidDigit low (position + 1))
    | some h, some l => ((16 * h + l) :: ·) <$> decodePairs (position + 2) text
  | _ => .ok []

/-- The bytes of a hexadecimal text, which is given as bytes. -/
def decode (text : List UInt8) : Except Error (List UInt8) :=
  if text.length % 2 = 1 then .error .oddLength else decodePairs 0 text

end DrillCode.Text.Hex
