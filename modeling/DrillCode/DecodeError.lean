/-! # Why a payload cannot be read

The causes for which reading a payload stops, and their texts. -/

namespace DrillCode

/-- Why reading bits of a payload failed. -/
inductive DecodeError where
  /-- The bits ran out when the bit at `position` was asked for. -/
  | endOfData (position : Nat)
  /-- A fixed-width number of `width` bits was asked for, outside 1 to 32. -/
  | invalidWidth (width : Nat)
  /-- A header entry starts with a marker that no entry has. -/
  | malformedHeader (marker : Nat)
  /-- A string starts with a selector that no encoding has. -/
  | malformedEncoding (selector : Nat)
  /-- An integer code announces `bits` bits, more than 64. -/
  | integerOverflow (bits : Nat)
  deriving DecidableEq, Repr

namespace DecodeError

def isEndOfData : DecodeError → Bool
  | endOfData _ => true
  | _ => false

/-- A number below four in two binary digits. -/
def twoBinaryDigits (n : Nat) : String :=
  "0b" ++ toString (n / 2 % 2) ++ toString (n % 2)

def message : DecodeError → String
  | endOfData position => "unexpected end of data at bit " ++ toString position
  | invalidWidth width => "bit width " ++ toString width ++ " outside 1..=32"
  | malformedHeader marker => "malformed header marker " ++ twoBinaryDigits marker
  | malformedEncoding selector => "malformed string encoding selector " ++ twoBinaryDigits selector
  | integerOverflow bits => "integer code too long (" ++ toString bits ++ " bits)"

end DecodeError
end DrillCode
