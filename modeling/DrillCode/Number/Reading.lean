import DrillCode.Number.Numeral

/-! # Reading decimal text

A decimal text is read as the floating-point number nearest to it. It has an optional sign, digits with
at most one point among or around them, and an optional exponent; the words for infinity and for no
number are read as well, in letters of either case. -/

namespace DrillCode.Reading

/-- The floating-point number that is greater than all others. -/
def infinity : Float := Float.ofBits 0x7FF0000000000000

def notANumber : Float := Float.ofBits 0x7FF8000000000000

/-- The floating-point number nearest to `m * 10 ^ e`. From `10 ^ 310` on that is infinity, and below
    `10 ^ (-330)` zero. -/
def nearest (m : Nat) (e : Int) : Float :=
  if m = 0 then Float.ofScientific 0 false 0
  else if 310 < e + digitCount m then infinity
  else if e + digitCount m < -330 then Float.ofScientific 0 false 0
  else Float.ofScientific m (decide (e < 0)) e.natAbs

def isDigit (c : Char) : Bool :=
  (Digit.ofChar? c).isSome

def numberOf (text : List Char) : Nat :=
  Digit.append 0 (text.filterMap Digit.ofChar?)

/-- A sign and what follows it; without a sign a number is not negative. -/
def splitSign : (text : List Char) → Bool × List Char
  | '-' :: rest => (true, rest)
  | '+' :: rest => (false, rest)
  | text => (false, text)

/-- The exponent that a text is; the empty text is zero. -/
def exponent? : (text : List Char) → Option Int
  | [] => some 0
  | mark :: rest =>
    let (negative, digits) := splitSign rest
    if (mark == 'e' || mark == 'E') && !digits.isEmpty && digits.all isDigit then
      some (if negative then -(numberOf digits : Int) else numberOf digits)
    else none

/-- The digits before the point, those behind it, and the rest of a text. -/
def splitPoint (text : List Char) : List Char × List Char × List Char :=
  let whole := text.takeWhile isDigit
  match text.dropWhile isDigit with
  | '.' :: rest => (whole, rest.takeWhile isDigit, rest.dropWhile isDigit)
  | rest => (whole, [], rest)

/-- The number that a text without a sign is. -/
def decimal? (text : List Char) : Option Float :=
  let (whole, fraction, rest) := splitPoint text
  if whole.isEmpty && fraction.isEmpty then none
  else (exponent? rest).map fun e => nearest (numberOf (whole ++ fraction)) (e - fraction.length)

/-- The number that a word is. -/
def word? (text : List Char) : Option Float :=
  let word := String.ofList (text.map Char.toLower)
  if word == "inf" || word == "infinity" then some infinity
  else if word == "nan" then some notANumber
  else none

def number? (text : List Char) : Option Float :=
  let (negative, body) := splitSign text
  ((word? body).or (decimal? body)).map fun x => if negative then -x else x

end DrillCode.Reading
