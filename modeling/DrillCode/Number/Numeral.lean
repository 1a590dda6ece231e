import DrillCode.Number.Shortest

/-! # Numerals

A numeral is a number as it is written in tens: a sign, the digits before the point, those behind it,
and an exponent. A `Layout` says how a floating-point number becomes a numeral. -/

namespace DrillCode

abbrev Digit := Fin 10

namespace Digit

def zero : Digit := ⟨0, by decide⟩

def char (d : Digit) : Char :=
  Char.ofNat (48 + d.val)

def ofChar? (c : Char) : Option Digit :=
  if h : 48 ≤ c.toNat ∧ c.toNat < 58 then some ⟨c.toNat - 48, by omega⟩ else none

/-- The last `width` digits of a number. -/
def last : (width : Nat) → (n : Nat) → List Digit
  | 0, _ => []
  | width + 1, n => last width (n / 10) ++ [Fin.ofNat 10 n]

/-- The number that digits spell after a number `n`. -/
def append (n : Nat) (digits : List Digit) : Nat :=
  digits.foldl (fun n d => 10 * n + d.val) n

end Digit

def digitCount (n : Nat) : Nat :=
  (Nat.toDigits 10 n).length

/-- A number written in tens. -/
structure Numeral where
  negative : Bool
  /-- The number before the point. -/
  whole : Nat
  /-- The digits behind the point; without any there is no point. -/
  fraction : List Digit
  exponent : Option Int
  deriving DecidableEq, Repr

namespace Numeral

/-- The text of an exponent; `plus` says whether a positive one has a sign. -/
def exponentText (plus : Bool) (e : Int) : List Char :=
  'e' :: (if e < 0 then ['-'] else if plus then ['+'] else []) ++ Nat.toDigits 10 e.natAbs

/-- The text of a numeral; `plus` says whether a positive exponent has a sign. -/
def text (plus : Bool) (n : Numeral) : List Char :=
  (if n.negative then ['-'] else []) ++ Nat.toDigits 10 n.whole ++
    (if n.fraction.isEmpty then [] else '.' :: n.fraction.map Digit.char) ++
    (n.exponent.elim [] (exponentText plus))

/-- The number `c * 10 ^ k` without an exponent; `point` asks for a digit behind the point. -/
def positional (negative point : Bool) (c : Nat) (k : Int) : Numeral :=
  if 0 ≤ k then ⟨negative, c * 10 ^ k.toNat, if point then [Digit.zero] else [], none⟩
  else
    let width := (-k).toNat
    ⟨negative, c / 10 ^ width, Digit.last width c, none⟩

/-- The number `c * 10 ^ k` with one digit before the point and an exponent. -/
def scientific (negative : Bool) (c : Nat) (k : Int) : Numeral :=
  let width := digitCount c - 1
  ⟨negative, c / 10 ^ width, Digit.last width c, some (k + width)⟩

end Numeral

/-- How floating-point numbers are written. -/
structure Layout where
  /-- Which of two equally near shortest decimals is taken. -/
  tie : Shortest.Tie
  /-- The exponents of the first digit for which a number is written without an exponent. -/
  isPositional : Int → Bool
  /-- A whole number has a zero behind the point. -/
  point : Bool

namespace Layout

/-- The numeral of a number `m * 2 ^ q`. -/
def numeral (layout : Layout) (negative : Bool) (m : Nat) (q : Int) : Numeral :=
  if m = 0 then Numeral.positional negative layout.point 0 0
  else
    let (c, k) := Shortest.decimal layout.tie m q
    if layout.isPositional (k + digitCount c - 1) then Numeral.positional negative layout.point c k
    else Numeral.scientific negative c k

def text (layout : Layout) (x : Float) : String :=
  match Binary64.value x with
  | .nan => "NaN"
  | .infinite negative => if negative then "-inf" else "inf"
  | .finite negative m q => String.ofList ((layout.numeral negative m q).text false)

/-- Numbers are written without exponents and whole ones without a point. -/
def plain : Layout := ⟨.up, fun _ => true, false⟩

end Layout

/-- The text of a floating-point number without an exponent. -/
def plainText (x : Float) : String :=
  Layout.plain.text x

end DrillCode
