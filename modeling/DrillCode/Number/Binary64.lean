import DrillCode.Number.Power

/-! # Values of 64-bit floating-point numbers

What number the bits of a `Float` stand for: a signed whole number of units `2 ^ q`, an infinity, or no
number. -/

namespace DrillCode.Binary64

inductive Value where
  | nan
  | infinite (negative : Bool)
  /-- The number `m * 2 ^ q`, with its sign. -/
  | finite (negative : Bool) (m : Nat) (q : Int)
  deriving DecidableEq, Repr

/-- The exponent of the unit in which the smallest numbers are counted. -/
def minExponent : Int := -1074

/-- How many fractions there are, and the lowest number `m` that is not among the smallest. -/
def fractionCount : Nat := 2 ^ (52 : Nat)

/-- The value that a bit pattern stands for: a sign, eleven bits of exponent and 52 of fraction. -/
def valueOfBits (bits : Nat) : Value :=
  let negative := bits.testBit 63
  let exponent : Nat := bits / fractionCount % 2048
  let fraction : Nat := bits % fractionCount
  if exponent = 2047 then
    if fraction = 0 then .infinite negative else .nan
  else if exponent = 0 then .finite negative fraction minExponent
  else .finite negative (fractionCount + fraction) ((exponent : Int) - 1075)

def value (x : Float) : Value :=
  valueOfBits x.toBits.toNat

end DrillCode.Binary64
