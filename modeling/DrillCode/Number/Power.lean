/-! # Powers of natural numbers

A power of natural numbers or of integers is the one that these numbers bring along, also where powers
of other things are known. -/

namespace DrillCode

attribute [scoped instance (high)] instPowNat

/-- How many words of 64 bits there are. -/
def wordCount : Nat := 2 ^ (64 : Nat)

end DrillCode
