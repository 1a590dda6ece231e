import DrillCode.Bits.Elias
import DrillCode.Payload.Contents

/-! # Drawing numbers

Numbers are drawn from a supply of random 64-bit words. To choose among `span` numbers, a word is taken
as a fraction of `2 ^ 64` and multiplied by `span`; the whole part is the choice. Words whose product
leaves too large a rest are passed over, so that all choices are equally likely. Behind the last word of
a supply every word is zero. -/

namespace DrillCode

/-- A supply of random words, with the number of words that were taken from it. -/
structure WordSupply where
  words : List UInt64
  taken : Nat
  deriving DecidableEq

/-- A computation that draws from a supply of words. -/
abbrev Draw (α : Type) := StateM WordSupply α

namespace WordSupply

/-- The largest rest that a word may leave: the product of `span` and a power of two that fills 64 bits,
    less one. -/
def zone (span : Nat) : Nat :=
  span * 2 ^ (64 - Elias.width span) - 1

/-- The choice that a word makes among `span` numbers. -/
def choice? (span word : Nat) : Option Nat :=
  if word * span % wordCount ≤ zone span then some (word * span / wordCount) else none

/-- Chooses among `span` numbers with the first of some words that makes a choice; zero makes the choice
    zero. -/
def chooseFrom (span : Nat) : (words : List UInt64) → (taken : Nat) → Nat × WordSupply
  | [], taken => (0, ⟨[], taken + 1⟩)
  | word :: words, taken =>
    match choice? span word.toNat with
    | some n => (n, ⟨words, taken + 1⟩)
    | none => chooseFrom span words (taken + 1)

end WordSupply

namespace Draw

def word : Draw UInt64 := fun s =>
  (s.words.headD 0, ⟨s.words.tail, s.taken + 1⟩)

/-- Draws a number below `span`, which is positive and below `2 ^ 64`. -/
def below (span : Nat) : Draw Nat := fun s =>
  WordSupply.chooseFrom span s.words s.taken

/-- Draws a number from `low` to `high`, of which the second is not smaller. All 64-bit integers are as
    many as there are words, and each word is one of them. -/
def between (low high : Int) : Draw Int64 := do
  let span := (high - low + 1).toNat
  if span = wordCount then
    let w ← word
    pure w.toInt64
  else
    let n ← below span
    pure (.ofInt (low + n))

end Draw

namespace Range

def low (range : Range) : Int :=
  Min.min range.min.toInt range.max.toInt

def high (range : Range) : Int :=
  Max.max range.min.toInt range.max.toInt

def draw (range : Range) : Draw Int64 :=
  Draw.between range.low range.high

end Range
end DrillCode
