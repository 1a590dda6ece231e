/-! # Tags

The four kinds of practice. A tag names a kind of exercise, a label gives it a text to show. -/

namespace DrillCode

/-- A kind of practice, in the order in which kinds are compared. -/
inductive Tag where
  | minus
  | plus
  | star
  | moreOperands
  deriving DecidableEq, Repr

namespace Tag

def all : List Tag := [minus, plus, star, moreOperands]

/-- The two-bit number of a kind among labels. -/
def labelCode : Tag → Nat
  | minus => 0
  | plus => 1
  | star => 2
  | moreOperands => 3

/-- The kind whose number among labels is the given one, of which the low two bits count. -/
def ofLabelCode (n : Nat) : Tag :=
  match n % 4 with
  | 0 => minus
  | 1 => plus
  | 2 => star
  | _ => moreOperands

/-- The kind whose number among labels is the given one. -/
def ofLabelCode? (n : Nat) : Option Tag :=
  if n < 4 then some (ofLabelCode n) else none

/-- The three-bit number of a kind in a list of tags, where 0 ends the list. -/
def listCode (tag : Tag) : Nat :=
  tag.labelCode + 1

/-- The kind with the given number in a list of tags. -/
def ofListCode? : Nat → Option Tag
  | 0 => none
  | n + 1 => ofLabelCode? n

def name : Tag → String
  | minus => "MINUS"
  | plus => "PLUS"
  | star => "STAR"
  | moreOperands => "MORE_OPERANDS"

/-- The word in an exercise that a kind's label replaces. -/
def placeholder : Tag → String
  | minus => "minus"
  | plus => "plus"
  | star => "star"
  | moreOperands => "more_operands"

def ofName? (s : String) : Option Tag :=
  all.find? fun tag => tag.name == s

/-- The kind of the given name, in which ASCII letters of either case count as the same. -/
def parse? (s : String) : Option Tag :=
  all.find? fun tag => tag.name.toList.map Char.toLower == s.toList.map Char.toLower

end Tag
end DrillCode
