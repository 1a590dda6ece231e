import DrillCode.Tag

/-! # Choosing what to practise

Which exercises a selection of tags takes, which tags are offered, and which of them a solution leads
to. Lists of tags count as sets. -/

namespace DrillCode.Tag

def areOnly (tag : Tag) (tags : List Tag) : Bool :=
  !tags.isEmpty && tags.all fun t => t == tag

/-- An exercise with these tags has one that is selected. -/
def matchesAny (tags selected : List Tag) : Bool :=
  tags.any fun tag => selected.contains tag

/-- A selection takes an exercise with these tags. Addition alone takes only exercises that are nothing
    else. -/
def matchesSelection (tags selected : List Tag) : Bool :=
  if plus.areOnly selected then plus.areOnly tags else matchesAny tags selected

/-- All tags in the order of their names. -/
def byName : List Tag := [minus, moreOperands, plus, star]

/-- The tags that are offered where solutions have these tags: those, addition and subtraction, and more
    operands along with any third tag. -/
def offered (tags : List Tag) : List Tag :=
  let known := all.filter fun tag => tag == plus || tag == minus || tags.contains tag
  byName.filter fun tag => known.contains tag || (tag == moreOperands && 2 < known.length)

/-- The tag to practise after a solution with these tags: more operands if they are named or if there are
    two operators, else the operator there is. -/
def primary? (tags : List Tag) : Option Tag :=
  let operators := [star, minus, plus].filter fun tag => tags.contains tag
  if 2 ≤ operators.length || tags.contains moreOperands then some moreOperands else operators.head?

end DrillCode.Tag
