import DrillCode.OrderedMap
import DrillCode.Tag

/-! # Contents of a payload

What a payload carries: texts to show for the kinds of practice, ranges to draw variables from, worked
solutions and exercise templates. Labels and generators keep their order, in which their names are later
replaced in a template. -/

namespace DrillCode

/-- The bounds of a variable, both included; they may be given in either order. -/
structure Range where
  min : Int64
  max : Int64
  deriving DecidableEq, Repr

/-- A worked question with its steps. -/
structure Solution where
  question : String
  steps : String
  tags : List Tag
  deriving DecidableEq, Repr

/-- A template of an expression or equation, with a question before it if that is followed by a colon
    and a space. -/
structure Exercise where
  expression : String
  tags : List Tag
  deriving DecidableEq, Repr

/-- What a payload carries. -/
structure Contents where
  labels : OrderedMap Tag String
  generators : OrderedMap String Range
  solutions : List Solution
  exercises : List Exercise
  deriving DecidableEq

namespace Contents

def empty : Contents := ⟨.empty, .empty, [], []⟩

def isEmpty (c : Contents) : Bool :=
  c.labels.isEmpty && c.generators.isEmpty && c.solutions.isEmpty && c.exercises.isEmpty

end Contents
end DrillCode
