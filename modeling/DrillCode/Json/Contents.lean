import DrillCode.Json.Reader
import DrillCode.Payload.Contents

/-! # Contents of a payload in JSON

Labels and generators are objects whose fields keep their order. A tag is its name, also where it stands
as the only name of an object with the value null. -/

namespace DrillCode
open Json (Value)

namespace Tag

def toJson (tag : Tag) : Value := .text tag.name

def ofJson? : Value → Option Tag
  | .string (some name) => ofName? name
  | .object [(some name, .null)] => ofName? name
  | _ => none

def listToJson (tags : List Tag) : Value := .array (tags.map toJson)

def listOfJson? : Value → Option (List Tag) := Value.list? ofJson?

end Tag

namespace Range

def toJson (range : Range) : Value :=
  .record [("min", .int range.min.toInt), ("max", .int range.max.toInt)]

def ofJson? (v : Value) : Option Range := do
  match ← v.record? ["min", "max"] with
  | [some min, some max] => pure ⟨← min.int?, ← max.int?⟩
  | _ => none

end Range

namespace Solution

def toJson (s : Solution) : Value :=
  .record [("question", .text s.question), ("steps", .text s.steps), ("tags", Tag.listToJson s.tags)]

def ofJson? (v : Value) : Option Solution := do
  match ← v.record? ["question", "steps", "tags"] with
  | [some question, some steps, some tags] =>
    pure ⟨← question.text?, ← steps.text?, ← Tag.listOfJson? tags⟩
  | _ => none

end Solution

namespace Exercise

def toJson (e : Exercise) : Value :=
  .record [("expression", .text e.expression), ("tags", Tag.listToJson e.tags)]

def ofJson? (v : Value) : Option Exercise := do
  match ← v.record? ["expression", "tags"] with
  | [some expression, some tags] => pure ⟨← expression.text?, ← Tag.listOfJson? tags⟩
  | _ => none

end Exercise

namespace Contents

def toJson (c : Contents) : Value :=
  .record [
    ("labels", .record (c.labels.entries.map fun entry => (entry.1.name, .text entry.2))),
    ("rand_generators", .record (c.generators.entries.map fun entry => (entry.1, entry.2.toJson))),
    ("solutions", .array (c.solutions.map Solution.toJson)),
    ("exercises", .array (c.exercises.map Exercise.toJson))]

def ofJson? (v : Value) : Option Contents := do
  match ← v.record? ["labels", "rand_generators", "solutions", "exercises"] with
  | [some labels, some generators, some solutions, some exercises] =>
    pure {
      labels := ← labels.map? Tag.ofName? Value.text?
      generators := ← generators.map? some Range.ofJson?
      solutions := ← solutions.list? Solution.ofJson?
      exercises := ← exercises.list? Exercise.ofJson? }
  | _ => none

end Contents
end DrillCode
