import DrillCode.OrderedMap
import DrillCode.Tag
import DrillCode.Text.Replace
import DrillCode.Text.Space

/-! # Templates

An exercise becomes a problem by putting labels and then values in the places of their names, one name after
the other in the order of their map. What is in front of the first colon and space is a question; of an
equation only the left side is computed, and the question asks for the right one. -/

namespace DrillCode

abbrev Variables := OrderedMap String Int64

namespace Template

/-- The text with the labels in the places of their placeholders. -/
def substituteLabels (labels : OrderedMap Tag String) (text : List Char) : List Char :=
  labels.entries.foldl
    (fun text entry => Text.replace entry.1.placeholder.toList entry.2.toList text) text

def valueText (value : Int64) : List Char :=
  (toString value.toInt).toList

/-- The text with the values in the places of the variables. -/
def substituteVariables (values : Variables) (text : List Char) : List Char :=
  values.entries.foldl
    (fun text entry => Text.replace entry.1.toList (valueText entry.2) text) text

/-- The left side of a text with exactly one equals sign. -/
def leftSide? (text : List Char) : Option (List Char) :=
  match text.splitOn '=' with
  | [left, _] => some (Text.trim left)
  | _ => none

end Template

/-- What is asked and what is computed. -/
structure Prompt where
  question : Option String
  math : String
  deriving DecidableEq, Repr

namespace Prompt

/-- The question for the right side of an equation. -/
def unknownRight (left : List Char) : List Char :=
  left ++ " = ?".toList

/-- Splits a text into a question and an expression. -/
def ofText (text : List Char) : Prompt :=
  match Text.splitOnce ": ".toList text with
  | some (question, rest) =>
    match Template.leftSide? rest with
    | some left =>
      ⟨some (String.ofList (question ++ ": ".toList ++ unknownRight left)), String.ofList left⟩
    | none => ⟨some (String.ofList question), String.ofList rest⟩
  | none =>
    match Template.leftSide? text with
    | some left => ⟨some (String.ofList (unknownRight left)), String.ofList left⟩
    | none => ⟨none, String.ofList text⟩

end Prompt
end DrillCode
