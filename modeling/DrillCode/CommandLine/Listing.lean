import DrillCode.Practice.Session

/-! # Listings

What a payload holds, what its exercises give and which problems they make, as lines of text. -/

namespace DrillCode

namespace Tag

def bracketed (tags : List Tag) : String :=
  "[" ++ String.intercalate ", " (tags.map name) ++ "]"

/-- A list of tags with the tag to practise after them. -/
def listing (tags : List Tag) : String :=
  match primary? tags with
  | some tag => bracketed tags ++ " → " ++ tag.name
  | none => bracketed tags

end Tag

namespace Listing

def mark (n : Nat) : String :=
  "#" ++ toString n

/-- A name with spaces behind it up to fourteen places. -/
def padded (name : String) : String :=
  name ++ String.ofList (List.replicate (14 - name.length) ' ')

/-- A heading over lines, unless there are none. -/
def headed (heading : String) (lines : List String) : List String :=
  if lines.isEmpty then [] else heading :: lines

/-- Floating-point numbers are written without an exponent from `10 ^ (-4)` up to `10 ^ 16`, and whole
    ones with a zero behind the point. -/
def layout : Layout :=
  ⟨.up, fun e => -4 ≤ e && e < 16, true⟩

def stackText (numbers : List Float) : String :=
  "[" ++ String.intercalate ", " (numbers.map layout.text) ++ "]"

end Listing

open Listing

namespace Contents

/-- Lines on the solutions, which are numbered from `n` on. -/
def solutionLines (n : Nat) : (solutions : List Solution) → List String
  | [] => []
  | s :: solutions =>
    ("  " ++ mark n ++ " " ++ s.question ++ " " ++ Tag.listing s.tags) :: ("     " ++ s.steps) ::
      solutionLines (n + 1) solutions

def exerciseLines (n : Nat) : (exercises : List Exercise) → List String
  | [] => []
  | e :: exercises =>
    ("  " ++ mark n ++ " " ++ e.expression ++ " " ++ Tag.listing e.tags) :: exerciseLines (n + 1) exercises

/-- The lines on what a payload holds, and on what can be practised with it. -/
def listing (c : Contents) : List String :=
  headed "Labels:" (c.labels.entries.map fun entry => "  " ++ padded entry.1.name ++ " " ++ entry.2) ++
    headed "Variables:" (c.generators.entries.map fun entry =>
      "  " ++ padded entry.1 ++ " [" ++ toString entry.2.min.toInt ++ ", " ++
        toString entry.2.max.toInt ++ "]") ++
    headed "Solutions:" (solutionLines 1 c.solutions) ++
    headed "Exercises:" (exerciseLines 1 c.exercises) ++
    ["Practice: " ++ String.intercalate ", "
      ((Tag.offered (c.solutions.flatMap Solution.tags)).map Tag.name)]

end Contents

def Variables.listing (values : Variables) : List String :=
  values.entries.map fun entry => "var " ++ entry.1 ++ " = " ++ toString entry.2.toInt

def Evaluation.text : Evaluation → String
  | equation isEqual => if isEqual then "true" else "false"
  | expression value => plainText value

namespace Report

/-- The line on what an expression gives. -/
def outcomeLine (r : Report) : List String :=
  match r.evaluation?, r.error? with
  | some (.expression value), _ => ["  value  " ++ plainText value]
  | some (.equation isEqual), _ => ["  equal  " ++ (Evaluation.equation isEqual).text]
  | none, some error => ["  error  " ++ error]
  | none, none => []

def programLines (r : Report) : List String :=
  match r.trial with
  | .rejected _ => []
  | .ran program _ => program.lines.map fun line => "    " ++ line

def listing (r : Report) : List String :=
  ["", mark r.id ++ (if r.isValid then " OK " else " ERR ") ++ r.expression] ++
    (if r.substituted = r.expression then [] else ["  as     " ++ r.substituted]) ++
    r.outcomeLine ++
    ["  steps  " ++ toString r.steps ++ " " ++ stackText r.stack] ++
    r.programLines

end Report

def Problem.listing (p : Problem) : List String :=
  [mark p.id ++ " " ++ p.question.getD p.math, "   compute " ++ p.math]

def Verification.listing (v : Verification) : String :=
  match v.comparison with
  | .failed reason => "FAILED " ++ reason
  | .compared _ value isCorrect =>
    if isCorrect then "CORRECT " ++ plainText value
    else "WRONG expected " ++ plainText value ++ ", got " ++ plainText v.answer

end DrillCode
