import DrillCode.Formula.Compile
import DrillCode.Machine.Run
import DrillCode.Payload.Decode
import DrillCode.Practice.Choice
import DrillCode.Practice.Draw
import DrillCode.Practice.Template

/-! # Practice sessions

A session holds the contents of a payload and the values that were drawn last for its variables. It runs
expressions with these values in the places of the variables, makes problems of its exercises with values
drawn anew, and compares answers with what the expression of a problem gives. -/

namespace DrillCode

/-- How a payload is read and how its programs are run. -/
structure Settings where
  payload : PayloadSettings
  machine : MachineSettings
  deriving DecidableEq

namespace Settings

/-- The settings where nothing else is asked for. -/
def standard : Settings := ⟨.standard, .standard⟩

end Settings

/-- Why a session gives no result. -/
inductive SessionError where
  | decode (error : DecodeError)
  | compile (error : Formula.CompileError)
  deriving DecidableEq, Repr

namespace SessionError

def message : SessionError → String
  | decode error => "decode: " ++ error.message
  | compile error => "compile: " ++ error.message

end SessionError

/-- What came of an expression: it is no formula, or it was compiled and run. -/
inductive Trial where
  | rejected (error : Formula.CompileError)
  | ran (program : Program) (execution : Execution)

structure Report where
  id : Nat
  expression : String
  trial : Trial

namespace Report

/-- The expression with the values of its variables; one that is no formula is left as it was given. -/
def substituted (r : Report) : String :=
  match r.trial with
  | .rejected _ => r.expression
  | .ran program _ => program.source

/-- The expression was run without a fault. -/
def isValid (r : Report) : Bool :=
  match r.trial with
  | .rejected _ => false
  | .ran _ execution => execution.isSuccess

def evaluation? (r : Report) : Option Evaluation :=
  match r.trial with
  | .rejected _ => none
  | .ran _ execution => execution.evaluation?

/-- The value of the expression, unless it is an equation. -/
def value? (r : Report) : Option Float :=
  match r.trial with
  | .rejected _ => none
  | .ran _ execution => execution.value?

def error? (r : Report) : Option String :=
  match r.trial with
  | .rejected error => some (SessionError.compile error).message
  | .ran _ execution => execution.fault?.map Fault.message

def steps (r : Report) : Nat :=
  match r.trial with
  | .rejected _ => 0
  | .ran _ execution => execution.steps

def disassembly? (r : Report) : Option String :=
  match r.trial with
  | .rejected _ => none
  | .ran program _ => some program.disassembly

/-- The numbers left on the stack, topmost last. -/
def stack (r : Report) : List Float :=
  match r.trial with
  | .rejected _ => []
  | .ran _ execution => execution.stack

end Report

/-- A problem made of an exercise, with the values that were drawn for it. -/
structure Problem where
  id : Nat
  template : String
  /-- The template with labels and values. -/
  processed : String
  question : Option String
  /-- The expression whose value is the answer. -/
  math : String
  tags : List Tag
  values : Variables
  deriving DecidableEq

/-- How an answer compares: with the value of an expression, or not at all. -/
inductive Comparison where
  | compared (math : String) (value : Float) (isCorrect : Bool)
  | failed (reason : String)
  deriving DecidableEq

/-- What came of checking an answer. -/
structure Verification where
  answer : Float
  steps : Nat
  comparison : Comparison
  deriving DecidableEq

namespace Verification

def isCorrect (v : Verification) : Bool :=
  match v.comparison with
  | .compared _ _ isCorrect => isCorrect
  | .failed _ => false

/-- The correct answer; no number where there is none. -/
def correctAnswer (v : Verification) : Float :=
  match v.comparison with
  | .compared _ value _ => value
  | .failed _ => Reading.notANumber

/-- How the correct answer was found. -/
def debug? (v : Verification) : Option String :=
  match v.comparison with
  | .compared math value _ => some ("VM: " ++ math ++ " = " ++ plainText value)
  | .failed _ => none

/-- Why there is no correct answer. -/
def error? (v : Verification) : Option String :=
  match v.comparison with
  | .compared _ _ _ => none
  | .failed reason => some reason

end Verification

/-- The contents of a payload, how to treat them, and the values that were drawn last. -/
structure Session where
  contents : Contents
  settings : Settings
  values : Variables
  deriving DecidableEq

namespace Session

def new (contents : Contents) (settings : Settings) : Session :=
  ⟨contents, settings, .empty⟩

def ofPayload (bytes : List UInt8) (settings : Settings) : Except SessionError Session :=
  match Contents.decode settings.payload bytes with
  | .ok contents => .ok (new contents settings)
  | .error e => .error (.decode e)

/-- Compiles an expression as it is given. -/
def compile (expression : String) : Except SessionError Program :=
  match Formula.compile expression with
  | .ok program => .ok program
  | .error e => .error (.compile e)

/-! ### Drawing -/

/-- Draws values for generators. -/
def drawValues : (generators : List (String × Range)) → Draw (List (String × Int64))
  | [] => pure []
  | (name, range) :: generators => do
    let value ← range.draw
    let values ← drawValues generators
    pure ((name, value) :: values)

def reroll (s : Session) : Draw Session := do
  let values ← drawValues s.contents.generators.entries
  pure { s with values := .ofList values }

/-! ### Running expressions -/

def bindings (s : Session) : Bindings :=
  s.values.mapValues fun value => Float.ofInt value.toInt

/-- Runs an expression with the values in the places of the variables. -/
def trial (s : Session) (expression : String) : Trial :=
  match Formula.compile (String.ofList (Template.substituteVariables s.values expression.toList)) with
  | .error e => .rejected e
  | .ok program => .ran program (program.execute s.settings.machine s.bindings)

def test (s : Session) (expression : String) : Report :=
  ⟨0, expression, s.trial expression⟩

def reportsFrom (s : Session) (id : Nat) : (exercises : List Exercise) → List Report
  | [] => []
  | e :: exercises => ⟨id, e.expression, s.trial e.expression⟩ :: reportsFrom s (id + 1) exercises

def execute (s : Session) : List Report :=
  s.reportsFrom 1 s.contents.exercises

/-! ### Problems -/

def problem (s : Session) (id : Nat) (e : Exercise) : Problem :=
  let labelled := Template.substituteLabels s.contents.labels e.expression.toList
  let processed := Template.substituteVariables s.values labelled
  let prompt := Prompt.ofText processed
  ⟨id, e.expression, String.ofList processed, prompt.question, prompt.math, e.tags, s.values⟩

def problemsFrom (s : Session) (id : Nat) : (exercises : List Exercise) → List Problem
  | [] => []
  | e :: exercises => s.problem id e :: problemsFrom s (id + 1) exercises

/-- The problems of the exercises whose tags are wanted. -/
def problems (s : Session) (wanted : List Tag → Bool) : List Problem :=
  s.problemsFrom 1 (s.contents.exercises.filter fun e => wanted e.tags)

/-- Draws all variables anew and makes the problems that a selection takes. -/
def problemsByTag (s : Session) (selected : List Tag) : Draw (Session × List Problem) := do
  let s ← s.reroll
  pure (s, s.problems fun tags => Tag.matchesSelection tags selected)

/-- Draws all variables anew and makes the problems with any of the selected tags. -/
def newProblems (s : Session) (selected : List Tag) : Draw (Session × List Problem) := do
  let s ← s.reroll
  pure (s, s.problems fun tags => Tag.matchesAny tags selected)

/-- Draws all variables anew and then one of the problems that a tag takes. -/
def oneProblem (s : Session) (tag : Tag) : Draw (Session × Option Problem) := do
  let (s, problems) ← s.problemsByTag [tag]
  if problems.isEmpty then pure (s, none)
  else do
    let pick ← Draw.below problems.length
    pure (s, problems[pick]?)

/-! ### Answers -/

/-- Compares an answer with the value of an expression. -/
def verifyExpression (s : Session) (answer : Float) (math : String) : Verification :=
  let report := s.test math
  { answer
    steps := report.steps
    comparison := match report.evaluation? with
      | some (.expression value) =>
        .compared math value ((answer - value).abs < s.settings.machine.tolerance)
      | _ => .failed ("VM calculation failed: " ++ report.error?.getD "unknown error") }

/-- Compares an answer with the value of a problem's expression. -/
def verify (s : Session) (answer : Float) (problem : Problem) : Verification :=
  s.verifyExpression answer problem.math

end Session
end DrillCode
