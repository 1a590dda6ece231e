import DrillCode.Json.Contents
import DrillCode.Json.Parser
import DrillCode.Json.Program
import DrillCode.Practice.Session

/-! # Settings, problems and reports in JSON

Settings that are not given keep their standard values. Fields without a value are left out of reports,
but not out of problems. -/

namespace DrillCode
open Json (Value)

namespace PayloadSettings

def toJson (s : PayloadSettings) : Value :=
  .record [("header_offset_bits", .nat s.headerOffset), ("expression_char_cap", .nat s.expressionCap)]

def ofJson? (v : Value) : Option PayloadSettings := do
  match ← v.partial? ["header_offset_bits", "expression_char_cap"] with
  | [offset, cap] =>
    pure {
      headerOffset := ← offset.elim (some standard.headerOffset) Value.nat?
      expressionCap := ← cap.elim (some standard.expressionCap) Value.nat? }
  | _ => none

end PayloadSettings

namespace MachineSettings

def toJson (s : MachineSettings) : Value :=
  .record [("step_limit", .nat s.stepLimit), ("tolerance", .float s.tolerance)]

def ofJson? (v : Value) : Option MachineSettings := do
  match ← v.partial? ["step_limit", "tolerance"] with
  | [limit, tolerance] =>
    pure {
      stepLimit := ← limit.elim (some standard.stepLimit) Value.nat?
      tolerance := ← tolerance.elim (some standard.tolerance) Value.float? }
  | _ => none

end MachineSettings

namespace Settings

def toJson (s : Settings) : Value :=
  .record [("decoder", s.payload.toJson), ("vm", s.machine.toJson)]

def ofJson? (v : Value) : Option Settings := do
  match ← v.partial? ["decoder", "vm"] with
  | [payload, machine] =>
    pure {
      payload := ← payload.elim (some .standard) PayloadSettings.ofJson?
      machine := ← machine.elim (some .standard) MachineSettings.ofJson? }
  | _ => none

def ofText? (text : String) : Option Settings := do
  ofJson? (← Json.parse? text.toList)

end Settings

def Variables.toJson (values : Variables) : Value :=
  .record (values.entries.map fun entry => (entry.1, .int entry.2.toInt))

namespace Problem

def toJson (p : Problem) : Value :=
  .record [
    ("id", .nat p.id),
    ("original_expression", .text p.template),
    ("processed_expression", .text p.processed),
    ("question_text", p.question.elim .null .text),
    ("math_expression", .text p.math),
    ("tags", Tag.listToJson p.tags),
    ("variables", Variables.toJson p.values)]

/-- Reads a question, which may be missing. -/
def questionOfJson? : Option Value → Option (Option String)
  | none | some .null => some none
  | some v => v.text?.map some

def ofJson? (v : Value) : Option Problem := do
  match ← v.record? ["id", "original_expression", "processed_expression", "question_text",
      "math_expression", "tags", "variables"] with
  | [some id, some template, some processed, question, some math, some tags, some values] =>
    pure {
      id := ← id.nat?
      template := ← template.text?
      processed := ← processed.text?
      question := ← questionOfJson? question
      math := ← math.text?
      tags := ← Tag.listOfJson? tags
      values := ← values.map? some Value.int? }
  | _ => none

end Problem

/-- A field that is left out where it has no value. -/
def optionalField (name : String) (value : Option Value) : List (String × Value) :=
  (value.map fun v => (name, v)).toList

def Report.toJson (r : Report) : Value :=
  .record (
    [("id", .nat r.id),
      ("original_expression", .text r.expression),
      ("substituted_expression", .text r.substituted),
      ("is_valid", .bool r.isValid)] ++
    optionalField "evaluation" (r.evaluation?.map Evaluation.toJson) ++
    optionalField "error" (r.error?.map .text) ++
    [("steps", .nat r.steps)] ++
    optionalField "disassembly" (r.disassembly?.map .text) ++
    [("final_stack", .array (r.stack.map .float))])

/-- What came of checking an answer, in JSON. -/
def Verification.toJson (v : Verification) : Value :=
  .record (
    [("is_correct", .bool v.isCorrect),
      ("correct_answer", .float v.correctAnswer),
      ("user_answer", .float v.answer),
      ("steps", .nat v.steps)] ++
    optionalField "debug_info" (v.debug?.map .text) ++
    optionalField "error" (v.error?.map .text))

end DrillCode
