import DrillCode.Json.Reader
import DrillCode.Machine.Run

/-! # Programs and their results in JSON

An instruction without an operand is its name, also where it stands as the only name of an object with
the value null; one with an operand is an object with its name and the operand. What a program computes
is an object that tells its kind. -/

namespace DrillCode
open Json (Value)

namespace Instruction

/-- The instructions without an operand and their names. -/
def plainNames : List (String × Instruction) :=
  [("Pop", pop), ("Dup", dup), ("Swap", swap), ("Add", add), ("Sub", sub), ("Mul", mul), ("Div", div),
    ("Pow", pow), ("Neg", neg), ("Equal", equal), ("NotEqual", notEqual), ("Greater", greater),
    ("Less", less), ("Halt", halt), ("Nop", nop)]

def toJson : Instruction → Value
  | push value => .record [("Push", .float value)]
  | load name => .record [("LoadVar", .text name)]
  | store name => .record [("StoreVar", .text name)]
  | jump target => .record [("Jump", .nat target)]
  | jumpIfZero target => .record [("JumpIfFalse", .nat target)]
  | jumpIfNonzero target => .record [("JumpIfTrue", .nat target)]
  | pop => .text "Pop"
  | dup => .text "Dup"
  | swap => .text "Swap"
  | add => .text "Add"
  | sub => .text "Sub"
  | mul => .text "Mul"
  | div => .text "Div"
  | pow => .text "Pow"
  | neg => .text "Neg"
  | equal => .text "Equal"
  | notEqual => .text "NotEqual"
  | greater => .text "Greater"
  | less => .text "Less"
  | halt => .text "Halt"
  | nop => .text "Nop"

/-- Reads an instruction with an operand. -/
def ofOperand? (name : String) (operand : Value) : Option Instruction :=
  match name with
  | "Push" => operand.float?.map push
  | "LoadVar" => operand.text?.map load
  | "StoreVar" => operand.text?.map store
  | "Jump" => operand.nat?.map jump
  | "JumpIfFalse" => operand.nat?.map jumpIfZero
  | "JumpIfTrue" => operand.nat?.map jumpIfNonzero
  | _ => none

def ofJson? : Value → Option Instruction
  | .string (some name) => plainNames.lookup name
  | .object [(some name, .null)] => plainNames.lookup name
  | .object [(some name, operand)] => ofOperand? name operand
  | _ => none

end Instruction

namespace Program

def toJson (p : Program) : Value :=
  .record [
    ("instructions", .array (p.code.map Instruction.toJson)),
    ("meta", .record [("is_equation", .bool p.isEquation), ("source", .text p.source)])]

def ofJson? (v : Value) : Option Program := do
  match ← v.record? ["instructions", "meta"] with
  | [some instructions, some details] =>
    let code ← instructions.list? Instruction.ofJson?
    match ← details.record? ["is_equation", "source"] with
    | [some isEquation, some source] => pure ⟨code, ← isEquation.bool?, ← source.text?⟩
    | _ => none
  | _ => none

end Program

mutual

/-- The value can be held in memory: its numbers do not overflow, its strings have texts, and at most
    `depth` arrays and objects lie within each other. -/
def Json.Value.isHeld (depth : Nat) : Value → Bool
  | .number n => (Json.Number.float? n).isSome
  | .string text => text.isSome
  | .array items => 0 < depth && Json.itemsHeld (depth - 1) items
  | .object fields => 0 < depth && Json.fieldsHeld (depth - 1) fields
  | _ => true

def Json.itemsHeld (depth : Nat) : List Value → Bool
  | [] => true
  | value :: items => value.isHeld depth && Json.itemsHeld depth items

def Json.fieldsHeld (depth : Nat) : List (Option String × Value) → Bool
  | [] => true
  | (name, value) :: fields => name.isSome && value.isHeld depth && Json.fieldsHeld depth fields

end

namespace Evaluation

def toJson : Evaluation → Value
  | equation isEqual => .record [("kind", .text "equation"), ("is_equal", .bool isEqual)]
  | expression value => .record [("kind", .text "expression"), ("value", .float value)]

/-- Reads what follows the kind. -/
def ofKind? (kind : String) (rest : Value) : Option Evaluation := do
  match kind with
  | "equation" =>
    match ← rest.record? ["is_equal"] with
    | [some isEqual] => pure (.equation (← isEqual.bool?))
    | _ => none
  | "expression" =>
    match ← rest.record? ["value"] with
    | [some value] => pure (.expression (← value.float?))
    | _ => none
  | _ => none

/-- The most arrays and objects that may lie within each other where all of a value is held. -/
def maxDepth : Nat := 127

/-- Reads what a program computes. The kind may stand anywhere in an object, once, and stands first in an
    array; all of the value is held in memory before the rest is looked at. -/
def ofJson? (v : Value) : Option Evaluation :=
  if !v.isHeld maxDepth then none
  else match v with
    | .object fields =>
      match fields.filter fun field => field.1 == some "kind" with
      | [(_, .string (some kind))] =>
        ofKind? kind (.object (fields.filter fun field => field.1 != some "kind"))
      | _ => none
    | .array (.string (some kind) :: items) => ofKind? kind (.array items)
    | _ => none

end Evaluation
end DrillCode
