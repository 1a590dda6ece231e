import DrillCode.Json.Lexeme

/-! # Reading JSON

The lexemes of a JSON text are read one by one with a stack of the arrays and objects that are open. A
text is a JSON text if its lexemes leave exactly one finished value. -/

namespace DrillCode.Json

/-- An array or object that is open, with what it holds so far, last first. -/
inductive Frame where
  | array (items : List Value)
  | object (fields : List (Option String × Value))
  /-- An object whose next field has a name and waits for its value. -/
  | field (name : Option String) (fields : List (Option String × Value))

/-- What may come next. -/
inductive Mode where
  | value
  /-- A value, or the end of the array that was just opened. -/
  | firstItem
  /-- A name, or the end of the object that was just opened. -/
  | firstName
  | name
  | colon
  /-- A comma, or the end of what is open. -/
  | more
  | finished (value : Value)

structure ParseState where
  stack : List Frame
  mode : Mode

namespace ParseState

def start : ParseState := ⟨[], .value⟩

/-- Puts a finished value where it belongs. -/
def finish (value : Value) : (stack : List Frame) → Option ParseState
  | [] => some ⟨[], .finished value⟩
  | .array items :: stack => some ⟨.array (value :: items) :: stack, .more⟩
  | .field name fields :: stack => some ⟨.object ((name, value) :: fields) :: stack, .more⟩
  | .object _ :: _ => none

/-- Reads the first lexeme of a value. -/
def beginValue (stack : List Frame) : Lexeme → Option ParseState
  | .scalar value => finish value stack
  | .openArray => some ⟨.array [] :: stack, .firstItem⟩
  | .openObject => some ⟨.object [] :: stack, .firstName⟩
  | _ => none

def close : (stack : List Frame) → Lexeme → Option ParseState
  | .array items :: stack, .closeArray => finish (.array items.reverse) stack
  | .object fields :: stack, .closeObject => finish (.object fields.reverse) stack
  | _, _ => none

def beginField : (stack : List Frame) → Lexeme → Option ParseState
  | .object fields :: stack, .scalar (.string name) => some ⟨.field name fields :: stack, .colon⟩
  | _, _ => none

def resume : (stack : List Frame) → Option ParseState
  | .array items :: stack => some ⟨.array items :: stack, .value⟩
  | .object fields :: stack => some ⟨.object fields :: stack, .name⟩
  | _ => none

def step (s : ParseState) (lexeme : Lexeme) : Option ParseState :=
  match s.mode, lexeme with
  | .value, _ => beginValue s.stack lexeme
  | .firstItem, .closeArray => close s.stack lexeme
  | .firstItem, _ => beginValue s.stack lexeme
  | .firstName, .closeObject => close s.stack lexeme
  | .firstName, _ => beginField s.stack lexeme
  | .name, _ => beginField s.stack lexeme
  | .colon, .colon => some ⟨s.stack, .value⟩
  | .colon, _ => none
  | .more, .comma => resume s.stack
  | .more, _ => close s.stack lexeme
  | .finished _, _ => none

end ParseState

def parse? (text : List Char) : Option Value := do
  let lexemes ← Lexeme.ofText? text
  let last ← lexemes.foldlM ParseState.step ParseState.start
  match last.mode with
  | .finished value => some value
  | _ => none

end DrillCode.Json
