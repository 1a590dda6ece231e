import DrillCode.Json.Value

/-! # Writing JSON

A value is written without any white space, or over several lines with two spaces for each level. In
strings the quote, the backslash and the control characters below U+0020 are escaped, and nothing else. -/

namespace DrillCode.Json

def hexDigit (n : Nat) : Char :=
  Char.ofNat (if n < 10 then 48 + n else 87 + n)

def escaped (c : Char) : List Char :=
  match c with
  | '"' => ['\\', '"']
  | '\\' => ['\\', '\\']
  | '\x08' => ['\\', 'b']
  | '\t' => ['\\', 't']
  | '\n' => ['\\', 'n']
  | '\x0c' => ['\\', 'f']
  | '\r' => ['\\', 'r']
  | c =>
    if c.toNat < 0x20 then
      ['\\', 'u', '0', '0', hexDigit (c.toNat / 16), hexDigit (c.toNat % 16)]
    else [c]

def quoted (text : List Char) : List Char :=
  '"' :: text.flatMap escaped ++ ['"']

/-- A string that has no text is written like the empty one. -/
def stringText (text : Option String) : List Char :=
  quoted (text.elim [] String.toList)

/-- The texts of several things, with a separator between them. -/
def separated (separator : List Char) : (texts : List (List Char)) → List Char
  | [] => []
  | [text] => text
  | text :: texts => text ++ separator ++ separated separator texts

/-- The start of a line at a level. -/
def newline (level : Nat) : List Char :=
  '\n' :: List.replicate (2 * level) ' '

/-- Brackets around the texts of what an array or object holds, each on a line of its own. -/
def block (opening closing : Char) (level : Nat) (texts : List (List Char)) : List Char :=
  if texts.isEmpty then [opening, closing]
  else opening :: newline (level + 1) ++ separated (',' :: newline (level + 1)) texts ++
    newline level ++ [closing]

mutual

def Value.compact : Value → List Char
  | .null => "null".toList
  | .bool b => (if b then "true" else "false").toList
  | .number n => n.text true
  | .string text => stringText text
  | .array items => '[' :: separated [','] (compactItems items) ++ [']']
  | .object fields => '\x7b' :: separated [','] (compactFields fields) ++ ['\x7d']

def compactItems : List Value → List (List Char)
  | [] => []
  | value :: items => value.compact :: compactItems items

def compactFields : List (Option String × Value) → List (List Char)
  | [] => []
  | (name, value) :: fields => (stringText name ++ ':' :: value.compact) :: compactFields fields

end

mutual

/-- A value over several lines, the first of which stands at a level. -/
def Value.pretty (level : Nat) : Value → List Char
  | .null => "null".toList
  | .bool b => (if b then "true" else "false").toList
  | .number n => n.text true
  | .string text => stringText text
  | .array items => block '[' ']' level (prettyItems (level + 1) items)
  | .object fields => block '\x7b' '\x7d' level (prettyFields (level + 1) fields)

def prettyItems (level : Nat) : List Value → List (List Char)
  | [] => []
  | value :: items => value.pretty level :: prettyItems level items

def prettyFields (level : Nat) : List (Option String × Value) → List (List Char)
  | [] => []
  | (name, value) :: fields =>
    (stringText name ++ ':' :: ' ' :: value.pretty level) :: prettyFields level fields

end

mutual

/-- The value with the fields of every object in the order of their names. -/
def Value.sorted : Value → Value
  | .array items => .array (sortedItems items)
  | .object fields => .object ((sortedFields fields).mergeSort fun a b => a.1.getD "" ≤ b.1.getD "")
  | value => value

/-- Values with sorted fields. -/
def sortedItems : List Value → List Value
  | [] => []
  | value :: items => value.sorted :: sortedItems items

/-- Fields whose values have sorted fields. -/
def sortedFields : List (Option String × Value) → List (Option String × Value)
  | [] => []
  | (name, value) :: fields => (name, value.sorted) :: sortedFields fields

end
end DrillCode.Json
