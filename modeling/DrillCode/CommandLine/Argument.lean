import DrillCode.Text.Replace

/-! # Forms of arguments

An argument that starts with two hyphens is an option, one that starts with a single hyphen is one or
more options with names of one letter, and all others are operands; so is a hyphen alone. Two hyphens
alone make operands of all arguments behind them. -/

namespace DrillCode.CommandLine

inductive Argument where
  | terminator
  /-- An option, with its value where one follows an equals sign. -/
  | option (name : String) (value : Option String)
  /-- Options with names of one letter. -/
  | letters (names : List Char)
  | operand
  deriving DecidableEq, Repr

namespace Argument

/-- The option whose name, and possibly value, follow two hyphens. -/
def ofOption (text : List Char) : Argument :=
  match Text.splitOnce ['='] text with
  | some (name, value) => option (String.ofList name) (some (String.ofList value))
  | none => option (String.ofList text) none

def ofText (text : String) : Argument :=
  match text.toList with
  | ['-', '-'] => terminator
  | '-' :: '-' :: text => ofOption text
  | '-' :: name :: names => letters (name :: names)
  | _ => operand

end Argument
end DrillCode.CommandLine
