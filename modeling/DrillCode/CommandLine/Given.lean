import DrillCode.CommandLine.Argument
import DrillCode.CommandLine.Rule

/-! # Reading arguments

Arguments are read from left to right. An option is given once, unless its rule lets it repeat, and the
first argument that is not understood refuses them all. Before the command, reading ends at the first
operand, which is the command's name. -/

namespace DrillCode.CommandLine

/-- What arguments give: settings under the names of their options, and operands. -/
structure Given where
  settings : List (String × Setting)
  operands : List String
  deriving DecidableEq

namespace Given

def nothing : Given := ⟨[], []⟩

def add (g : Given) (rule : Rule) (setting : Setting) : Except Stop Given :=
  if !rule.repeats && g.settings.any fun s => s.1 == rule.name then .error .refused
  else .ok { g with settings := g.settings ++ [(rule.name, setting)] }

def addFlag (g : Given) (rule : Rule) : Except Stop Given :=
  match rule.form with
  | .flag setting => g.add rule setting
  | .value _ _ => .error .refused
  | .stop stop => .error stop

def addValue (g : Given) (rule : Rule) (text : String) : Except Stop Given :=
  match rule.form with
  | .value _ read =>
    match read text with
    | some setting => g.add rule setting
    | none => .error .refused
  | _ => .error .refused

def addLetters (g : Given) (rules : List Rule) : (letters : List Char) → Except Stop Given
  | [] => .ok g
  | letter :: letters =>
    match rules.find? fun rule => rule.letter == some letter with
    | none => .error .refused
    | some rule =>
      match g.addFlag rule with
      | .ok g => g.addLetters rules letters
      | .error stop => .error stop

end Given

/-- Where arguments stand. -/
inductive Place where
  | beforeCommand
  | behindCommand
  deriving DecidableEq, Repr

/-- An argument can be the value of an option before it. -/
def isValue (hyphen : Bool) (text : String) : Bool :=
  hyphen || Argument.ofText text = .operand

/-- Reads arguments and gives those that are left when reading ends. -/
def scan (rules : List Rule) (place : Place) (g : Given) : List String → Except Stop (Given × List String)
  | [] => .ok (g, [])
  | text :: rest =>
    match Argument.ofText text with
    | .terminator =>
      match place with
      | .beforeCommand => .error .refused
      | .behindCommand => .ok ({ g with operands := g.operands ++ rest }, [])
    | .operand =>
      match place with
      | .beforeCommand => .ok (g, text :: rest)
      | .behindCommand => scan rules place { g with operands := g.operands ++ [text] } rest
    | .letters letters =>
      match g.addLetters rules letters with
      | .ok g => scan rules place g rest
      | .error stop => .error stop
    | .option name value =>
      match rules.find? fun rule => rule.name == name with
      | none => .error .refused
      | some rule =>
        match value, rule.form, rest with
        | some value, _, rest =>
          match g.addValue rule value with
          | .ok g => scan rules place g rest
          | .error stop => .error stop
        | none, .value _ _, [] => .error .refused
        | none, .value hyphen _, value :: rest =>
          if isValue hyphen value then
            match g.addValue rule value with
            | .ok g => scan rules place g rest
            | .error stop => .error stop
          else .error .refused
        | none, _, rest =>
          match g.addFlag rule with
          | .ok g => scan rules place g rest
          | .error stop => .error stop

end DrillCode.CommandLine
