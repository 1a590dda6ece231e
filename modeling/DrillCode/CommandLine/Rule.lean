import DrillCode.Number.Reading
import DrillCode.Tag
import DrillCode.Text.Replace
import DrillCode.Text.Space

/-! # Options

An option sets something, and its rule says how it is given: as a flag, or with a value that is read as
a number, a tag, a path or the value of a variable. -/

namespace DrillCode.CommandLine

/-- What an option sets. -/
inductive Setting where
  | hex
  | json
  | verbose
  | seed (n : Nat)
  | config (path : String)
  | stepLimit (n : Nat)
  | tag (tag : Tag)
  | index (n : Nat)
  | answer (x : Float)
  | binding (name : String) (value : Float)
  | listing
  deriving DecidableEq

/-- What is done instead of a command. -/
inductive Stop where
  /-- The arguments are not understood. -/
  | refused
  | version
  | help
  deriving DecidableEq, Repr

def Stop.exitCode : Stop → Nat
  | refused => 2
  | version | help => 0

/-- How an option is given. -/
inductive Form where
  | flag (setting : Setting)
  /-- With a value; a value that is an argument of its own starts with a hyphen only if `hyphen` says so. -/
  | value (hyphen : Bool) (read : String → Option Setting)
  /-- As a flag that ends the reading of arguments. -/
  | stop (stop : Stop)

structure Rule where
  name : String
  letter : Option Char
  /-- The option may be given more than once. -/
  repeats : Bool
  form : Form

namespace Rule

def flag (name : String) (setting : Setting) : Rule :=
  ⟨name, none, false, .flag setting⟩

/-- An option with a value that does not start with a hyphen. -/
def value (name : String) (read : String → Option Setting) : Rule :=
  ⟨name, none, false, .value false read⟩

/-- The help that every command has. -/
def help : Rule :=
  ⟨"help", some 'h', false, .stop .help⟩

end Rule

/-! ### Values -/

/-- A natural number of 64 bits, which may have a plus sign. -/
def natural? (text : String) : Option Nat :=
  let digits := match text.toList with
    | '+' :: digits => digits
    | digits => digits
  let n := Reading.numberOf digits
  if !digits.isEmpty && digits.all Reading.isDigit && n < wordCount then some n else none

def number? (text : String) : Option Float :=
  Reading.number? text.toList

/-- A variable and its value, with an equals sign between them. White space around the two does not
    count. -/
def binding? (text : String) : Option (String × Float) := do
  let (name, value) ← Text.splitOnce ['='] text.toList
  pure (String.ofList (Text.trim name), ← Reading.number? (Text.trim value))

/-! ### The options -/

namespace Rule

/-- The options that stand anywhere. -/
def everywhere : List Rule := [
  .flag "hex" .hex,
  .value "seed" fun text => (natural? text).map .seed,
  .flag "json" .json,
  .value "config" fun text => some (.config text),
  .value "step-limit" fun text => (natural? text).map .stepLimit,
  ⟨"verbose", some 'v', false, .flag .verbose⟩,
  .help]

/-- The options that stand before a command. -/
def beforeCommand : List Rule :=
  ⟨"version", some 'V', false, .stop .version⟩ :: everywhere

def tag : Rule :=
  .value "tag" fun text => (Tag.parse? text).map .tag

end Rule

inductive Verb where
  | decode
  | run
  | exercises
  | check
  | eval
  deriving DecidableEq, Repr

namespace Verb

def all : List Verb := [decode, run, exercises, check, eval]

def name : Verb → String
  | decode => "decode"
  | run => "run"
  | exercises => "exercises"
  | check => "check"
  | eval => "eval"

def ofName? (name : String) : Option Verb :=
  all.find? fun verb => verb.name == name

/-- The options of a command alone. -/
def ownRules : Verb → List Rule
  | decode | run => []
  | exercises => [.tag]
  | check => [
    .tag,
    .value "index" fun text => (natural? text).map .index,
    ⟨"answer", none, false, .value true fun text => (number? text).map .answer⟩]
  | eval => [
    ⟨"var", none, true, .value false fun text => (binding? text).map fun (name, x) => .binding name x⟩,
    .flag "disasm" .listing]

def rules (verb : Verb) : List Rule :=
  verb.ownRules ++ Rule.everywhere

end Verb
end DrillCode.CommandLine
