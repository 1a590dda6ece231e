import DrillCode.CommandLine.Given

/-! # Invocations

The arguments name a command, its operands and its options. An option that stands both before and behind
the command counts as it stands behind it; the path of a settings file and the step limit are taken from
the environment where they are not given. -/

namespace DrillCode.CommandLine

/-- What the environment gives. -/
structure Environment where
  config : Option String
  stepLimit : Option String
  deriving DecidableEq, Repr

/-- What holds for every command. -/
structure Options where
  hex : Bool
  json : Bool
  verbose : Bool
  seed : Option Nat
  config : Option String
  stepLimit : Option Nat
  deriving DecidableEq, Repr

inductive Command where
  | decode (payload : String)
  | run (payload : String)
  | exercises (payload : String) (tag : Tag)
  | check (payload : String) (tag : Tag) (index : Nat) (answer : Float)
  /-- Runs an expression with values for variables; `listing` shows the program as well. -/
  | eval (expression : String) (bindings : List (String × Float)) (listing : Bool)
  deriving DecidableEq

namespace Command

/-- The path of the payload; a hyphen is standard input. -/
def payload? : Command → Option String
  | decode payload | run payload | exercises payload _ | check payload _ _ _ => some payload
  | eval _ _ _ => none

end Command

structure Invocation where
  options : Options
  command : Command
  deriving DecidableEq

/-! ### Settings by what they set -/

namespace Setting

def seed? : Setting → Option Nat
  | seed n => some n
  | _ => none

def config? : Setting → Option String
  | config path => some path
  | _ => none

def stepLimit? : Setting → Option Nat
  | stepLimit n => some n
  | _ => none

def tag? : Setting → Option Tag
  | tag t => some t
  | _ => none

def index? : Setting → Option Nat
  | index n => some n
  | _ => none

def answer? : Setting → Option Float
  | answer x => some x
  | _ => none

/-- The variable that is set, with its value. -/
def binding? : Setting → Option (String × Float)
  | binding name x => some (name, x)
  | _ => none

end Setting

namespace Given

def has (g : Given) (setting : Setting) : Bool :=
  g.settings.any fun s => s.2 = setting

/-- What is set. -/
def find? {α : Type} (g : Given) (what? : Setting → Option α) : Option α :=
  g.settings.findSome? fun s => what? s.2

/-- The only operand, or a standard one where there is none. -/
def operand? (g : Given) (standard : Option String) : Option String :=
  match g.operands with
  | [] => standard
  | [operand] => some operand
  | _ => none

/-- The path of the payload; standard input where there is none. -/
def payload? (g : Given) : Option String :=
  g.operand? (some "-")

def command? (g : Given) : Verb → Option Command
  | .decode => do pure (.decode (← g.payload?))
  | .run => do pure (.run (← g.payload?))
  | .exercises => do pure (.exercises (← g.payload?) (← g.find? Setting.tag?))
  | .check => do
    pure (.check (← g.operand? none) (← g.find? Setting.tag?) ((g.find? Setting.index?).getD 1)
      (← g.find? Setting.answer?))
  | .eval => do
    pure (.eval (← g.operand? none) (g.settings.filterMap fun s => s.2.binding?) (g.has .listing))

end Given

/-! ### Options from all places -/

namespace Options

/-- The step limit. The environment's is read unless one is given before as well as behind the command,
    and has to be a number then. -/
def stepLimitOf (environment : Option String) (before behind : Option Nat) : Except Stop (Option Nat) :=
  match environment, before, behind with
  | none, before, behind => .ok (behind.or before)
  | some _, some _, some n => .ok (some n)
  | some text, before, behind =>
    match natural? text with
    | some n => .ok ((behind.or before).or (some n))
    | none => .error .refused

/-- The options that are given before and behind a command. -/
def ofGiven (environment : Environment) (before behind : Given) : Except Stop Options := do
  let stepLimit ← stepLimitOf environment.stepLimit (before.find? Setting.stepLimit?)
    (behind.find? Setting.stepLimit?)
  pure {
    hex := before.has .hex || behind.has .hex
    json := before.has .json || behind.has .json
    verbose := before.has .verbose || behind.has .verbose
    seed := (behind.find? Setting.seed?).or (before.find? Setting.seed?)
    config := ((behind.find? Setting.config?).or (before.find? Setting.config?)).or environment.config
    stepLimit }

end Options

namespace Invocation

/-- Reads what stands behind the name of a command. -/
def ofCommand (environment : Environment) (before : Given) (verb : Verb) (arguments : List String) :
    Except Stop Invocation :=
  match scan verb.rules .behindCommand .nothing arguments with
  | .error stop => .error stop
  | .ok (behind, _) =>
    match Options.ofGiven environment before behind, behind.command? verb with
    | .ok options, some command => .ok ⟨options, command⟩
    | _, _ => .error .refused

/-- What follows a wish for help: nothing, or the name of a command. -/
def helpOf : (arguments : List String) → Stop
  | [] => .help
  | [name] => if name == "help" || (Verb.ofName? name).isSome then .help else .refused
  | _ => .refused

def ofArguments (environment : Environment) (arguments : List String) : Except Stop Invocation :=
  match scan Rule.beforeCommand .beforeCommand .nothing arguments with
  | .error stop => .error stop
  | .ok (_, []) => .error .refused
  | .ok (before, name :: arguments) =>
    if name = "help" then .error (helpOf arguments)
    else match Verb.ofName? name with
      | some verb => ofCommand environment before verb arguments
      | none => .error .refused

end Invocation
end DrillCode.CommandLine
