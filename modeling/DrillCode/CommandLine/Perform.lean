import DrillCode.CommandLine.Failure
import DrillCode.CommandLine.Invocation
import DrillCode.CommandLine.Listing
import DrillCode.Json.Practice
import DrillCode.Json.Printer
import DrillCode.Text.Utf8

/-! # Performing commands

A command reads its settings, then its payload, and writes lines of text or JSON. It may write something
and fail all the same. -/

namespace DrillCode.CommandLine
open Json (Value)

/-- What a command reads: the bytes of its settings file and of its payload, or why they cannot be read,
    and the words that it draws from. -/
structure Sources where
  config : Except String (List UInt8)
  payload : Except String (List UInt8)
  words : WordSupply

/-- What a command writes, and its failure if it fails. -/
structure Outcome where
  output : String
  failure : Option Failure

namespace Outcome

def exitCode (o : Outcome) : Nat :=
  o.failure.elim 0 Failure.exitCode

/-- The outcome of a command that writes nothing if it fails. -/
def ofResult : Except Failure String → Outcome
  | .ok output => ⟨output, none⟩
  | .error failure => ⟨"", some failure⟩

end Outcome

/-! ### Output -/

def textOf (lines : List String) : String :=
  String.join (lines.map fun line => line ++ "\n")

def jsonOf (v : Value) : String :=
  String.ofList (v.pretty 0) ++ "\n"

/-! ### Input -/

/-- The settings without a step limit of their own. -/
def baseSettings (path : Option String) (config : Except String (List UInt8)) : Except Failure Settings :=
  match path, config with
  | none, _ => .ok .standard
  | some _, .error reason => .error (.unreadable .configFile reason)
  | some _, .ok bytes =>
    match Text.Utf8.decode? bytes with
    | none => .error (.unreadable .configFile "stream did not contain valid UTF-8")
    | some text =>
      match Settings.ofText? (String.ofList text) with
      | some settings => .ok settings
      | none => .error .config

def Options.settings (options : Options) (sources : Sources) : Except Failure Settings :=
  match baseSettings options.config sources.config, options.stepLimit with
  | .ok settings, some limit => .ok { settings with machine.stepLimit := limit }
  | result, _ => result

/-- The bytes of hexadecimal text, in which white space does not count. -/
def hexBytes (text : List UInt8) : Except Failure (List UInt8) :=
  match Text.Hex.decode (Text.Utf8.encode ((Text.Utf8.decode text).filter fun c => !Text.isSpace c)) with
  | .ok bytes => .ok bytes
  | .error error => .error (.hexText error)

def Source.ofPayload (path : String) : Source :=
  if path = "-" then .standardInput else .payloadFile

def Options.payload (options : Options) (sources : Sources) (path : String) : Except Failure (List UInt8) :=
  match sources.payload with
  | .error reason => .error (.unreadable (.ofPayload path) reason)
  | .ok bytes => if options.hex then hexBytes bytes else .ok bytes

def Options.session (options : Options) (sources : Sources) (path : String) : Except Failure Session := do
  let settings ← options.settings sources
  let bytes ← options.payload sources path
  match Contents.validate settings.payload bytes with
  | .ok contents => .ok (.new contents settings)
  | .error error => .error (.payload error)

/-! ### Commands -/

def decode (options : Options) (s : Session) : String :=
  if options.json then jsonOf s.contents.toJson else textOf s.contents.listing

/-- Draws values and shows what the exercises of a payload give. -/
def runAll (options : Options) (sources : Sources) (s : Session) : String :=
  let s := (s.reroll sources.words).1
  let reports := s.execute
  if options.json then
    jsonOf (Value.record [("variables", Variables.toJson s.values),
      ("reports", .array (reports.map Report.toJson))]).sorted
  else textOf (s.values.listing ++ reports.flatMap Report.listing)

/-- Draws values and makes the problems that a tag takes. -/
def problemsOf (sources : Sources) (s : Session) (tag : Tag) : Session × List Problem :=
  (s.problemsByTag [tag] sources.words).1

def exercises (options : Options) (sources : Sources) (s : Session) (tag : Tag) : String :=
  let (_, problems) := problemsOf sources s tag
  if options.json then jsonOf (.array (problems.map Problem.toJson))
  else if problems.isEmpty then textOf ["No exercises for " ++ tag.name ++ "."]
  else textOf (problems.flatMap Problem.listing)

/-- Checks an answer to one of the problems that a tag takes. -/
def check (options : Options) (sources : Sources) (s : Session) (tag : Tag) (index : Nat) (answer : Float) :
    Except Failure String :=
  let (s, problems) := problemsOf sources s tag
  match problems.find? fun p => p.id == index with
  | none => .error (.noExercise index tag problems.length)
  | some p =>
    let result := s.verify answer p
    .ok (if options.json then
        jsonOf (Value.record [("exercise", p.toJson), ("result", result.toJson)]).sorted
      else textOf (p.listing ++ [result.listing]))

/-- What an expression gives, in JSON. -/
def evaluationJson (source : String) (listing : Bool) (program : Program) (execution : Execution) : Value :=
  .record (
    [("source", .text source), ("is_equation", .bool program.isEquation)] ++
    optionalField "evaluation" (execution.evaluation?.map Evaluation.toJson) ++
    optionalField "error" (execution.fault?.map fun fault => .text fault.message) ++
    [("steps", .nat execution.steps), ("final_stack", .array (execution.stack.map .float))] ++
    optionalField "disassembly" (if listing then some (.text program.disassembly) else none))

/-- Runs an expression. A fault is part of the output in JSON; else it is a failure behind the listing of
    the program. -/
def evaluate (options : Options) (settings : Settings) (expression : String)
    (bindings : List (String × Float)) (listing : Bool) : Outcome :=
  match Formula.compile expression with
  | .error error => .ofResult (.error (.compile error))
  | .ok program =>
    let execution := program.execute settings.machine (.ofList bindings)
    if options.json then ⟨jsonOf (evaluationJson expression listing program execution), none⟩
    else
      let lines := if listing then program.lines else []
      match execution.result with
      | .ok evaluation => ⟨textOf (lines ++ [evaluation.text]), none⟩
      | .error fault => ⟨textOf lines, some (.evaluation execution.steps fault)⟩

def Invocation.perform (i : Invocation) (sources : Sources) : Outcome :=
  match i.command with
  | .decode path => .ofResult do
    pure (decode i.options (← i.options.session sources path))
  | .run path => .ofResult do
    pure (runAll i.options sources (← i.options.session sources path))
  | .exercises path tag => .ofResult do
    pure (exercises i.options sources (← i.options.session sources path) tag)
  | .check path tag index answer => .ofResult do
    check i.options sources (← i.options.session sources path) tag index answer
  | .eval expression bindings listing =>
    match i.options.settings sources with
    | .error failure => .ofResult (.error failure)
    | .ok settings => evaluate i.options settings expression bindings listing

/-! ### The program -/

/-- What a program can read: files by their paths, standard input, and as many words to draw from as it asks
    for, which with a seed are the first that belong to it. -/
structure Input (m : Type → Type) where
  file (path : String) : m (Except String (List UInt8))
  standard : m (Except String (List UInt8))
  words (seed : Option Nat) (count : Nat) : m WordSupply

section Running
variable {m : Type → Type} [Monad m]

/-- Reads what a command needs. -/
def Invocation.sources (i : Invocation) (input : Input m) : m Sources := do
  let config ← match i.options.config with
    | some path => input.file path
    | none => pure (.ok [])
  let payload ← match i.command.payload? with
    | some "-" => input.standard
    | some path => input.file path
    | none => pure (.ok [])
  -- The code of a variable has more than two bytes, so there are 64 words and more for each of them.
  let words ← input.words i.options.seed (32 * (payload.toOption.getD []).length)
  pure ⟨config, payload, words⟩

/-- Performs the command that the arguments name. -/
def runProgram (input : Input m) (environment : Environment) (arguments : List String) : m (Except Stop Outcome) :=
  match Invocation.ofArguments environment arguments with
  | .error stop => pure (.error stop)
  | .ok i => do pure (.ok (i.perform (← i.sources input)))

end Running

/-- The exit status of the program. -/
def exitCodeOf : Except Stop Outcome → Nat
  | .ok outcome => outcome.exitCode
  | .error stop => stop.exitCode

end DrillCode.CommandLine
