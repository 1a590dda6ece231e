import DrillCode.Formula.Compile
import DrillCode.Machine.Step
import DrillCode.Payload.Decode
import DrillCode.Text.Hex

/-! # Failures of commands

A command fails with a text and an exit status, which tells input that cannot be read from payloads and
expressions that are not understood, and both from all else. -/

namespace DrillCode.CommandLine

/-- Where bytes come from. -/
inductive Source where
  | standardInput
  | payloadFile
  | configFile
  deriving DecidableEq, Repr

def Source.name : Source → String
  | .standardInput => "stdin"
  | .payloadFile => "payload"
  | .configFile => "config"

/-- Why a command fails. -/
inductive Failure where
  | unreadable (source : Source) (reason : String)
  /-- The settings file does not hold settings. -/
  | config
  | hexText (error : Text.Hex.Error)
  | payload (error : PayloadError)
  | compile (error : Formula.CompileError)
  | noExercise (index : Nat) (tag : Tag) (count : Nat)
  | evaluation (steps : Nat) (fault : Fault)

namespace Failure

def message : Failure → String
  | unreadable source reason => "read " ++ source.name ++ ": " ++ reason
  | config => "parse config: serde-json"
  | hexText error => "hex payload: " ++ error.message
  | payload error => error.message
  | compile error => "compile: " ++ error.message
  | noExercise index tag count =>
    "no exercise with id " ++ toString index ++ " for " ++ tag.name ++ " (" ++ toString count ++ " generated)"
  | evaluation steps fault => "evaluation failed after " ++ toString steps ++ " steps: " ++ fault.message

/-- The exit status that goes with a message, by how the message starts. -/
def statusOf (message : String) : Nat :=
  let starts (beginning : String) : Bool := beginning.toList.isPrefixOf message.toList
  if ["decode", "compile", "invalid payload"].any starts then 3
  else if ["read ", "parse ", "missing ", "hex "].any starts then 2
  else 1

def exitCode (failure : Failure) : Nat := statusOf failure.message

end Failure
end DrillCode.CommandLine
