import DrillCode.CommandLine.Perform
import DrillCode.CommandLine.Usage
import DrillCode.Practice.Seed

/-! # The program

Reads the environment, the files that the arguments name and random bytes, and writes what the command
gives. -/

namespace DrillCode.CommandLine

def reasonOf : IO.Error → String
  | .noFileOrDirectory _ _ _ => "No such file or directory (os error 2)"
  | .inappropriateType _ code details | .permissionDenied _ code details
  | .invalidArgument _ code details | .resourceExhausted _ code details
  | .hardwareFault code details | .otherError code details =>
    details ++ " (os error " ++ toString code ++ ")"
  | error => error.toString

def readFile (path : String) : IO (Except String (List UInt8)) := do
  try
    pure (.ok (← IO.FS.readBinFile path).toList)
  catch error => pure (.error (reasonOf error))

def readStream (stream : IO.FS.Stream) : IO (Except String (List UInt8)) := do
  try
    let mut bytes := ByteArray.empty
    repeat
      let chunk ← stream.read 65536
      if chunk.isEmpty then break
      bytes := bytes ++ chunk
    pure (.ok bytes.toList)
  catch error => pure (.error (reasonOf error))

/-- The first words of a seed, or of a random key. -/
def readWords (seed : Option Nat) (count : Nat) : IO WordSupply := do
  let key ← match seed with
    | some n => pure (.ofSeed (.ofNat n))
    | none => pure (.ofBytes (← IO.getRandomBytes 32).toList)
  pure (.ofKey key count)

def input : Input IO where
  file := readFile
  standard := do readStream (← IO.getStdin)
  words := readWords

/-- Writes what a command gives, or what is written instead of it. -/
def write : Except Stop Outcome → IO Unit
  | .ok outcome => do
    IO.print outcome.output
    if let some failure := outcome.failure then
      IO.eprintln ("error: " ++ failure.message)
  | .error .version => IO.println versionText
  | .error .help => IO.print (textOf usage)
  | .error .refused => IO.eprint (textOf usage)

end DrillCode.CommandLine

open DrillCode.CommandLine in
/-- Performs the command that the arguments name. -/
def main (arguments : List String) : IO UInt32 := do
  let environment := ⟨← IO.getEnv "EQR_CONFIG", ← IO.getEnv "EQR_STEP_LIMIT"⟩
  let result ← runProgram input environment arguments
  write result
  pure (UInt32.ofNat (exitCodeOf result))
