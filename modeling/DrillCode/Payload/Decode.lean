import DrillCode.Payload.ExercisePhase
import DrillCode.Payload.Header
import DrillCode.Payload.SolutionPhase

/-! # Reading a payload

A payload starts with some bits that are not looked at, and then holds its header, its solutions and its
exercises. Only a header that cannot be read is an error; damage further on ends its phase. -/

namespace DrillCode

/-- How a payload is read. -/
structure PayloadSettings where
  /-- The number of bits before the header. -/
  headerOffset : Nat
  /-- The longest text that an expression may have. -/
  expressionCap : Nat
  deriving DecidableEq, Repr

namespace PayloadSettings

/-- The settings where nothing else is asked for. -/
def standard : PayloadSettings := ⟨22, 500⟩

end PayloadSettings

namespace Contents

/-- Reads the contents of a payload from the start of its header on. -/
def read (cap : Nat) (r : BitReader) : Except DecodeError Contents :=
  match HeaderEntry.readAll r with
  | .error e _ => .error e
  | .ok entries rest =>
    let phase := SolutionPhase.read rest
    .ok {
      labels := HeaderEntry.labels entries
      generators := HeaderEntry.generators entries
      solutions := phase.solutions
      exercises := Attempt.exercises cap phase.rest }

/-- Reads the contents of a payload. -/
def decode (settings : PayloadSettings) (bytes : List UInt8) : Except DecodeError Contents :=
  read settings.expressionCap (.ofBytes bytes settings.headerOffset)

end Contents

/-- Why a payload is not used. -/
inductive PayloadError where
  | tooShort (bytes : Nat)
  | malformed (error : DecodeError)
  | noContent
  deriving DecidableEq, Repr

namespace PayloadError

/-- What is wrong with a payload. -/
def reason : PayloadError → String
  | tooShort bytes => "too short: " ++ toString bytes ++ " bytes"
  | malformed error => "not a valid payload: " ++ error.message
  | noContent => "no content recovered"

def message (e : PayloadError) : String :=
  "invalid payload: " ++ e.reason

end PayloadError

namespace Contents

/-- With the standard number of bits before the header no payload is shorter: these bits and three end
    markers fill it. With fewer bits before it a payload can be shorter; it is refused all the same. -/
def minimumBytes : Nat := 4

/-- Reads the contents of a payload, which must have some. -/
def validate (settings : PayloadSettings) (bytes : List UInt8) : Except PayloadError Contents :=
  if bytes.length < minimumBytes then .error (.tooShort bytes.length)
  else match decode settings bytes with
    | .error e => .error (.malformed e)
    | .ok contents => if contents.isEmpty then .error .noContent else .ok contents

end Contents
end DrillCode
