import DrillCode.Payload.ExercisePhase
import DrillCode.Payload.Header
import DrillCode.Payload.SolutionPhase

/-! # Writing a payload

A payload is put together from parts in any order. Each part adds its code to a bit string, which is
then packed into bytes. The only thing that cannot be written is the integer zero in an expression. -/

namespace DrillCode

/-- A part of a payload. -/
inductive Part where
  /-- The low `width` bits of a number. -/
  | raw (value width : Nat)
  | header (entry : HeaderEntry)
  | endHeader
  | solution (s : Solution)
  | endSolutions
  | exercise (question : Option String) (tokens : List Token) (tags : List Tag)
  | endExercises
  deriving DecidableEq, Repr

/-- Why a part cannot be written. -/
inductive AuthoringError where
  /-- The number zero has no code. -/
  | noCodeForZero
  deriving DecidableEq, Repr

namespace AuthoringError

def message : AuthoringError → String
  | noCodeForZero => "elias-delta has no code for 0"

end AuthoringError

namespace Part

def bits : Part → List Bool
  | raw value width => Bits.ofNat width value
  | header entry => entry.bits
  | endHeader => HeaderEntry.endBits
  | solution s => s.bits
  | endSolutions => Solution.endBits
  | exercise question tokens tags => Exercise.bits question tokens tags
  | endExercises => Exercise.endBits

def hasCode : Part → Bool
  | exercise _ tokens _ => tokens.all Token.hasCode
  | _ => true

/-- The code of a part that has one. -/
def write (part : Part) : Except AuthoringError (List Bool) :=
  if part.hasCode then .ok part.bits else .error .noCodeForZero

def writeAll (parts : List Part) : Except AuthoringError (List (List Bool)) :=
  parts.mapM write

end Part

def payloadBytes (codes : List (List Bool)) : List UInt8 :=
  Bits.toBytes codes.flatten

end DrillCode
