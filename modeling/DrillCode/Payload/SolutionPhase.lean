import DrillCode.Payload.Contents
import DrillCode.Payload.TagList
import DrillCode.Payload.TextField

/-! # The solutions of a payload

Each solution starts with the marker 1 and holds two texts of seven-bit units and its tags. The phase
goes on while that marker follows and ends for good with a solution that cannot be read; an end marker
0 behind the last solution belongs to it. -/

namespace DrillCode

namespace Solution

def bits (s : Solution) : List Bool :=
  Bits.ofNat 2 1 ++ Bits.ofNat 4 0 ++ TextField.asciiBits s.question.toList ++
    Bits.ofNat 4 0 ++ TextField.asciiBits s.steps.toList ++ TagList.bits s.tags

/-- What ends the solutions. -/
def endBits : List Bool := Bits.ofNat 2 0

/-- Reads a solution with its marker. Both texts are taken to be of seven-bit units, whatever the bits
    before them say. -/
def read : Scan Solution := do
  skipBits 6
  let question ← TextField.readAscii
  ifRemaining do
    skipBits 4
    let steps ← TextField.readAscii
    let tags ← TagList.read
    pure ⟨question, steps, tags⟩

theorem read_advances : Scan.Advances 27 read :=
  (skipBits_advances 6).bind fun _ => TextField.readAscii_advances.bind fun _ => .ifRemaining <|
    (skipBits_advances 4).bind fun _ => TextField.readAscii_advances.bind fun _ =>
      TagList.read_advances.bind fun _ => .pure _

end Solution

/-- The solutions that were read, the cause that cut them short, and the place behind them. -/
structure SolutionPhase where
  solutions : List Solution
  damage : Option DecodeError
  rest : BitReader
  deriving DecidableEq, Repr

namespace SolutionPhase

/-- Reads solutions while their marker follows. -/
def readEntries (r : BitReader) : SolutionPhase :=
  if r.isAt 2 1 then
    match _h : Solution.read r with
    | .error e rest => ⟨[], some e, rest⟩
    | .ok solution rest =>
      let phase := readEntries rest
      ⟨solution :: phase.solutions, phase.damage, phase.rest⟩
  else ⟨[], none, r⟩
termination_by r.unread.length
decreasing_by exact (Solution.read_advances.ok _h).length_lt (by decide)

/-- Reads the solutions with their end marker. -/
def read (r : BitReader) : SolutionPhase :=
  let phase := readEntries r
  ⟨phase.solutions, phase.damage, phase.rest.skipMarker 2⟩

end SolutionPhase
end DrillCode
