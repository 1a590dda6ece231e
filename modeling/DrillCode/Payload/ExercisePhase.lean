import DrillCode.Payload.Contents
import DrillCode.Payload.TagList
import DrillCode.Payload.TokenRun

/-! # The exercises of a payload

Each exercise starts with the marker 1 and holds a question if its next bit is one, an expression, and
its tags. The phase ends at any other marker and at an expression without text. Where an exercise cannot
be read, one bit is passed over and reading starts again, as long as there are bits. -/

namespace DrillCode

namespace Exercise

/-- The template of an exercise: its expression behind its question, if it has one. -/
def template (question expression : String) : String :=
  if question.isEmpty then expression else question ++ ": " ++ expression

/-- The code of an exercise, given its question, the tokens of its expression, and its tags. -/
def bits (question : Option String) (tokens : List Token) (tags : List Tag) : List Bool :=
  Bits.ofNat 2 1 ++
    (match question with
      | some text => true :: TextField.textBits text
      | none => [false]) ++
    tokens.flatMap Token.bits ++ Token.endBits ++ TagList.bits tags

/-- What ends the exercises. -/
def endBits : List Bool := Bits.ofNat 2 0

/-- Reads the question of an exercise; one that is not there is empty. -/
def readQuestion : Scan String := do
  let present ← readBit
  if present then TextField.readText else pure ""

/-- Reads the expression of an exercise. It fails only when the bits run out; other damage leaves the
    text up to there. -/
def readExpression (cap : Nat) : Scan (List Char) := fun r =>
  let run := TokenRun.read cap r
  match run.ending with
  | .damage e => if e.isEndOfData then .error e run.rest else .ok run.text run.rest
  | _ => .ok run.text run.rest

/-- Reads an exercise after its marker; one without a text is none. -/
def readBody (cap : Nat) : Scan (Option Exercise) := do
  let question ← readQuestion
  let expression ← readExpression cap
  if expression.isEmpty then pure none
  else do
    let tags ← TagList.read
    pure (some ⟨template question (String.ofList expression), tags⟩)

/-- Reads an exercise, unless the phase ends here. -/
def read (cap : Nat) : Scan (Option Exercise) := do
  let marker ← peekBits 2
  if marker = 1 then do
    skipBits 2
    readBody cap
  else pure none

/-! ### Reading moves forward -/

theorem readQuestion_advances : Scan.Advances 1 readQuestion := by
  refine readBit_advances.bind (k := 0) fun present => ?_
  split
  · exact TextField.readText_advances.mono (by decide)
  · exact .pure _

theorem readExpression_advances (cap : Nat) : Scan.Advances 0 (readExpression cap) where
  ok := fun {r a r'} h => by
    have hrun := TokenRun.read_ahead cap r
    simp only [readExpression] at h
    split at h
    · split at h
      · cases h
      · cases h
        exact hrun
    · cases h
      exact hrun
  error := fun {r e r'} h => by
    have hrun := TokenRun.read_ahead cap r
    simp only [readExpression] at h
    split at h
    · split at h
      · cases h
        exact hrun
      · cases h
    · cases h

theorem readBody_advances (cap : Nat) : Scan.Advances 1 (readBody cap) := by
  refine readQuestion_advances.bind fun question =>
    (readExpression_advances cap).bind (k := 0) fun expression => ?_
  split
  · exact .pure _
  · exact (TagList.read_advances.bind fun tags => .pure _).mono (Nat.zero_le _)

theorem read_advances (cap : Nat) : Scan.Advances 0 (read cap) := by
  refine (peekBits_advances 2).bind (k := 0) fun marker => ?_
  split
  · exact ((skipBits_advances 2).bind fun _ => readBody_advances cap).mono (Nat.zero_le _)
  · exact .pure _

/-- Reading an exercise takes at least the marker and the bit for the question. -/
theorem ahead_of_read {cap : Nat} {r rest : BitReader} {exercise : Exercise}
    (h : read cap r = .ok (some exercise) rest) : r.Ahead 3 rest := by
  simp only [read, bind, EStateM.bind] at h
  split at h
  · next marker r₁ hpeek =>
    have hr := (peekBits_advances 2).ok hpeek
    split at h
    · have hbody := ((skipBits_advances 2).bind fun _ => readBody_advances cap).ok (r := r₁) h
      exact (hr.trans hbody).mono (by decide)
    · cases h
  · cases h

end Exercise

/-- What came of reading an exercise: the exercise, or the damage that was found and where. -/
inductive Attempt where
  | exercise (e : Exercise)
  | damage (error : DecodeError) (place : BitReader)
  deriving DecidableEq, Repr

namespace Attempt

def exercise? : Attempt → Option Exercise
  | exercise e => some e
  | damage _ _ => none

/-- Reads exercises one after the other, starting again one bit behind any damage. -/
def readAll (cap : Nat) (r : BitReader) : List Attempt :=
  match _h : ifRemaining (Exercise.read cap) r with
  | .ok none _ => []
  | .ok (some e) rest => exercise e :: readAll cap rest
  | .error error rest =>
    if _hrest : rest.hasRemaining = false then [damage error rest]
    else damage error rest :: readAll cap (rest.skip 1)
termination_by r.unread.length
decreasing_by
  · exact (Exercise.ahead_of_read (eq_ok_of_ifRemaining _h)).length_lt (by decide)
  · exact ((Exercise.read_advances cap).ifRemaining.error _h).length_skip_lt
      (mt BitReader.hasRemaining_eq_false.mpr _hrest)

/-- The exercises of a payload from a place on. -/
def exercises (cap : Nat) (r : BitReader) : List Exercise :=
  (readAll cap r).filterMap exercise?

end Attempt
end DrillCode
