import DrillCode.Payload.ExercisePhase
import DrillCode.Proofs.Bits.Fitting
import DrillCode.Proofs.Payload.Solution
import DrillCode.Proofs.Payload.Token
import DrillCode.Proofs.Text.Space

/-! # The exercises are read back, as far as they reach

An exercise whose expression shows something and fits under the cap is read back from its code. Where the
bits break off, the phase gives exactly the exercises that end before. In any bit string the exercises are
a first part of those that are found when more bits follow: where the shorter string runs out, passing over
single bits finds nothing in the two bits that may be left. -/

namespace DrillCode

/-- What an exercise is written from. -/
structure Outline where
  question : Option String
  tokens : List Token
  tags : List Tag
  deriving DecidableEq, Repr

namespace Outline

/-- The code of the exercise. -/
def bits (o : Outline) : List Bool := Exercise.bits o.question o.tokens o.tags

/-- The text of the expression, without white space at its ends. -/
def expression (o : Outline) : List Char := Text.trim (TokenRun.rawText o.tokens)

/-- The exercise that the code stands for. -/
def exercise (o : Outline) : Exercise :=
  ⟨Exercise.template (o.question.getD "") (String.ofList o.expression), o.tags⟩

/-- The question does not break off, every token can be told from its code, and the expression shows
    something and fits under the cap. -/
structure Readable (cap : Nat) (o : Outline) : Prop where
  question : ∀ text, o.question = some text → TextField.Unbroken text
  tokens : ∀ token ∈ o.tokens, token.Readable
  shows : ∃ c ∈ TokenRun.rawText o.tokens, Text.isSpace c = false
  fits : (TokenRun.rawText o.tokens).length ≤ cap

end Outline

namespace Exercise

/-! ### One exercise -/

/-- The code of a question, or of none. -/
def questionBits : Option String → List Bool
  | some text => true :: TextField.textBits text
  | none => [false]

theorem bits_eq (o : Outline) : o.bits = Bits.ofNat 2 1 ++
    (questionBits o.question ++ ((o.tokens.flatMap Token.bits ++ Token.endBits) ++ TagList.bits o.tags)) := by
  simp only [Outline.bits, bits, List.append_assoc]
  cases o.question <;> rfl

theorem readQuestion_reads : ∀ {question : Option String},
    (∀ text, question = some text → TextField.Unbroken text) →
    Scan.Reads readQuestion (questionBits question) (question.getD "")
  | none, _ => (readBit_reads false).bind_nil (.pure "")
  | some text, h => (readBit_reads true).bind (TextField.readText_reads (h text rfl))

theorem readExpression_reads {cap : Nat} {tokens : List Token} (h : ∀ token ∈ tokens, token.Readable)
    (hfit : (TokenRun.rawText tokens).length ≤ cap) :
    Scan.Reads (readExpression cap) (tokens.flatMap Token.bits ++ Token.endBits)
      (Text.trim (TokenRun.rawText tokens)) := fun position rest => by
  unfold readExpression
  simp only [TokenRun.read_reads cap h hfit position rest, TokenRun.text, TokenRun.rawText_normal]

theorem readBody_reads {cap : Nat} {o : Outline} (h : o.Readable cap) {code : List Bool}
    (htags : Scan.Reads TagList.read code o.tags) :
    Scan.Reads (readBody cap)
      (questionBits o.question ++ ((o.tokens.flatMap Token.bits ++ Token.endBits) ++ code)) (some o.exercise) := by
  refine (readQuestion_reads h.question).bind ((readExpression_reads h.tokens h.fits).bind ?_)
  rw [if_neg (by rw [List.isEmpty_iff]; exact Text.trim_ne_nil h.shows)]
  exact htags.bind_nil (.pure _)

/-- An exercise is read back from its code with whatever code of its tags. -/
theorem read_reads_tags {cap : Nat} {o : Outline} (h : o.Readable cap) {code : List Bool}
    (htags : Scan.Reads TagList.read code o.tags) :
    Scan.Reads (read cap) (Bits.ofNat 2 1 ++
      (questionBits o.question ++ ((o.tokens.flatMap Token.bits ++ Token.endBits) ++ code))) (some o.exercise) := by
  intro position rest
  have hbody := (skipBits_reads (Bits.ofNat 2 1)).bind (f := fun _ => readBody cap) (readBody_reads h htags)
  have hread := hbody position rest
  rw [List.append_assoc] at hread ⊢
  exact (Scan.bind_ok (peekBits_ofNat (by decide) (by decide))).trans hread

theorem read_reads {cap : Nat} {o : Outline} (h : o.Readable cap) :
    Scan.Reads (read cap) o.bits (some o.exercise) := by
  rw [bits_eq]
  exact read_reads_tags h (TagList.read_reads o.tags)

/-- An exercise, or what stands in its place, has bits. -/
theorem ifRemaining_read (cap : Nat) : ifRemaining (read cap) = read cap :=
  ((peekBits_needsBits (by decide)).bind _).ifRemaining_eq

theorem readQuestion_stable : Scan.Stable readQuestion := readBit_stable.bind fun present => by
  split
  · exact TextField.readText_stable
  · exact .pure ""

theorem readExpression_of_error {cap : Nat} {r : BitReader} {e : DecodeError}
    (h : (TokenRun.read cap r).ending = .damage e) (he : e.isEndOfData = true) :
    readExpression cap r = .error e (TokenRun.read cap r).rest := by
  simp only [readExpression, h, he, if_true]

theorem readExpression_of_ok {cap : Nat} {r : BitReader}
    (h : ∀ e, (TokenRun.read cap r).ending = .damage e → e.isEndOfData = false) :
    readExpression cap r = .ok (TokenRun.read cap r).text (TokenRun.read cap r).rest := by
  simp only [readExpression]
  split
  · next e hend => rw [if_neg (by rw [h e hend]; decide)]
  · rfl

theorem readExpression_stable (cap : Nat) : Scan.Stable (readExpression cap) := fun r => by
  by_cases hend : ∃ e, (TokenRun.read cap r).ending = .damage e ∧ e.isEndOfData = true
  · obtain ⟨e, hdamage, he⟩ := hend
    have hread := readExpression_of_error hdamage he
    refine ⟨fun h => ?_, fun h he' => ?_, fun h _ => ?_⟩ <;> rw [hread] at h <;> cases h
    · rw [he] at he'
      cases he'
    · exact TokenRun.read_spent hdamage he
  · have hwhole : ∀ e, (TokenRun.read cap r).ending = .damage e → e.isEndOfData = false := fun e h =>
      Bool.eq_false_iff.mpr fun he => hend ⟨e, h, he⟩
    have hread := readExpression_of_ok hwhole
    refine ⟨fun h more => ?_, fun h => ?_, fun h => ?_⟩ <;> rw [hread] at h <;> cases h
    have hlong := TokenRun.read_extend hwhole more
    have hending := congrArg TokenRun.ending hlong
    rw [readExpression_of_ok (fun e h => hwhole e (hending ▸ h)), hlong]
    rfl

theorem readBody_stable (cap : Nat) : Scan.Stable (readBody cap) :=
  readQuestion_stable.bind fun question => (readExpression_stable cap).bind fun expression => by
    split
    · exact .pure none
    · exact TagList.read_stable.bind fun _ => .pure _

theorem read_stable (cap : Nat) : Scan.Stable (read cap) := (peekBits_stable (by decide)).bind fun marker => by
  split
  · exact (skipBits_stable 2).bind fun _ => readBody_stable cap
  · exact .pure none

end Exercise

namespace Attempt

/-! ### One attempt after the other -/

section
variable {cap : Nat} {r rest : BitReader} {error : DecodeError}

theorem readAll_of_none (h : Exercise.read cap r = .ok none rest) : readAll cap r = [] := by
  rw [readAll]
  split <;> rename_i h' <;> rw [Exercise.ifRemaining_read, h] at h' <;> cases h'

theorem readAll_of_some {e : Exercise} (h : Exercise.read cap r = .ok (some e) rest) :
    readAll cap r = exercise e :: readAll cap rest := by
  rw [readAll]
  split <;> rename_i h' <;> rw [Exercise.ifRemaining_read, h] at h' <;> cases h'
  rfl

/-- Behind damage reading starts again at the next bit. -/
theorem readAll_of_error (h : Exercise.read cap r = .error error rest) : readAll cap r =
    if rest.unread = [] then [damage error rest] else damage error rest :: readAll cap (rest.skip 1) := by
  rw [readAll]
  split <;> rename_i h' <;> rw [Exercise.ifRemaining_read, h] at h' <;> cases h'
  simp only [BitReader.hasRemaining_eq_false, dite_eq_ite]

theorem exercises_of_none (h : Exercise.read cap r = .ok none rest) : exercises cap r = [] := by
  rw [exercises, readAll_of_none h, List.filterMap_nil]

theorem exercises_of_some {e : Exercise} (h : Exercise.read cap r = .ok (some e) rest) :
    exercises cap r = e :: exercises cap rest := by
  rw [exercises, readAll_of_some h]
  rfl

theorem exercises_of_error (h : Exercise.read cap r = .error error rest) :
    exercises cap r = if rest.unread = [] then [] else exercises cap (rest.skip 1) := by
  rw [exercises, readAll_of_error h]
  split <;> rfl

end

/-- The steps of the phase: its end, an exercise, and damage with no bits left behind it or with some. -/
theorem readAll_induction (cap : Nat) {motive : BitReader → Prop}
    (ends : ∀ r rest, Exercise.read cap r = .ok none rest → motive r)
    (finds : ∀ r e rest, Exercise.read cap r = .ok (some e) rest → motive rest → motive r)
    (stops : ∀ r error rest, Exercise.read cap r = .error error rest → rest.unread = [] → motive r)
    (restarts : ∀ r error rest, Exercise.read cap r = .error error rest → rest.unread ≠ [] →
      motive (rest.skip 1) → motive r) (r : BitReader) : motive r := by
  fun_induction readAll cap r with simp only [Exercise.ifRemaining_read, BitReader.hasRemaining_eq_false] at *
  | case1 r rest h => exact ends r rest h
  | case2 r e rest h ih => exact finds r e rest h ih
  | case3 r error rest h hrest => exact stops r error rest h hrest
  | case4 r error rest h hrest ih => exact restarts r error rest h hrest ih

/-! ### Where more bits follow -/

theorem exercises_endBits (cap position : Nat) (rest : List Bool) :
    exercises cap ⟨position, Exercise.endBits ++ rest⟩ = [] := by
  have hpeek : peekBits 2 ⟨position, Exercise.endBits ++ rest⟩ = .ok 0 ⟨position, Exercise.endBits ++ rest⟩ :=
    peekBits_ofNat (by decide) (by decide)
  exact exercises_of_none (Scan.bind_ok hpeek)

/-- Two bits hold no exercise. -/
theorem exercises_of_spent {cap : Nat} {r : BitReader} (h : r.Spent) : exercises cap r = [] := by
  induction r using readAll_induction cap with
  | ends r rest hread => exact exercises_of_none hread
  | finds r e rest hread =>
    have hahead := (Exercise.ahead_of_read hread).length_le
    unfold BitReader.Spent at h
    omega
  | stops r error rest hread hrest => rw [exercises_of_error hread, if_pos hrest]
  | restarts r error rest hread hrest ih =>
    have hspent : rest.Spent := ((Exercise.read_advances cap).error hread).spent h
    rw [exercises_of_error hread, if_neg hrest]
    exact ih (hspent.skip 1)

theorem exercises_extend (cap : Nat) (r : BitReader) (more : List Bool) :
    exercises cap r <+: exercises cap (r.extend more) := by
  induction r using readAll_induction cap with
  | ends r rest hread =>
    rw [exercises_of_none hread]
    exact List.nil_prefix
  | finds r e rest hread ih =>
    rw [exercises_of_some hread, exercises_of_some ((Exercise.read_stable cap r).ok hread more)]
    exact List.cons_prefix_cons.mpr ⟨rfl, ih⟩
  | stops r error rest hread hrest =>
    rw [exercises_of_error hread, if_pos hrest]
    exact List.nil_prefix
  | restarts r error rest hread hrest ih =>
    rw [exercises_of_error hread, if_neg hrest]
    by_cases he : error.isEndOfData = true
    · have hspent := (Exercise.read_stable cap r).spent hread he
      rw [exercises_of_spent (hspent.skip 1)]
      exact List.nil_prefix
    · have hlong := (Exercise.read_stable cap r).error hread (Bool.eq_false_iff.mpr he) more
      have hskip : (rest.extend more).skip 1 = (rest.skip 1).extend more := by
        obtain ⟨position, unread⟩ := rest
        cases unread with
        | nil => exact absurd rfl hrest
        | cons bit unread => simp [BitReader.skip, BitReader.extend]
      have hnil : (rest.extend more).unread ≠ [] := fun h => hrest (List.append_eq_nil_iff.mp h).1
      rw [exercises_of_error hlong, if_neg hnil, hskip]
      exact ih

/-! ### Where the bits break off -/

theorem exercises_cut {cap : Nat} {lost tail : List Bool} :
    ∀ {outlines : List Outline} {position : Nat} {unread : List Bool}, (∀ o ∈ outlines, o.Readable cap) →
      unread ++ lost = outlines.flatMap Outline.bits ++ (Exercise.endBits ++ tail) →
      exercises cap ⟨position, unread⟩ =
        (Bits.fitting Outline.bits (position + unread.length) position outlines).map Outline.exercise
  | [], position, unread, _, hbits => by
    have hend : unread ++ lost = Exercise.endBits ++ tail := hbits
    rcases Bits.cut_cases hend with ⟨more, rfl, -⟩ | ⟨more, hcode, hne⟩
    · exact exercises_endBits cap position more
    · exact exercises_of_spent (Nat.le_of_lt (Bits.length_lt_of_cut hcode hne))
  | o :: outlines, position, unread, h, hbits => by
    have hread := Exercise.read_reads (h o List.mem_cons_self)
    rw [List.flatMap_cons, List.append_assoc] at hbits
    rcases Bits.cut_cases hbits with ⟨more, rfl, hmore⟩ | ⟨more, hcode, hne⟩
    · -- The first exercise is there as a whole.
      have hlimit : position + (o.bits ++ more).length = position + o.bits.length + more.length := by
        rw [List.length_append, Nat.add_assoc]
      rw [exercises_of_some (hread position more), hlimit, Bits.fitting_cons_of_le (Nat.le_add_right _ _),
        List.map_cons, exercises_cut (fun x hx => h x (List.mem_cons_of_mem o hx)) hmore]
    · -- The bits break off inside the first exercise.
      have hlen := Bits.length_lt_of_cut hcode hne
      obtain ⟨e, r', hcut, -, hspent⟩ := (Exercise.read_stable cap).of_cut hread hcode hne position
      rw [exercises_of_error hcut, Bits.fitting_cons_of_lt (by omega)]
      split
      · rfl
      · exact exercises_of_spent (hspent.skip 1)

end Attempt
end DrillCode
