import DrillCode.Payload.Decode
import DrillCode.Proofs.Bits.Yields
import DrillCode.Proofs.Number.Whole
import DrillCode.Proofs.OrderedMap
import DrillCode.Proofs.Payload.Exercise
import DrillCode.Proofs.Payload.Header

/-! # What a payload can hold

Whatever the bytes are, the contents that are read from them can be written (`Contents.Writable`). The unit that
ends a text stands in no text: not in one of seven-bit units, and not in one of bytes either, since bytes that are
no UTF-8 stand for the replacement character. The texts of a solution are ASCII. An exercise shows something and
does not end with white space, wherever reading found it and however its expression ended. -/

namespace DrillCode

/-! ### Texts -/

namespace TextField

theorem readUnits_yields (width : Nat) :
    Scan.Yields (fun units => ∀ unit ∈ units, unit < 2 ^ width ∧ unit ≠ terminator) (readUnits width) := by
  intro r
  fun_induction readUnits width r with
  | case1 r e rest h => rintro _ _ ⟨⟩
  | case2 r rest h =>
    rintro units r' ⟨⟩
    exact List.forall_mem_nil _
  | case3 r unit rest h hne units rest' hrec ih =>
    rintro _ r' ⟨⟩
    exact List.forall_mem_cons.mpr ⟨⟨readBits_yields width r unit rest h, hne⟩, ih units rest' hrec⟩
  | case4 r unit rest h hne e rest' hrec ih => rintro _ _ ⟨⟩

theorem readAscii_yields : Scan.Yields (fun text => isPlain text.toList = true) readAscii := by
  refine (readUnits_yields 7).map fun units h => isPlain_iff.mpr fun c hc => ?_
  rw [String.toList_ofList] at hc
  obtain ⟨unit, hunit, rfl⟩ := List.mem_map.mp hc
  have hlt : unit < 0x80 := (h unit hunit).1
  rw [Text.Utf8.toNat_ofNat (.inl (by omega))]
  exact h unit hunit

theorem readUtf8_yields : Scan.Yields Unbroken readUtf8 := by
  refine (readUnits_yields 8).map fun units h c hc hend => ?_
  rw [String.toList_ofList] at hc
  obtain ⟨byte, hbyte, heq⟩ := Text.Utf8.mem_of_mem_decode hc (by rw [hend]; decide)
  obtain ⟨unit, hunit, rfl⟩ := List.mem_map.mp hbyte
  obtain ⟨hlt, hne⟩ := h unit hunit
  rw [Text.Utf8.ofNat_toNat_of_lt hlt] at heq
  exact hne (heq.trans hend)

theorem unbroken_of_isPlain {text : String} (h : isPlain text.toList = true) : Unbroken text :=
  fun c hc => (isPlain_iff.mp h c hc).2

theorem readText_yields : Scan.Yields Unbroken readText := .bind_any fun selector => by
  split
  · exact fun r text r' h => unbroken_of_isPlain (readAscii_yields r text r' h)
  · exact readUtf8_yields
  · exact .throw _

end TextField

/-! ### The header -/

namespace HeaderEntry

theorem readLabel_yields : Scan.Yields Readable readLabel :=
  .bind_any fun _ => TextField.readText_yields.bind fun _ htext => .pure htext

theorem readGenerator_yields : Scan.Yields Readable readGenerator :=
  TextField.readText_yields.bind fun _ hname => .bind_any fun _ => .bind_any fun _ => .pure hname

theorem readOther_yields : Scan.Yields Readable readOther := (readBits_yields 4).bind fun kind hkind => by
  split
  · exact readGenerator_yields
  · next hne => exact .pure ⟨Nat.pos_of_ne_zero hne, hkind⟩

theorem read_yields : Scan.Yields (fun found => ∀ entry ∈ found, entry.Readable) read := .bind_any fun marker => by
  have hsome : ∀ {entry : HeaderEntry}, entry.Readable → ∀ e ∈ some entry, e.Readable :=
    fun h e he => Option.some.inj he ▸ h
  split
  · exact .pure nofun
  · exact readLabel_yields.map fun _ => hsome
  · exact readOther_yields.map fun _ => hsome
  · exact .throw _

theorem readAll_yields : Scan.Yields (fun entries => ∀ entry ∈ entries, entry.Readable) readAll := by
  intro r
  fun_induction readAll r with
  | case1 r e rest h => rintro _ _ ⟨⟩
  | case2 r rest h =>
    rintro entries r' ⟨⟩
    exact List.forall_mem_nil _
  | case3 r entry rest h entries rest' hrec ih =>
    rintro _ r' ⟨⟩
    exact List.forall_mem_cons.mpr ⟨read_yields r (some entry) rest h entry rfl, ih entries rest' hrec⟩
  | case4 r entry rest h e rest' hrec ih => rintro _ _ ⟨⟩

theorem unbroken_of_mem_labels {entries : List HeaderEntry} (h : ∀ entry ∈ entries, entry.Readable)
    {item : Tag × String} (hitem : item ∈ (labels entries).entries) : TextField.Unbroken item.2 := by
  obtain ⟨entry, hentry, hlabel⟩ := List.mem_filterMap.mp (OrderedMap.mem_of_mem_ofList hitem)
  have hreadable := h entry hentry
  cases entry with
  | label tag text =>
    cases hlabel
    exact hreadable
  | generator name range => cases hlabel
  | reserved kind => cases hlabel

theorem unbroken_of_mem_generators {entries : List HeaderEntry} (h : ∀ entry ∈ entries, entry.Readable)
    {item : String × Range} (hitem : item ∈ (generators entries).entries) : TextField.Unbroken item.1 := by
  obtain ⟨entry, hentry, hgenerator⟩ := List.mem_filterMap.mp (OrderedMap.mem_of_mem_ofList hitem)
  have hreadable := h entry hentry
  cases entry with
  | label tag text => cases hgenerator
  | generator name range =>
    cases hgenerator
    exact hreadable
  | reserved kind => cases hgenerator

end HeaderEntry

/-! ### The solutions -/

theorem Solution.read_yields : Scan.Yields Solution.Readable Solution.read := Solution.read_eq ▸
  .bind_any fun _ => TextField.readAscii_yields.bind fun _ hquestion => .bind_any fun _ =>
    TextField.readAscii_yields.bind fun _ hsteps => .bind_any fun _ => .pure ⟨hquestion, hsteps⟩

namespace SolutionPhase

theorem readable_of_mem_readEntries (r : BitReader) : ∀ s ∈ (readEntries r).solutions, s.Readable := by
  fun_induction readEntries r with
  | case1 r hnext e rest h => exact List.forall_mem_nil _
  | case2 r hnext solution rest h phase ih =>
    exact List.forall_mem_cons.mpr ⟨Solution.read_yields r solution rest h, ih⟩
  | case3 r hnext => exact List.forall_mem_nil _

end SolutionPhase

/-! ### Expressions -/

namespace Token

theorem ne_terminator_of_isDigit {c : Char} (h : c.isDigit = true) : c.toNat ≠ TextField.terminator := by
  have hcode := (Reading.code_of_isDigit h).1
  unfold TextField.terminator
  omega

theorem ne_terminator_of_mem_toString {value : Int} :
    ∀ c ∈ (toString value).toList, c.toNat ≠ TextField.terminator := by
  intro c h
  rcases Whole.mem_toString h with rfl | hdigit
  · decide
  · exact ne_terminator_of_isDigit hdigit

theorem ne_terminator_of_mem_extendedText {number : Nat} :
    ∀ c ∈ extendedText number, c.toNat ≠ TextField.terminator := by
  unfold extendedText
  split
  · simp [TextField.terminator]
  · split
    · simp [TextField.terminator]
    · have hopen : ∀ c ∈ " ?ext".toList, c.toNat ≠ TextField.terminator := by simp [TextField.terminator]
      have hclose : ∀ c ∈ "? ".toList, c.toNat ≠ TextField.terminator := by simp [TextField.terminator]
      have hnumber := @ne_terminator_of_mem_toString ((number % 16 : Nat) : Int)
      exact List.forall_mem_append.mpr ⟨List.forall_mem_append.mpr ⟨hopen, hnumber⟩, hclose⟩

/-- Only a name could bring in the character that ends texts. -/
theorem ne_terminator_of_mem_text {token : Token} (hname : ∀ text, token = name text → TextField.Unbroken text) :
    ∀ c ∈ token.text, c.toNat ≠ TextField.terminator := by
  cases token with
  | plus | minus | times | divide | power | equals => simp [text, TextField.terminator]
  | extended number => exact ne_terminator_of_mem_extendedText
  | name text => exact hname text rfl
  | integer value => exact ne_terminator_of_mem_toString
  | boolean | reservedConstant kind | reservedOperand kind => exact List.forall_mem_nil _

theorem readOperator_yields :
    Scan.Yields (fun found => ∀ text, found = some (name text) → TextField.Unbroken text) readOperator :=
  .bind_any fun number => by
    split
    case h_8 => exact (readBits_yields 4).map fun _ _ => nofun
    all_goals exact .pure nofun

theorem readConstant_yields :
    Scan.Yields (fun token => ∀ text, token = name text → TextField.Unbroken text) readConstant :=
  .bind_any fun kind => by
    split
    · exact .bind_any fun _ => .bind_any fun _ => .pure nofun
    · exact .pure nofun
    · exact .pure nofun

theorem readOperand_yields :
    Scan.Yields (fun token => ∀ text, token = name text → TextField.Unbroken text) readOperand :=
  .bind_any fun kind => by
    split
    · exact TextField.readText_yields.map fun text h text' heq => name.inj heq ▸ h
    · exact readConstant_yields
    · exact .pure nofun

theorem read_yields :
    Scan.Yields (fun found => ∀ token ∈ found, ∀ c ∈ token.text, c.toNat ≠ TextField.terminator) read := by
  have hnames : Scan.Yields (fun found => ∀ text, found = some (name text) → TextField.Unbroken text) read :=
    .bind_any fun operator => by
      split
      · exact readOperator_yields
      · exact readOperand_yields.map fun token h text heq => h text (Option.some.inj heq)
  rintro r found r' hread token rfl
  exact ne_terminator_of_mem_text fun text htoken => hnames r _ r' hread text (congrArg some htoken)

end Token

theorem TokenRun.ne_terminator_of_mem_rawText (room : Nat) (r : BitReader) :
    ∀ c ∈ rawText (read room r).tokens, c.toNat ≠ TextField.terminator := by
  have htokens : ∀ token ∈ (read room r).tokens, ∀ c ∈ token.text, c.toNat ≠ TextField.terminator := by
    fun_induction read room r with simp only [Token.ifRemaining_read] at *
    | case1 room r e rest h => exact List.forall_mem_nil _
    | case2 room r rest h => exact List.forall_mem_nil _
    | case3 room r token rest h hcap =>
      exact List.forall_mem_singleton.mpr (Token.read_yields r (some token) rest h token rfl)
    | case4 room r token rest h hfit run ih =>
      exact List.forall_mem_cons.mpr ⟨Token.read_yields r (some token) rest h token rfl, ih⟩
  intro c hc
  obtain ⟨token, htoken, hc⟩ := List.mem_flatMap.mp hc
  exact htokens token htoken c hc

/-! ### The exercises -/

namespace Exercise

/-- The exercise can be written as a single name: its text does not break off, shows something, and does not end
    with white space. -/
structure Writable (e : Exercise) : Prop where
  unbroken : TextField.Unbroken e.expression
  shows : ∃ c ∈ e.expression.toList, Text.isSpace c = false
  trimmed : Text.trimEnd e.expression.toList = e.expression.toList

/-- A question in front takes nothing away from what the expression shows. -/
theorem writable_template {question : String} {raw : List Char} (tags : List Tag)
    (hquestion : TextField.Unbroken question) (hraw : ∀ c ∈ raw, c.toNat ≠ TextField.terminator)
    (hne : Text.trim raw ≠ []) : Writable ⟨template question (String.ofList (Text.trim raw)), tags⟩ := by
  have hshows := Text.exists_of_trim_ne_nil hne
  have hunbroken : ∀ c ∈ Text.trim raw, c.toNat ≠ TextField.terminator := fun c hc =>
    hraw c ((Text.trim_isInfix raw).subset hc)
  have htext : ∃ front, (∀ c ∈ front, c.toNat ≠ TextField.terminator) ∧
      (template question (String.ofList (Text.trim raw))).toList = front ++ Text.trim raw := by
    unfold template
    split
    · exact ⟨[], List.forall_mem_nil _, String.toList_ofList⟩
    · have hcolon : ∀ c ∈ ": ".toList, c.toNat ≠ TextField.terminator := by simp [TextField.terminator]
      refine ⟨question.toList ++ ": ".toList, List.forall_mem_append.mpr ⟨hquestion, hcolon⟩, ?_⟩
      rw [String.toList_append, String.toList_append, @String.toList_ofList (Text.trim raw)]
  obtain ⟨front, hfront, htext⟩ := htext
  refine ⟨?_, ?_, ?_⟩
  · intro c hc
    rw [htext] at hc
    exact List.forall_mem_append.mpr ⟨hfront, hunbroken⟩ c hc
  · obtain ⟨c, hc, hs⟩ := hshows
    exact ⟨c, htext ▸ List.mem_append_right front hc, hs⟩
  · rw [htext, Text.trimEnd_append_of_exists hshows, Text.trimEnd_trim]

theorem readQuestion_yields : Scan.Yields TextField.Unbroken readQuestion := .bind_any fun present => by
  split
  · exact TextField.readText_yields
  · exact .pure (List.forall_mem_nil _)

theorem readExpression_yields (cap : Nat) : Scan.Yields
    (fun text => ∃ raw, text = Text.trim raw ∧ ∀ c ∈ raw, c.toNat ≠ TextField.terminator) (readExpression cap) := by
  intro r text r' h
  -- However the tokens ended, the text is that of the tokens up to there.
  have htext : text = (TokenRun.read cap r).text := by
    simp only [readExpression] at h
    split at h
    · split at h
      · cases h
      · cases h
        rfl
    · cases h
      rfl
  exact ⟨_, htext, TokenRun.ne_terminator_of_mem_rawText cap r⟩

theorem readBody_yields (cap : Nat) : Scan.Yields (fun found => ∀ e ∈ found, Writable e) (readBody cap) :=
  readQuestion_yields.bind fun question hquestion => (readExpression_yields cap).bind fun expression hexpression => by
    obtain ⟨raw, rfl, hraw⟩ := hexpression
    split
    · exact .pure nofun
    · next hne =>
      rw [List.isEmpty_iff] at hne
      refine .bind_any fun tags => .pure ?_
      rintro e ⟨⟩
      exact writable_template tags hquestion hraw hne

theorem read_yields (cap : Nat) : Scan.Yields (fun found => ∀ e ∈ found, Writable e) (read cap) :=
  .bind_any fun marker => by
    split
    · exact .bind_any fun _ => readBody_yields cap
    · exact .pure nofun

end Exercise

/-- Also behind damage only such exercises are found. -/
theorem Attempt.writable_of_mem_exercises (cap : Nat) (r : BitReader) : ∀ e ∈ exercises cap r, e.Writable := by
  induction r using Attempt.readAll_induction cap with
  | ends r rest hread =>
    rw [exercises_of_none hread]
    exact List.forall_mem_nil _
  | finds r e rest hread ih =>
    rw [exercises_of_some hread]
    exact List.forall_mem_cons.mpr ⟨Exercise.read_yields cap r (some e) rest hread e rfl, ih⟩
  | stops r error rest hread hrest =>
    rw [exercises_of_error hread, if_pos hrest]
    exact List.forall_mem_nil _
  | restarts r error rest hread hrest ih =>
    -- Reading starts again one bit further, and what it finds there is found by the same reader.
    rw [exercises_of_error hread, if_neg hrest]
    exact ih

/-! ### The contents -/

namespace Contents

/-- Everything in the contents can be written. -/
structure Writable (c : Contents) : Prop where
  labels : ∀ item ∈ c.labels.entries, TextField.Unbroken item.2
  generators : ∀ item ∈ c.generators.entries, TextField.Unbroken item.1
  solutions : ∀ s ∈ c.solutions, s.Readable
  exercises : ∀ e ∈ c.exercises, e.Writable

theorem writable_of_decode {settings : PayloadSettings} {bytes : List UInt8} {c : Contents}
    (h : decode settings bytes = .ok c) : c.Writable := by
  unfold decode read at h
  split at h
  · cases h
  · next entries rest hheader =>
    have hentries := HeaderEntry.readAll_yields _ entries rest hheader
    obtain rfl := Except.ok.inj h
    exact ⟨fun _ => HeaderEntry.unbroken_of_mem_labels hentries,
      fun _ => HeaderEntry.unbroken_of_mem_generators hentries,
      SolutionPhase.readable_of_mem_readEntries rest, Attempt.writable_of_mem_exercises _ _⟩

end Contents
end DrillCode
