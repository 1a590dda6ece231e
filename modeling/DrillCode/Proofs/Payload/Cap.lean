import DrillCode.Proofs.Payload.Toll

/-! # The cap on expressions

A cap that stops no expression leaves everything as any larger cap does: each row of tokens is the same, so it ends in
the same place, and what follows is read from there. A payload of `n` bytes has no expression of more than `9 * n`
characters, so from there on every cap is the same. -/

namespace DrillCode

namespace TokenRun
variable {room room' : Nat} {r : BitReader}

/-- More room changes nothing for a row that did not use it up. -/
theorem read_of_ne_cap (h : (read room r).ending ≠ .cap) (hroom : room ≤ room') : read room' r = read room r := by
  fun_induction read room r generalizing room' with simp only [Token.ifRemaining_read] at *
  | case1 room r e rest hread => exact read_of_error hread
  | case2 room r rest hread => exact read_of_marker hread
  | case3 room r token rest hread hcap => exact absurd rfl h
  | case4 room r token rest hread hfit run =>
    rename_i ih
    have hfits : token.text.length ≤ room' := Nat.le_trans (Nat.le_of_not_lt hfit) hroom
    rw [read_of_fits hread hfits, ih h (Nat.sub_le_sub_right hroom _)]

theorem lt_length_of_cap (h : (read room r).ending = .cap) : room < (rawText (read room r).tokens).length := by
  fun_induction read room r with simp only [Token.ifRemaining_read] at *
  | case1 room r e rest hread => cases h
  | case2 room r rest hread => cases h
  | case3 room r token rest hread hcap =>
    rw [rawText, List.flatMap_singleton]
    exact hcap
  | case4 room r token rest hread hfit run ih =>
    have hrest : room - token.text.length < (rawText run.tokens).length := ih h
    have hlength : (rawText (token :: run.tokens)).length = token.text.length + (rawText run.tokens).length := by
      rw [rawText, List.flatMap_cons, List.length_append]
      rfl
    rw [hlength]
    omega

end TokenRun

namespace Exercise

/-- The row of tokens of an exercise, where reading it gets that far. -/
def row? (cap : Nat) (r : BitReader) : Option TokenRun :=
  if r.nextIs 2 1 then
    match readQuestion (r.skip 2) with
    | .ok _ rest => some (TokenRun.read cap rest)
    | .error _ _ => none
  else none

/-- An exercise whose row did not use up its room is the same with more of it. -/
theorem read_of_ne_cap {cap cap' : Nat} {r : BitReader} (h : ∀ run, row? cap r = some run → run.ending ≠ .cap)
    (hcap : cap ≤ cap') : read cap' r = read cap r := by
  cases hmarker : r.nextIs 2 1 with
  | false =>
    rcases read_of_nextIs_eq_false hmarker with hnone | hends
    · rw [hnone, hnone]
    · rw [hends, hends]
  | true =>
    rw [read_of_nextIs hmarker, read_of_nextIs hmarker]
    cases hquestion : readQuestion (r.skip 2) with
    | error e rest => exact (Scan.bind_error hquestion).trans (Scan.bind_error hquestion).symm
    | ok question rest =>
      have hrow : row? cap r = some (TokenRun.read cap rest) := by rw [row?, if_pos hmarker, hquestion]
      have hrun := TokenRun.read_of_ne_cap (h _ hrow) hcap
      have hexpression : readExpression cap' rest = readExpression cap rest := by
        unfold readExpression
        rw [hrun]
      refine (Scan.bind_ok hquestion).trans (Eq.trans ?_ (Scan.bind_ok hquestion).symm)
      simp only [bind, EStateM.bind, hexpression]

theorem exists_of_row? {cap : Nat} {r : BitReader} {run : TokenRun} (h : row? cap r = some run) :
    ∃ rest, r.Ahead 0 rest ∧ run = TokenRun.read cap rest := by
  unfold row? at h
  split at h
  · split at h
    · next question rest hquestion =>
      cases h
      exact ⟨rest, (r.ahead_skip 2).trans ((readQuestion_advances.ok hquestion).mono (Nat.zero_le 1)), rfl⟩
    · cases h
  · cases h

end Exercise

namespace Attempt

/-- The rows of tokens that are read for exercises. -/
def rows (cap : Nat) (r : BitReader) : List TokenRun := (starts cap r).filterMap (Exercise.row? cap)

/-- Where no row uses up its room, more of it changes no exercise. -/
theorem exercises_of_ne_cap {cap cap' : Nat} {r : BitReader} (h : ∀ run ∈ rows cap r, run.ending ≠ .cap)
    (hcap : cap ≤ cap') : exercises cap' r = exercises cap r := by
  have hrows : ∀ start ∈ starts cap r, ∀ run, Exercise.row? cap start = some run → run.ending ≠ .cap :=
    fun start hstart run hrun => h run (List.mem_filterMap.mpr ⟨start, hstart, hrun⟩)
  clear h
  induction r using readAll_induction cap with
  | ends r rest hread =>
    rw [starts_of_none hread] at hrows
    have hsame := Exercise.read_of_ne_cap (hrows r (List.mem_singleton_self r)) hcap
    rw [exercises_of_none hread, exercises_of_none (hsame.trans hread)]
  | finds r found rest hread ih =>
    rw [starts_of_some hread] at hrows
    have hsame := Exercise.read_of_ne_cap (hrows r List.mem_cons_self) hcap
    rw [exercises_of_some hread, exercises_of_some (hsame.trans hread),
      ih fun start hstart => hrows start (List.mem_cons_of_mem r hstart)]
  | stops r e rest hread hrest =>
    rw [starts_of_error hread, if_pos hrest] at hrows
    have hsame := Exercise.read_of_ne_cap (hrows r (List.mem_singleton_self r)) hcap
    rw [exercises_of_error hread, exercises_of_error (hsame.trans hread), if_pos hrest, if_pos hrest]
  | restarts r e rest hread hrest ih =>
    rw [starts_of_error hread, if_neg hrest] at hrows
    have hsame := Exercise.read_of_ne_cap (hrows r List.mem_cons_self) hcap
    rw [exercises_of_error hread, exercises_of_error (hsame.trans hread), if_neg hrest, if_neg hrest,
      ih fun start hstart => hrows start (List.mem_cons_of_mem r hstart)]

/-- A row that is read for an exercise is charged to the bits from the first place on, and has used up its room only
    with a text that is longer than the cap. -/
theorem of_mem_rows {cap : Nat} {r : BitReader} {run : TokenRun} (h : run ∈ rows cap r) :
    8 * (TokenRun.rawText run.tokens).length ≤ 9 * r.unread.length ∧
      (run.ending = .cap → cap < (TokenRun.rawText run.tokens).length) := by
  obtain ⟨start, hstart, hrun⟩ := List.mem_filterMap.mp h
  obtain ⟨rest, hrest, rfl⟩ := Exercise.exists_of_row? hrun
  have hlength := TokenRun.length_rawText_le cap rest
  have hahead := ((ahead_of_mem_starts hstart).trans hrest).length_le
  exact ⟨by omega, TokenRun.lt_length_of_cap⟩

end Attempt

namespace Contents

/-- The rows of tokens that are read for the exercises of a payload. -/
def rows (settings : PayloadSettings) (bytes : List UInt8) : List TokenRun :=
  match HeaderEntry.readAll (.ofBytes bytes settings.headerOffset) with
  | .ok _ rest => Attempt.rows settings.expressionCap (SolutionPhase.read rest).rest
  | .error _ _ => []

variable {offset cap cap' : Nat} {bytes : List UInt8}

theorem length_unread_le {entries : List HeaderEntry} {rest : BitReader}
    (h : HeaderEntry.readAll (.ofBytes bytes offset) = .ok entries rest) :
    (SolutionPhase.read rest).rest.unread.length ≤ 8 * bytes.length := by
  obtain ⟨n, hahead, -⟩ := HeaderEntry.readAll_covers _ entries rest h
  have hheader := hahead.length_le
  have hsolutions := (SolutionPhase.read_ahead rest).length_le
  rw [BitReader.length_unread_ofBytes] at hheader
  omega

theorem decode_of_ne_cap (hcap : cap ≤ cap') (h : ∀ run ∈ rows ⟨offset, cap⟩ bytes, run.ending ≠ .cap) :
    decode ⟨offset, cap'⟩ bytes = decode ⟨offset, cap⟩ bytes := by
  unfold decode rows at *
  cases hheader : HeaderEntry.readAll (.ofBytes bytes offset) with
  | error e rest => rw [read_of_error hheader, read_of_error hheader]
  | ok entries rest =>
    rw [hheader] at h
    rw [read_of_ok hheader, read_of_ok hheader, Attempt.exercises_of_ne_cap h hcap]

theorem of_mem_rows {run : TokenRun} (h : run ∈ rows ⟨offset, cap⟩ bytes) :
    (TokenRun.rawText run.tokens).length ≤ 9 * bytes.length ∧
      (run.ending = .cap → cap < (TokenRun.rawText run.tokens).length) := by
  unfold rows at h
  cases hheader : HeaderEntry.readAll (.ofBytes bytes offset) with
  | error e rest =>
    rw [hheader] at h
    cases h
  | ok entries rest =>
    rw [hheader] at h
    obtain ⟨hlength, hlong⟩ := Attempt.of_mem_rows h
    have hunread := length_unread_le hheader
    exact ⟨by omega, hlong⟩

theorem length_expression_le {c : Contents} (h : decode ⟨offset, cap⟩ bytes = .ok c) :
    ∀ e ∈ c.exercises, e.expression.length ≤ 9 * bytes.length := by
  intro e he
  obtain ⟨entries, rest, hheader, rfl⟩ := exists_of_read h
  have hlength := Attempt.length_expression_le he
  have hunread := length_unread_le hheader
  omega

/-- A larger cap changes nothing unless an expression was stopped by the smaller one. No expression of a payload has
    more than nine characters for each byte, neither as it is read, with the white space at its ends, nor as the
    template of an exercise; so all caps from there on are the same. -/
theorem decode_cap (offset : Nat) (bytes : List UInt8) :
    (∀ cap cap', cap ≤ cap' → (∀ run ∈ rows ⟨offset, cap⟩ bytes, run.ending ≠ .cap) →
      decode ⟨offset, cap'⟩ bytes = decode ⟨offset, cap⟩ bytes) ∧
    (∀ cap, ∀ run ∈ rows ⟨offset, cap⟩ bytes, (TokenRun.rawText run.tokens).length ≤ 9 * bytes.length) ∧
    (∀ cap c, decode ⟨offset, cap⟩ bytes = .ok c → ∀ e ∈ c.exercises, e.expression.length ≤ 9 * bytes.length) ∧
    ∀ cap cap', 9 * bytes.length ≤ cap → 9 * bytes.length ≤ cap' →
      decode ⟨offset, cap'⟩ bytes = decode ⟨offset, cap⟩ bytes := by
  have hwide : ∀ cap, 9 * bytes.length ≤ cap →
      decode ⟨offset, cap⟩ bytes = decode ⟨offset, 9 * bytes.length⟩ bytes := fun cap hle =>
    decode_of_ne_cap hle fun run hrun hcap => by
      obtain ⟨hlength, hlong⟩ := of_mem_rows hrun
      exact absurd (hlong hcap) (Nat.not_lt.mpr hlength)
  refine ⟨fun _ _ hcap h => decode_of_ne_cap hcap h, fun _ _ hrun => (of_mem_rows hrun).1,
    fun _ _ => length_expression_le, fun cap cap' h h' => ?_⟩
  rw [hwide cap h, hwide cap' h']

/-- An exercise of a plus sign, whose three characters leave room under a cap of four. -/
theorem decode_cap_sample :
    (∀ run ∈ rows ⟨0, 4⟩ [0x05, 0x1C, 0x00], run.ending ≠ .cap) ∧
    decode ⟨0, 500⟩ [0x05, 0x1C, 0x00] = decode ⟨0, 4⟩ [0x05, 0x1C, 0x00] ∧
    decode ⟨0, 4⟩ [0x05, 0x1C, 0x00] = .ok ⟨.empty, .empty, [], [⟨"+", []⟩]⟩ ∧
    decode ⟨0, 500⟩ [0x05, 0x1C, 0x00] = decode ⟨0, 27⟩ [0x05, 0x1C, 0x00] := by
  have hrows : ∀ run ∈ rows ⟨0, 4⟩ [0x05, 0x1C, 0x00], run.ending ≠ .cap := by decide +kernel
  obtain ⟨hsame, -, -, hwide⟩ := decode_cap 0 [0x05, 0x1C, 0x00]
  exact ⟨hrows, hsame 4 500 (by decide) hrows, by decide +kernel, hwide 27 500 (by decide) (by decide)⟩

end Contents
end DrillCode
