import DrillCode.Proofs.Payload.Toll

/-! # Damage behind the header

Behind the header a payload always gives contents; damage there only takes entries away. A solution is cut short by
nothing but bits that run out, and then no bits are left for an exercise. An exercise is cut short by that, or by the
two bits that say how its question is written; only behind these bits further exercises are found. Here a phase counts
as damaged, too, where a check finds no bits left. -/

namespace DrillCode

/-- A scan that only bits that run out can stop rejects nothing. -/
theorem Scan.Placeless.rejects {α : Type} {s : Scan α} {D : DecodeError → List Bool → Prop}
    (hs : Placeless (fun _ => False) s) : Rejects D s := by
  intro r e rest h he
  rcases hs.of_error h with rfl | hnone
  · cases he
  · exact hnone.elim

/-! ### Solutions -/

/-- The phase ends early only where the bits run out, and leaves at most two of them. -/
theorem SolutionPhase.endOfData_of_damage {r : BitReader} {e : DecodeError} (h : (readEntries r).damage = some e) :
    e = .endOfData r.bitLength ∧ (readEntries r).rest.Spent := by
  fun_induction readEntries r with
  | case1 r hnext e' rest hread =>
    cases h
    obtain rfl | hnone := (Solution.read_placeless (E := fun _ => False)).of_error hread
    · rw [(Solution.read_advances.error hread).bitLength_eq]
      exact ⟨rfl, (Solution.read_stable r).spent hread rfl⟩
    · exact hnone.elim
  | case2 r hnext solution rest hread phase ih =>
    rw [← (Solution.read_advances.ok hread).bitLength_eq]
    exact ih h
  | case3 r hnext => cases h

/-! ### Exercises -/

/-- The bits say in a way that no text has how it is written, and the error names that way. -/
inductive TextField.BadSelector : DecodeError → List Bool → Prop
  | mk {selector : Nat} (h : selector = 2 ∨ selector = 3) :
    BadSelector (.malformedEncoding selector) (Bits.ofNat 2 selector)

theorem TextField.readText_rejects : Scan.Rejects BadSelector readText := by
  refine (readBits_placeless (by decide)).rejects.bind (readBits_consumes 2) fun selector front ⟨hlt, hfront⟩ => ?_
  subst hfront
  split
  · exact readAscii_placeless.rejects
  · exact readUtf8_placeless.rejects
  · next h0 h1 =>
    have hne : selector ≠ 0 ∧ selector ≠ 1 := ⟨h0, h1⟩
    refine .throw ?_
    rw [List.append_nil]
    exact .mk (by omega)

namespace Exercise

/-- Behind its marker an exercise announces a question, in a way that no text has. -/
inductive BadQuestion : DecodeError → List Bool → Prop
  | mk {e : DecodeError} {selector : List Bool} (h : TextField.BadSelector e selector) :
    BadQuestion e (Bits.ofNat 2 1 ++ true :: selector)

theorem readQuestion_rejects :
    Scan.Rejects (fun e front => BadQuestion e (Bits.ofNat 2 1 ++ front)) readQuestion := by
  refine readBit_rejects.bind readBit_consumes fun present front hfront => ?_
  subst hfront
  split
  · next hpresent =>
    subst hpresent
    exact TextField.readText_rejects.mono fun e selector h => .mk h
  · exact .pure ""

theorem readBody_rejects (cap : Nat) :
    Scan.Rejects (fun e front => BadQuestion e (Bits.ofNat 2 1 ++ front)) (readBody cap) := by
  refine readQuestion_rejects.bind readQuestion_advances.consumes fun question _ _ => Scan.Placeless.rejects ?_
  refine (readExpression_placeless cap).bind fun text => ?_
  split
  · exact .pure none
  · exact TagList.read_placeless.bind fun _ => .pure _

/-- An exercise cannot be read where the bits run out, which leaves at most two of them, and where its question is
    announced in a way that no text has. -/
theorem read_error {cap : Nat} {r rest : BitReader} {e : DecodeError} (h : read cap r = .error e rest) :
    e = .endOfData r.bitLength ∧ rest.Spent ∨
      ∃ front, BadQuestion e front ∧ r.unread = front ++ rest.unread := by
  by_cases hend : e.isEndOfData = true
  · refine .inl ⟨?_, (read_stable cap r).spent h hend⟩
    rw [← ((read_advances cap).error h).bitLength_eq]
    rcases (read_placeless cap).of_error h with he | he
    · exact he
    · rw [DecodeError.IsDamage, hend] at he
      cases he
  · have hdamage : e.isEndOfData = false := Bool.eq_false_iff.mpr hend
    cases hmarker : r.nextIs 2 1 with
    | true =>
      rw [read_of_nextIs hmarker] at h
      obtain ⟨front, hfront, hunread⟩ := readBody_rejects cap _ e rest h hdamage
      refine .inr ⟨Bits.ofNat 2 1 ++ front, hfront, ?_⟩
      rw [eq_append_of_nextIs hmarker, hunread, List.append_assoc]
    | false =>
      obtain hnone | hends := read_of_nextIs_eq_false hmarker
      · rw [hnone cap] at h
        cases h
      · rw [hends cap] at h
        cases h
        cases hdamage

end Exercise

/-- Behind bits that ran out there is no exercise, and otherwise a question was announced in a way that no text has. -/
theorem Attempt.of_damage {cap : Nat} {r place : BitReader} {before after : List Attempt} {e : DecodeError}
    (h : readAll cap r = before ++ damage e place :: after) :
    (e = .endOfData r.bitLength ∧ place.Spent ∧ exercises cap r = before.filterMap exercise?) ∨
      ∃ start ∈ starts cap r, Exercise.read cap start = .error e place ∧
        ∃ front, Exercise.BadQuestion e front ∧ start.unread = front ++ place.unread := by
  obtain ⟨⟨start, hstart, hread⟩, hafter⟩ := of_readAll_eq h
  rcases Exercise.read_error hread with ⟨rfl, hspent⟩ | hquestion
  · refine .inl ⟨by rw [(ahead_of_mem_starts hstart).bitLength_eq], hspent, ?_⟩
    have hnone : after.filterMap exercise? = [] := by
      rw [hafter]
      split
      · rfl
      · exact exercises_of_spent (hspent.skip 1)
    rw [exercises, h, List.filterMap_append, List.filterMap_cons_none rfl, hnone, List.append_nil]
  · exact .inr ⟨start, hstart, hread, hquestion⟩

namespace Contents

/-- Behind a header nothing keeps a payload from being read. Where a solution is damaged, the bits ran out, at most two
    of them are left, and there are no exercises. Where an exercise is damaged, either the bits ran out, at most two of
    them are left, and the exercises are those before; or it was read up to the two bits that say how its question is
    written, which are 2 or 3. -/
theorem decode_absorbs {settings : PayloadSettings} {bytes : List UInt8} {entries : List HeaderEntry}
    {rest : BitReader} (h : HeaderEntry.readAll (.ofBytes bytes settings.headerOffset) = .ok entries rest) :
    ∃ c, decode settings bytes = .ok c ∧
      (∀ e, (SolutionPhase.readEntries rest).damage = some e →
        e = .endOfData (8 * bytes.length) ∧ (SolutionPhase.readEntries rest).rest.Spent ∧ c.exercises = []) ∧
      ∀ before e place after,
        Attempt.readAll settings.expressionCap (SolutionPhase.read rest).rest =
          before ++ .damage e place :: after →
        (e = .endOfData (8 * bytes.length) ∧ place.Spent ∧ c.exercises = before.filterMap Attempt.exercise?) ∨
          ∃ start ∈ Attempt.starts settings.expressionCap (SolutionPhase.read rest).rest,
            Exercise.read settings.expressionCap start = .error e place ∧
            ∃ front, Exercise.BadQuestion e front ∧ start.unread = front ++ place.unread := by
  have hlength : rest.bitLength = 8 * bytes.length := by
    obtain ⟨n, hahead, -⟩ := HeaderEntry.readAll_covers _ entries rest h
    rw [hahead.bitLength_eq, BitReader.bitLength_ofBytes]
  refine ⟨_, read_of_ok h, fun e he => ?_, fun before e place after hlog => ?_⟩
  · obtain ⟨rfl, hspent⟩ := SolutionPhase.endOfData_of_damage he
    rw [hlength]
    exact ⟨rfl, hspent, Attempt.exercises_of_spent (hspent.skipMarker 2)⟩
  · have hdamage := Attempt.of_damage hlog
    rw [(SolutionPhase.read_ahead rest).bitLength_eq, hlength] at hdamage
    exact hdamage

/-- A solution that breaks off, and an exercise found behind one whose question is announced by 2. -/
theorem decode_absorbs_sample :
    (∃ c, decode ⟨0, 500⟩ [0x10] = .ok c ∧ c.exercises = []) ∧
    ∃ c, decode ⟨0, 500⟩ [0x07, 0x14, 0x70, 0x00] = .ok c ∧ c.exercises = [⟨"+", []⟩] ∧
      ∃ (start : BitReader) (front : List Bool), Exercise.BadQuestion (.malformedEncoding 2) front ∧
        start.unread = front ++ (BitReader.ofBytes [0x07, 0x14, 0x70, 0x00] 9).unread := by
  constructor
  · have hheader : HeaderEntry.readAll (.ofBytes [0x10] 0) = .ok [] (.ofBytes [0x10] 2) := by cbv
    have hdamage : (SolutionPhase.readEntries (.ofBytes [0x10] 2)).damage = some (.endOfData 8) := by
      decide +kernel
    obtain ⟨c, hc, hsolutions, -⟩ := @decode_absorbs ⟨0, 500⟩ _ _ _ hheader
    exact ⟨c, hc, (hsolutions _ hdamage).2.2⟩
  · have hheader : HeaderEntry.readAll (.ofBytes [0x07, 0x14, 0x70, 0x00] 0) =
        .ok [] (.ofBytes [0x07, 0x14, 0x70, 0x00] 2) := by cbv
    have hlog : Attempt.readAll 500 (SolutionPhase.read (.ofBytes [0x07, 0x14, 0x70, 0x00] 2)).rest =
        [.damage (.malformedEncoding 2) (.ofBytes [0x07, 0x14, 0x70, 0x00] 9), .exercise ⟨"+", []⟩] := by
      decide +kernel
    obtain ⟨c, hc, -, hexercises⟩ := @decode_absorbs ⟨0, 500⟩ _ _ _ hheader
    have hread : decode ⟨0, 500⟩ [0x07, 0x14, 0x70, 0x00] = .ok ⟨.empty, .empty, [], [⟨"+", []⟩]⟩ := by
      decide +kernel
    obtain rfl := Except.ok.inj (hc.symm.trans hread)
    refine ⟨_, hc, rfl, ?_⟩
    rcases hexercises [] _ _ _ hlog with ⟨hend, -⟩ | ⟨start, -, -, front, hquestion, hunread⟩
    · cases hend
    · exact ⟨start, front, hquestion, hunread⟩

end Contents
end DrillCode
