import DrillCode.Payload.SolutionPhase
import DrillCode.Proofs.Bits.Fitting
import DrillCode.Proofs.Payload.TextField

/-! # The solutions are read back, as far as they reach

A solution in ASCII is read back from its code. Where the bits break off, the phase gives exactly the
solutions that end before: one that is cut ends the phase with at most two bits left. In any bit string
the solutions are a first part of those that are found when more bits follow. -/

namespace DrillCode

/-! ### Tags -/

namespace TagList

/-- Looking at a number and reading it and then, unless it ends the list, the others. -/
theorem read_eq :
    read = (peekBits 3 >>= fun _ => readBits 3) >>= fun number =>
      if number = 0 then pure [] else ((Tag.ofListCode? number).toList ++ ·) <$> read := by
  have hcheck : ifRemaining (readBits 3) = readBits 3 := (readBits_needsBits (by decide)).ifRemaining_eq
  funext r
  rw [read]
  split <;> rename_i h <;> rw [hcheck] at h
  · next e rest =>
    have hpeek : peekBits 3 r = .error e r := by
      unfold peekBits
      rw [h]
    rw [Scan.bind_error (Scan.bind_error hpeek)]
  · next number rest =>
    have hpeek : peekBits 3 r = .ok number r := by
      unfold peekBits
      rw [h]
    rw [Scan.bind_ok ((Scan.bind_ok hpeek).trans h)]
    split
    · next hzero =>
      rw [skipMarker_of_readBits (hzero ▸ h)]
      rfl
    · split
      · next h' => rw [Scan.map_ok h']
      · next h' => rw [Scan.map_error h']

theorem read_stable : Scan.Stable read := .of_shorter fun r ih => by
  rw [read_eq]
  have hnumber : Scan.Stable (peekBits 3 >>= fun _ => readBits 3) :=
    (peekBits_stable (Nat.le_refl 3)).bind fun _ => readBits_stable 3
  have hadvances : Scan.Advances 3 (peekBits 3 >>= fun _ => readBits 3) :=
    (peekBits_advances 3).bind fun _ => readBits_advances 3
  refine (hnumber r).bind fun number r' hr => ?_
  split
  · exact .pure []
  · exact (ih r' ((hadvances.ok hr).length_lt (by decide))).map _

theorem read_end_reads : Scan.Reads read (Bits.ofNat 3 0) [] := by
  rw [read_eq]
  exact (peekBits_readBits_reads (by decide) (by decide)).bind_nil (.pure [])

/-- A number in front of a list adds the tag that has it, if one has. -/
theorem read_number_reads {n : Nat} (hne : n ≠ 0) (hlt : n < 8) {code : List Bool} {tags : List Tag}
    (h : Scan.Reads read code tags) :
    Scan.Reads read (Bits.ofNat 3 n ++ code) ((Tag.ofListCode? n).toList ++ tags) := by
  rw [read_eq]
  refine (peekBits_readBits_reads (by decide) hlt).bind ?_
  rw [if_neg hne]
  exact h.map _

theorem read_tag_reads (tag : Tag) {code : List Bool} {tags : List Tag} (h : Scan.Reads read code tags) :
    Scan.Reads read (Bits.ofNat 3 tag.listCode ++ code) (tag :: tags) := by
  have hcode : tag.listCode < 8 := by cases tag <;> decide
  have hne : tag.listCode ≠ 0 := by cases tag <;> decide
  have htag : Tag.ofListCode? tag.listCode = some tag := by cases tag <;> rfl
  have hread := read_number_reads hne hcode h
  rwa [htag] at hread

theorem read_reads : ∀ tags : List Tag, Scan.Reads read (bits tags) tags
  | [] => read_end_reads
  | tag :: tags => by
    rw [bits, List.flatMap_cons, List.append_assoc]
    exact read_tag_reads tag (read_reads tags)

end TagList

namespace Solution

/-! ### One solution -/

/-- The check behind the question stands in front of bits that are needed anyway. -/
theorem read_eq : read = (do
    skipBits 6
    let question ← TextField.readAscii
    skipBits 4
    let steps ← TextField.readAscii
    let tags ← TagList.read
    pure ⟨question, steps, tags⟩) := by
  have hcheck (question : String) := ((skipBits_needsBits 3).bind fun _ => do
    let steps ← TextField.readAscii
    let tags ← TagList.read
    pure (Solution.mk question steps tags)).ifRemaining_eq
  unfold read
  simp only [hcheck]

/-- Both texts are ASCII and do not break off. -/
def Readable (s : Solution) : Prop :=
  TextField.isPlain s.question.toList = true ∧ TextField.isPlain s.steps.toList = true

/-- A solution is read back from its code with whatever code of its tags. -/
theorem read_reads_tags {s : Solution} (h : s.Readable) {code : List Bool} (htags : Scan.Reads TagList.read code s.tags) :
    Scan.Reads read (Bits.ofNat 2 1 ++ Bits.ofNat 4 0 ++ TextField.asciiBits s.question.toList ++
      Bits.ofNat 4 0 ++ TextField.asciiBits s.steps.toList ++ code) s := by
  simp only [List.append_assoc]
  rw [← List.append_assoc (Bits.ofNat 2 1), read_eq]
  refine (skipBits_reads (Bits.ofNat 2 1 ++ Bits.ofNat 4 0)).bind ((TextField.readAscii_reads h.1).bind ?_)
  refine (skipBits_reads (Bits.ofNat 4 0)).bind ((TextField.readAscii_reads h.2).bind ?_)
  exact htags.bind_nil (.pure s)

theorem read_reads {s : Solution} (h : s.Readable) : Scan.Reads read s.bits s :=
  read_reads_tags h (TagList.read_reads s.tags)

theorem read_stable : Scan.Stable read := read_eq ▸
  (skipBits_stable 6).bind fun _ => TextField.readAscii_stable.bind fun _ =>
    (skipBits_stable 4).bind fun _ => TextField.readAscii_stable.bind fun _ =>
      TagList.read_stable.bind fun _ => .pure _

theorem bits_eq (s : Solution) : ∃ more, s.bits = Bits.ofNat 2 1 ++ more :=
  ⟨_, by simp only [bits, List.append_assoc]; rfl⟩

end Solution

namespace SolutionPhase
open BitReader

theorem readEntries_of_ok {r rest : BitReader} {s : Solution} (hnext : r.nextIs 2 1 = true)
    (h : Solution.read r = .ok s rest) :
    readEntries r = ⟨s :: (readEntries rest).solutions, (readEntries rest).damage, (readEntries rest).rest⟩ := by
  rw [readEntries, isAt_eq, if_pos hnext]
  split <;> rename_i h' <;> rw [h] at h' <;> cases h'
  rfl

theorem readEntries_of_error {r rest : BitReader} {e : DecodeError} (hnext : r.nextIs 2 1 = true)
    (h : Solution.read r = .error e rest) : readEntries r = ⟨[], some e, rest⟩ := by
  rw [readEntries, isAt_eq, if_pos hnext]
  split <;> rename_i h' <;> rw [h] at h' <;> cases h'
  rfl

theorem readEntries_of_next {r : BitReader} (hnext : r.nextIs 2 1 = false) : readEntries r = ⟨[], none, r⟩ := by
  rw [readEntries, isAt_eq, if_neg (by rw [hnext]; decide)]

/-- The phase moves on by what the solutions need at least. -/
theorem readEntries_ahead (r : BitReader) :
    r.Ahead (27 * (readEntries r).solutions.length) (readEntries r).rest := by
  fun_induction readEntries r with
  | case1 r hnext e rest hread => exact Solution.read_advances.error hread
  | case2 r hnext s rest hread phase ih =>
    refine ((Solution.read_advances.ok hread).trans ih).mono ?_
    rw [List.length_cons]
    exact Nat.le_of_eq (Nat.add_comm (27 * _) 27)
  | case3 r hnext => exact .refl r

theorem read_ahead (r : BitReader) : r.Ahead (27 * (read r).solutions.length) (read r).rest :=
  (readEntries_ahead r).trans ((readEntries r).rest.ahead_skipMarker 2)

/-! ### Where more bits follow -/

/-- Either the phase ends the same when more bits follow, or it used up the bits it had. -/
theorem readEntries_extend (r : BitReader) (more : List Bool) :
    readEntries (r.extend more) =
        ⟨(readEntries r).solutions, (readEntries r).damage, (readEntries r).rest.extend more⟩ ∨
      (readEntries r).rest.Spent ∧ (readEntries r).solutions <+: (readEntries (r.extend more)).solutions := by
  fun_induction readEntries r with simp only [isAt_eq] at *
  | case1 r hnext e rest hread =>
    have hlen := le_of_nextIs hnext
    by_cases he : e.isEndOfData = true
    · exact .inr ⟨(Solution.read_stable r).spent hread he, List.nil_prefix⟩
    · rw [← nextIs_extend (by decide) hlen 1 more] at hnext
      exact .inl (readEntries_of_error hnext ((Solution.read_stable r).error hread (Bool.eq_false_iff.mpr he) more))
  | case2 r hnext s rest hread phase ih =>
    have hlen := le_of_nextIs hnext
    rw [← nextIs_extend (by decide) hlen 1 more] at hnext
    rw [readEntries_of_ok hnext ((Solution.read_stable r).ok hread more)]
    rcases ih with ih | ⟨hspent, hprefix⟩
    · exact .inl (by rw [ih])
    · exact .inr ⟨hspent, (List.cons_prefix_cons).mpr ⟨rfl, hprefix⟩⟩
  | case3 r hnext =>
    rcases Nat.lt_or_ge r.unread.length 2 with hlt | hlen
    · exact .inr ⟨Nat.le_of_lt hlt, List.nil_prefix⟩
    · rw [Bool.not_eq_true, ← nextIs_extend (by decide) hlen 1 more] at hnext
      exact .inl (readEntries_of_next hnext)

theorem read_extend (r : BitReader) (more : List Bool) :
    read (r.extend more) = ⟨(read r).solutions, (read r).damage, (read r).rest.extend more⟩ ∨
      (read r).rest.Spent ∧ (read r).solutions <+: (read (r.extend more)).solutions := by
  rcases readEntries_extend r more with hsame | ⟨hspent, hprefix⟩
  · rcases Nat.lt_or_ge (readEntries r).rest.unread.length 2 with hlt | hlen
    · refine .inr ⟨Spent.skipMarker (Nat.le_of_lt hlt) 2, ?_⟩
      show (readEntries r).solutions <+: (readEntries (r.extend more)).solutions
      exact ⟨[], by rw [hsame, List.append_nil]⟩
    · refine .inl ?_
      rw [read, read, hsame, skipMarker_extend (by decide) hlen]
  · exact .inr ⟨hspent.skipMarker 2, hprefix⟩

/-! ### Where the bits break off -/

/-- The phase gives the solutions that end before the bits break off. It stops behind them all, or has used
    up the bits. -/
theorem readEntries_cut {lost tail : List Bool} : ∀ {solutions : List Solution} (position : Nat) {unread : List Bool},
    (∀ s ∈ solutions, s.Readable) → unread ++ lost = solutions.flatMap Solution.bits ++ (Solution.endBits ++ tail) →
    (readEntries ⟨position, unread⟩).solutions =
        Bits.fitting Solution.bits (position + unread.length) position solutions ∧
      ((∃ more, unread = solutions.flatMap Solution.bits ++ more ∧
          (readEntries ⟨position, unread⟩).rest = ⟨position + (solutions.flatMap Solution.bits).length, more⟩) ∨
        (readEntries ⟨position, unread⟩).rest.Spent ∧ unread.length < (solutions.flatMap Solution.bits).length)
  | [], position, unread, _, hbits => by
    have hend : unread ++ lost = Solution.endBits ++ tail := hbits
    have hnext : BitReader.nextIs ⟨position, unread⟩ 2 1 = false := by
      rw [Bits.nextIs_of_cut hend (by decide) (by decide)]
      exact Bool.and_false _
    rw [readEntries_of_next hnext]
    exact ⟨rfl, .inl ⟨unread, rfl, rfl⟩⟩
  | s :: solutions, position, unread, h, hbits => by
    have hs := h s List.mem_cons_self
    obtain ⟨others, hothers⟩ := s.bits_eq
    have hmarker : BitReader.nextIs ⟨position, unread⟩ 2 1 = decide (2 ≤ unread.length) := by
      rw [List.flatMap_cons, hothers, List.append_assoc, List.append_assoc] at hbits
      rw [Bits.nextIs_of_cut hbits (by decide) (by decide)]
      exact Bool.and_true _
    rw [List.flatMap_cons, List.append_assoc] at hbits
    rcases Bits.cut_cases hbits with ⟨more, rfl, hmore⟩ | ⟨more, hcode, hne⟩
    · -- The first solution is there as a whole.
      have hlen : 2 ≤ (s.bits ++ more).length := by
        rw [hothers, List.append_assoc, List.length_append]
        exact Nat.le_add_right 2 _
      have hread := Solution.read_reads hs position more
      obtain ⟨hfit, hrest⟩ := readEntries_cut (position + s.bits.length)
        (fun x hx => h x (List.mem_cons_of_mem s hx)) hmore
      have hlimit : position + (s.bits ++ more).length = position + s.bits.length + more.length := by
        rw [List.length_append, Nat.add_assoc]
      rw [readEntries_of_ok (hmarker.trans (decide_eq_true hlen)) hread, hlimit,
        Bits.fitting_cons_of_le (Nat.le_add_right _ _), ← hfit]
      refine ⟨rfl, ?_⟩
      rcases hrest with ⟨rest, hunread, hrest⟩ | ⟨hspent, hlt⟩
      · refine .inl ⟨rest, by rw [hunread, List.flatMap_cons, List.append_assoc], ?_⟩
        rw [List.flatMap_cons, List.length_append, ← Nat.add_assoc]
        exact hrest
      · refine .inr ⟨hspent, ?_⟩
        rw [List.flatMap_cons, List.length_append, List.length_append]
        omega
    · -- The bits break off inside the first solution.
      have hlen := Bits.length_lt_of_cut hcode hne
      have hspent : (readEntries ⟨position, unread⟩).solutions = [] ∧
          (readEntries ⟨position, unread⟩).rest.Spent := by
        rcases Nat.lt_or_ge unread.length 2 with hlt | hge
        · rw [readEntries_of_next (hmarker.trans (decide_eq_false (Nat.not_le.mpr hlt)))]
          exact ⟨rfl, Nat.le_of_lt hlt⟩
        · obtain ⟨e, r', hread, -, hspent⟩ := Solution.read_stable.of_cut (Solution.read_reads hs) hcode hne position
          rw [readEntries_of_error (hmarker.trans (decide_eq_true hge)) hread]
          exact ⟨rfl, hspent⟩
      rw [hspent.1, Bits.fitting_cons_of_lt (by omega), List.flatMap_cons, List.length_append]
      exact ⟨rfl, .inr ⟨hspent.2, by omega⟩⟩

theorem read_cut {lost tail unread : List Bool} {solutions : List Solution} (position : Nat)
    (h : ∀ s ∈ solutions, s.Readable)
    (hbits : unread ++ lost = solutions.flatMap Solution.bits ++ (Solution.endBits ++ tail)) :
    (read ⟨position, unread⟩).solutions = Bits.fitting Solution.bits (position + unread.length) position solutions ∧
      ((∃ more, unread = solutions.flatMap Solution.bits ++ Solution.endBits ++ more ∧
          (read ⟨position, unread⟩).rest =
            ⟨position + (solutions.flatMap Solution.bits ++ Solution.endBits).length, more⟩) ∨
        (read ⟨position, unread⟩).rest.Spent ∧
          unread.length < (solutions.flatMap Solution.bits ++ Solution.endBits).length) := by
  obtain ⟨hfit, ⟨more, hunread, hrest⟩ | ⟨hspent, hlt⟩⟩ := readEntries_cut position h hbits
  · refine ⟨hfit, ?_⟩
    rw [hunread, List.append_assoc, List.append_cancel_left_eq] at hbits
    rcases Bits.cut_cases hbits with ⟨rest, rfl, -⟩ | ⟨rest, hcode, hne⟩
    · refine .inl ⟨rest, by rw [hunread, List.append_assoc], ?_⟩
      show (readEntries ⟨position, unread⟩).rest.skipMarker 2 = _
      rw [hrest, Solution.endBits, skipMarker_ofNat (by decide), List.length_append, Nat.add_assoc]
    · have hlen := Bits.length_lt_of_cut hcode hne
      have hspent : (readEntries ⟨position, unread⟩).rest.Spent := by
        rw [hrest]
        exact Nat.le_of_lt hlen
      refine .inr ⟨hspent.skipMarker 2, ?_⟩
      rw [hunread, List.length_append, List.length_append]
      omega
  · refine ⟨hfit, .inr ⟨hspent.skipMarker 2, ?_⟩⟩
    rw [List.length_append]
    exact Nat.lt_add_right _ hlt

end SolutionPhase
end DrillCode
