import DrillCode.Machine.Instruction
import DrillCode.Proofs.Number.Layout
import DrillCode.Proofs.Text.Replace

/-! # Listings are read back

An instruction is determined by its text: the mnemonic ends in front of the first space, and the operand is the
rest. A listing has a line for each instruction, as long as no name has a line break, and so it shows the code. -/

namespace DrillCode

namespace Instruction
variable {ins ins' : Instruction}

/-! ### Instructions -/

theorem toString_injective {m n : Nat} (h : toString m = toString n) : m = n := by
  have hdigits := congrArg (fun text : String => Nat.ofDigitChars 10 text.toList 0) h
  simpa [Nat.toString_eq_ofList_toDigits] using hdigits

/-- An instruction is determined by its mnemonic and its operand. -/
theorem eq_of_parts (hmnemonic : ins.mnemonic = ins'.mnemonic) (hoperand : ins.operand? = ins'.operand?) :
    ins = ins' := by
  cases ins <;> cases ins' <;> first
    | rfl
    | exact absurd hmnemonic (of_decide_eq_true rfl)
    | simp only [operand?, Option.some_inj] at hoperand
      first
        | rw [plainText_injective hoperand]
        | rw [toString_injective hoperand]
        | rw [hoperand]

theorem space_notMem_mnemonic (ins : Instruction) : ' ' ∉ ins.mnemonic.toList := by
  cases ins <;> simp [mnemonic]

theorem toList_text (ins : Instruction) : ins.text.toList =
    match ins.operand? with
    | none => ins.mnemonic.toList
    | some operand => ins.mnemonic.toList ++ ' ' :: operand.toList := by
  unfold text
  split <;> simp [*]

/-- The operand is what stands behind the first space. -/
theorem text_injective (h : ins.text = ins'.text) : ins = ins' := by
  have hspace := space_notMem_mnemonic ins
  have hspace' := space_notMem_mnemonic ins'
  have hlist := congrArg String.toList h
  rw [toList_text, toList_text] at hlist
  cases hoperand : ins.operand? with
  | none =>
    cases hoperand' : ins'.operand? with
    | none =>
      rw [hoperand, hoperand'] at hlist
      exact eq_of_parts (String.toList_inj.mp hlist) (hoperand.trans hoperand'.symm)
    | some operand' =>
      simp only [hoperand, hoperand'] at hlist
      rw [hlist] at hspace
      simp at hspace
  | some operand =>
    cases hoperand' : ins'.operand? with
    | none =>
      simp only [hoperand, hoperand'] at hlist
      rw [← hlist] at hspace'
      simp at hspace'
    | some operand' =>
      simp only [hoperand, hoperand'] at hlist
      have hpieces := congrArg (List.splitOn ' ') hlist
      rw [List.splitOn_append_cons_self_of_not_mem hspace, List.splitOn_append_cons_self_of_not_mem hspace'] at hpieces
      have hmnemonic := (List.cons.inj hpieces).1
      rw [hmnemonic, List.append_cancel_left_eq, List.cons.injEq] at hlist
      refine eq_of_parts (String.toList_inj.mp hmnemonic) ?_
      rw [hoperand, hoperand', String.toList_inj.mp hlist.2]

/-- The instruction has no name with a line break. -/
def IsLine : Instruction → Prop
  | load name | store name => '\n' ∉ name.toList
  | _ => True

theorem newline_notMem_text (h : ins.IsLine) : '\n' ∉ ins.text.toList := by
  have htarget : ∀ n : Nat, '\n' ∉ (toString n).toList := fun n => by
    rw [Nat.toString_eq_ofList_toDigits, String.toList_ofList]
    exact newline_notMem_toDigits n
  rw [toList_text]
  cases ins <;> simp_all [operand?, mnemonic, IsLine, newline_notMem_plainText]

end Instruction

namespace Program
variable {p p' : Program}

/-! ### Lines -/

/-- The line of an instruction. -/
def line (n : Nat) (ins : Instruction) : List Char := address n ++ ": ".toList ++ ins.text.toList

theorem linesFrom_eq_mapIdx (code : List Instruction) (n : Nat) :
    (linesFrom n code).map String.toList = code.mapIdx fun i ins => line (n + i) ins := by
  induction code generalizing n with
  | nil => rfl
  | cons ins code ih =>
    have hnext : ∀ i, n + 1 + i = n + (i + 1) := fun i => by omega
    rw [linesFrom, List.map_cons, ih, List.mapIdx_cons, String.toList_ofList]
    simp only [hnext, Nat.add_zero]
    rfl

theorem newline_notMem_line {ins : Instruction} (h : ins.IsLine) (n : Nat) : '\n' ∉ line n ins := by
  simp [line, address, newline_notMem_toDigits, Instruction.newline_notMem_text h]

/-- The lines of a listing are those of the instructions, with their places. -/
theorem splitOn_disassembly (hne : p.code ≠ []) (h : ∀ ins ∈ p.code, ins.IsLine) :
    p.disassembly.toList.splitOn '\n' = p.code.mapIdx line := by
  have hlines := linesFrom_eq_mapIdx p.code 0
  simp only [Nat.zero_add] at hlines
  rw [disassembly, String.toList_intercalate, lines, hlines]
  refine List.splitOn_intercalate _ (fun text htext => ?_) (by simpa using hne)
  obtain ⟨i, hi, rfl⟩ := List.mem_mapIdx.mp htext
  exact newline_notMem_line (h _ (List.getElem_mem hi)) i

theorem line_injective {n : Nat} {ins ins' : Instruction} (h : line n ins = line n ins') : ins = ins' :=
  Instruction.text_injective (String.toList_inj.mp (List.append_cancel_left h))

theorem code_eq_of_disassembly (hne : p.code ≠ []) (hne' : p'.code ≠ []) (h : ∀ ins ∈ p.code, ins.IsLine)
    (h' : ∀ ins ∈ p'.code, ins.IsLine) (heq : p.disassembly = p'.disassembly) : p.code = p'.code := by
  have hlines := congrArg (fun text : String => text.toList.splitOn '\n') heq
  simp only [splitOn_disassembly hne h, splitOn_disassembly hne' h'] at hlines
  have hlength := congrArg List.length hlines
  rw [List.length_mapIdx, List.length_mapIdx] at hlength
  refine List.ext_getElem hlength fun i hi hi' => ?_
  have hline := List.getElem_of_eq hlines (by simpa using hi)
  rw [List.getElem_mapIdx, List.getElem_mapIdx] at hline
  exact line_injective hline

end Program
end DrillCode
