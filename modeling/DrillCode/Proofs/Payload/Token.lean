import DrillCode.Payload.TokenRun
import DrillCode.Proofs.Payload.TextField

/-! # Tokens are read back

A token that can be told from its code is read back, up to the bits of an operator's number that have no
room in the code; its text is the same. A row of such tokens is read up to its end marker when its whole
text fits under the cap, and reading a row that fits into a bit string gives the same row when more bits
follow. -/

namespace DrillCode

namespace Token

/-- The token can be told from its code: it is no integer that has no code, its name does not break off,
    and kinds that are set aside are none of those in use. -/
def Readable : Token → Prop
  | name text => TextField.Unbroken text
  | integer value => value ≠ 0 ∧ value.natAbs < wordCount
  | reservedConstant kind | reservedOperand kind => kind = 2 ∨ kind = 3
  | _ => True

/-- The token that is read from the code: an operator's number keeps its low four bits. -/
def normal : Token → Token
  | extended number => extended (number % 16)
  | token => token

@[simp] theorem text_normal (token : Token) : token.normal.text = token.text := by
  cases token with
  | extended number => simp only [normal, text, extendedText, Nat.mod_mod]
  | _ => rfl

theorem Readable.hasCode {token : Token} (h : token.Readable) : token.hasCode = true := by
  cases token with
  | integer value => exact bne_iff_ne.mpr h.1
  | _ => rfl

/-! ### One token -/

theorem readInteger_reads {value : Int} (hne : value ≠ 0) (hlt : value.natAbs < wordCount) :
    Scan.Reads readInteger (decide (value < 0) :: Elias.code value.natAbs) (integer value) := by
  have hmagnitude := Elias.readUnsigned_reads (Int.natAbs_ne_zero.mpr hne) hlt
  have hsign : (if decide (value < 0) then -(value.natAbs : Int) else value.natAbs) = value := by
    by_cases hneg : value < 0
    · rw [if_pos (decide_eq_true hneg)]
      omega
    · rw [if_neg (by simpa using hneg)]
      omega
  refine (readBit_reads _).bind (hmagnitude.bind_nil ?_)
  rw [hsign]
  exact Scan.Reads.pure _

theorem readConstant_integer_reads {value : Int} (hne : value ≠ 0) (hlt : value.natAbs < wordCount) :
    Scan.Reads readConstant (Bits.ofNat 2 0 ++ decide (value < 0) :: Elias.code value.natAbs) (integer value) :=
  (readBits_ofNat (by decide) (by decide)).bind (readInteger_reads hne hlt)

theorem readConstant_reserved_reads {kind : Nat} (h : kind = 2 ∨ kind = 3) :
    Scan.Reads readConstant (Bits.ofNat 2 kind) (reservedConstant kind) := by
  rcases h with rfl | rfl <;> exact (readBits_ofNat (by decide) (by decide)).bind_nil (.pure _)

theorem readOperand_constant_reads {code : List Bool} {token : Token} (h : Scan.Reads readConstant code token) :
    Scan.Reads readOperand (Bits.ofNat 2 1 ++ code) token :=
  (readBits_ofNat (by decide) (by decide)).bind h

theorem readOperand_reserved_reads {kind : Nat} (h : kind = 2 ∨ kind = 3) :
    Scan.Reads readOperand (Bits.ofNat 2 kind) (reservedOperand kind) := by
  rcases h with rfl | rfl <;> exact (readBits_ofNat (by decide) (by decide)).bind_nil (.pure _)

theorem read_operand_reads {code : List Bool} {token : Token} (h : Scan.Reads readOperand code token) :
    Scan.Reads read (false :: code) (some token) :=
  (readBit_reads false).bind (h.map some)

theorem read_reads {token : Token} (h : token.Readable) : Scan.Reads read token.bits (some token.normal) := by
  cases token with
  | plus | minus | times | divide | power | equals =>
    exact (readBit_reads true).bind ((readBits_ofNat (by decide) (by decide)).bind_nil (.pure _))
  | extended number =>
    have hnumber := readBits_reads (Bits.length_ofNat 4 number) (by decide)
    rw [Bits.toNat_ofNat] at hnumber
    exact (readBit_reads true).bind ((readBits_ofNat (by decide) (by decide)).bind (hnumber.map _))
  | name text =>
    exact read_operand_reads
      ((readBits_ofNat (by decide) (by decide)).bind ((TextField.readText_reads h).map name))
  | integer value =>
    exact read_operand_reads (readOperand_constant_reads (readConstant_integer_reads h.1 h.2))
  | boolean =>
    exact read_operand_reads (readOperand_constant_reads
      ((readBits_ofNat (by decide) (by decide)).bind_nil (.pure boolean)))
  | reservedConstant kind =>
    exact read_operand_reads (readOperand_constant_reads (readConstant_reserved_reads h))
  | reservedOperand kind => exact read_operand_reads (readOperand_reserved_reads h)

theorem read_endBits_reads : Scan.Reads read endBits none :=
  (readBit_reads true).bind ((readBits_ofNat (by decide) (by decide)).bind_nil (.pure none))

/-- A token has bits. -/
theorem ifRemaining_read : ifRemaining read = read := (readBit_needsBits.bind _).ifRemaining_eq

/-! ### Bit strings that go on -/

theorem readOperator_stable : Scan.Stable readOperator := (readBits_stable 3).bind fun number => by
  split
  case h_8 => exact (readBits_stable 4).map _
  all_goals exact .pure _

theorem readInteger_stable : Scan.Stable readInteger :=
  readBit_stable.bind fun _ => Elias.readUnsigned_stable.bind fun _ => .pure _

theorem readConstant_stable : Scan.Stable readConstant := (readBits_stable 2).bind fun kind => by
  split
  · exact readInteger_stable
  · exact .pure _
  · exact .pure _

theorem readOperand_stable : Scan.Stable readOperand := (readBits_stable 2).bind fun kind => by
  split
  · exact TextField.readText_stable.map _
  · exact readConstant_stable
  · exact .pure _

theorem read_stable : Scan.Stable read := readBit_stable.bind fun operator => by
  split
  · exact readOperator_stable
  · exact readOperand_stable.map _

end Token

namespace TokenRun
open Token

/-! ### Rows of tokens -/

theorem rawText_normal (tokens : List Token) : rawText (tokens.map normal) = rawText tokens := by
  simp only [rawText, List.flatMap_map, text_normal]

theorem read_of_marker {room : Nat} {r rest : BitReader} (h : Token.read r = .ok none rest) :
    read room r = ⟨[], .marker, rest⟩ := by
  rw [read]
  split <;> rename_i h' <;> rw [ifRemaining_read, h] at h' <;> cases h'
  rfl

theorem read_of_fits {room : Nat} {r rest : BitReader} {token : Token} (h : Token.read r = .ok (some token) rest)
    (hfit : token.text.length ≤ room) :
    read room r = ⟨token :: (read (room - token.text.length) rest).tokens,
      (read (room - token.text.length) rest).ending, (read (room - token.text.length) rest).rest⟩ := by
  rw [read]
  split <;> rename_i h' <;> rw [ifRemaining_read, h] at h' <;> cases h'
  rw [if_neg (Nat.not_lt.mpr hfit)]

theorem read_of_exceeds {room : Nat} {r rest : BitReader} {token : Token}
    (h : Token.read r = .ok (some token) rest) (hroom : room < token.text.length) :
    read room r = ⟨[token], .cap, rest⟩ := by
  rw [read]
  split <;> rename_i h' <;> rw [ifRemaining_read, h] at h' <;> cases h'
  rw [if_pos hroom]

theorem read_of_error {room : Nat} {r rest : BitReader} {e : DecodeError} (h : Token.read r = .error e rest) :
    read room r = ⟨[], .damage e, rest⟩ := by
  rw [read]
  split <;> rename_i h' <;> rw [ifRemaining_read, h] at h' <;> cases h'
  rfl

theorem read_reads : ∀ {tokens : List Token} (room : Nat), (∀ token ∈ tokens, token.Readable) →
    (rawText tokens).length ≤ room → ∀ position rest,
      read room ⟨position, tokens.flatMap bits ++ endBits ++ rest⟩ =
        ⟨tokens.map normal, .marker, ⟨position + (tokens.flatMap bits ++ endBits).length, rest⟩⟩
  | [], _, _, _, position, rest => read_of_marker (read_endBits_reads position rest)
  | token :: tokens, room, h, hroom, position, rest => by
    have htext : (rawText (token :: tokens)).length = token.text.length + (rawText tokens).length := by
      rw [rawText, List.flatMap_cons, List.length_append]
      rfl
    have hhead := Token.read_reads (h token List.mem_cons_self) position (tokens.flatMap bits ++ endBits ++ rest)
    have htail := read_reads (room - token.text.length)
      (fun t ht => h t (List.mem_cons_of_mem token ht)) (by omega) (position + token.bits.length) rest
    rw [List.flatMap_cons, List.append_assoc token.bits, List.append_assoc token.bits,
      read_of_fits hhead (by rw [text_normal]; omega), text_normal, htail]
    simp only [List.map_cons, List.length_append, Nat.add_assoc]

/-- A row that did not run out of bits is the same when more bits follow. -/
theorem read_extend {room : Nat} {r : BitReader}
    (h : ∀ e, (read room r).ending = .damage e → e.isEndOfData = false) (more : List Bool) :
    read room (r.extend more) =
      ⟨(read room r).tokens, (read room r).ending, (read room r).rest.extend more⟩ := by
  fun_induction read room r with simp only [Token.ifRemaining_read] at *
  | case1 room r e rest hread => exact read_of_error ((read_stable r).error hread (h e rfl) more)
  | case2 room r rest hread => exact read_of_marker ((read_stable r).ok hread more)
  | case3 room r token rest hread hcap => exact read_of_exceeds ((read_stable r).ok hread more) hcap
  | case4 room r token rest hread hfit run ih =>
    rw [read_of_fits ((read_stable r).ok hread more) (Nat.le_of_not_lt hfit), ih h]

theorem read_spent {room : Nat} {r : BitReader} {e : DecodeError} (h : (read room r).ending = .damage e)
    (he : e.isEndOfData = true) : (read room r).rest.Spent := by
  fun_induction read room r with simp only [Token.ifRemaining_read] at *
  | case1 room r e' rest hread =>
    cases h
    exact (read_stable r).spent hread he
  | case2 room r rest hread => cases h
  | case3 room r token rest hread hcap => cases h
  | case4 room r token rest hread hfit run ih => exact ih h

end TokenRun
end DrillCode
