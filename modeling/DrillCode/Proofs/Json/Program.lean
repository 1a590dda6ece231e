import DrillCode.Json.Program
import DrillCode.Proofs.Formula.Filling
import DrillCode.Proofs.Formula.Listing
import DrillCode.Proofs.Json.Records

/-! # Programs are read back

A program is read back from the texts it is written as if all its numbers are finite. One that is not has no form in
JSON: it is written as null, and null is no number. -/

namespace DrillCode
open Json (Value)
open Json.Value (gives_text record?_record)

/-! ### Numbers -/

namespace Json.Value
variable {value : Float}

theorem float_of_isFinite (h : value.isFinite = true) : ∃ n, float value = number n := by
  obtain ⟨negative, m, q, hvalue⟩ := (Binary64.isFinite_iff value).mp h
  exact ⟨_, by rw [float, hvalue]⟩

theorem float_of_not_isFinite (h : value.isFinite = false) : float value = null := by
  cases hvalue : Binary64.value value with
  | finite negative m q =>
    have hfinite := (Binary64.isFinite_iff value).mpr ⟨negative, m, q, hvalue⟩
    rw [h] at hfinite
    cases hfinite
  | _ => rw [float, hvalue]

theorem plain_float (value : Float) : (float value).Plain := by
  unfold float
  split
  · exact .number _
  · exact .null

/-- If some items are read back and the others refused, a list is read back if no item is refused. -/
theorem mapM_map_all {α β : Type} {read? : β → Option α} {write : α → β} {accepts : α → Bool} {xs : List α}
    (h : ∀ x ∈ xs, read? (write x) = if accepts x then some x else none) :
    (xs.map write).mapM read? = if xs.all accepts then some xs else none := by
  induction xs with
  | nil => rfl
  | cons x xs ih =>
    obtain ⟨hx, hxs⟩ := List.forall_mem_cons.mp h
    rw [List.map_cons, List.mapM_cons, hx, ih hxs, List.all_cons]
    cases accepts x <;> cases xs.all accepts <;> rfl

end Json.Value

/-! ### Instructions -/

namespace Instruction
variable {ins : Instruction}

/-- The number that the instruction pushes is finite, if it pushes one. -/
def isFinite : Instruction → Bool
  | push value => value.isFinite
  | _ => true

/-- The number of the instruction is read back if it has a form in JSON. -/
def IsReadBack : Instruction → Prop
  | push value => value.isFinite = true → (Value.float value).float? = some value
  | jump target | jumpIfZero target | jumpIfNonzero target => target < wordCount
  | _ => True

theorem plain_toJson (ins : Instruction) : ins.toJson.Plain := by
  cases ins with
  | push value => exact .record (by simp [Json.Value.plain_float])
  | load name | store name => exact .record (by simp [(gives_text name).plain])
  | jump target | jumpIfZero target | jumpIfNonzero target => exact .record (by simpa using .number _)
  | _ => exact .text _

theorem ofJson?_toJson (h : ins.IsReadBack) : ofJson? ins.toJson = if ins.isFinite then some ins else none := by
  cases ins with
  | push value =>
    cases hfinite : value.isFinite with
    | true =>
      obtain ⟨n, hn⟩ := Json.Value.float_of_isFinite hfinite
      have hread := h hfinite
      rw [hn] at hread
      simp [toJson, Value.record, hn, ofJson?, ofOperand?, hread, isFinite, hfinite]
    | false =>
      rw [toJson, Json.Value.float_of_not_isFinite hfinite, isFinite, hfinite]
      rfl
  | load name | store name => rfl
  | jump target | jumpIfZero target | jumpIfNonzero target =>
    have hread := (Json.Value.gives_nat h).read_eq
    simp only [toJson, Value.record, List.map_cons, List.map_nil, Value.nat, ofJson?, ofOperand?, isFinite, if_true]
      at hread ⊢
    rw [hread]
    rfl
  | _ => rfl

end Instruction

/-! ### Programs -/

namespace Program
variable {p : Program}

theorem plain_toJson (p : Program) : p.toJson.Plain := by
  refine .record ?_
  simp only [List.forall_mem_cons]
  refine ⟨.array fun v hv => ?_, .record ?_, List.forall_mem_nil _⟩
  · obtain ⟨ins, -, rfl⟩ := List.mem_map.mp hv
    exact ins.plain_toJson
  · simp only [List.forall_mem_cons]
    exact ⟨.bool _, .text _, List.forall_mem_nil _⟩

theorem ofJson?_toJson (h : ∀ ins ∈ p.code, ins.IsReadBack) :
    ofJson? p.toJson = if p.code.all Instruction.isFinite then some p else none := by
  have hcode := Json.Value.mapM_map_all fun ins hins => Instruction.ofJson?_toJson (h ins hins)
  rw [ofJson?, toJson, record?_record (by rfl) (by decide)]
  simp only [List.map_cons, List.map_nil, Option.bind_eq_bind, Option.bind_some, Json.Value.list?, hcode]
  rw [record?_record (by rfl) (by decide)]
  cases p.code.all Instruction.isFinite <;> rfl

end Program

/-! ### Compiled code -/

namespace Formula

/-- A program of compiled code is written to JSON whatever its numbers are. If the finite ones are read back, it is
    loaded again, with the same instructions, unless one of its numbers is an infinity. -/
theorem program_read_back {source : String} {p : Program} (h : compile source = .ok p)
    (hread : ∀ value, .push value ∈ p.code → value.isFinite = true → (Value.float value).float? = some value) :
    ∀ text ∈ p.toJson.texts, (Json.parse? text).bind Program.ofJson? =
      if p.code.all Instruction.isFinite then some p else none := by
  intro text htext
  rw [p.plain_toJson.parse?_texts htext, Option.bind_some]
  refine Program.ofJson?_toJson fun ins hins => ?_
  have hproper := isProper_of_compile h ins hins
  cases ins with
  | push value => exact hread value hins
  | jump target | jumpIfZero target | jumpIfNonzero target => cases hproper
  | _ => trivial

/-- Of two numbers, both are read back. -/
theorem program_read_back_sample :
    ∃ p, compile "x = -2.5 + 7" = .ok p ∧
      (∀ value, .push value ∈ p.code → value.isFinite = true → (Value.float value).float? = some value) ∧
      (Json.parse? p.toJson.compact).bind Program.ofJson? = some p := by
  have hcompile : compile "x = -2.5 + 7" =
      .ok ⟨[.load "x", .push (-2.5), .push 7, .add, .equal, .halt], true, "x = -2.5 + 7"⟩ := by decide +kernel
  have hread : ∀ value, Instruction.push value ∈ [.load "x", .push (-2.5), .push 7, .add, .equal, .halt] →
      value.isFinite = true → (Value.float value).float? = some value := by
    intro value hvalue _
    simp only [List.mem_cons, Instruction.push.injEq, reduceCtorEq, List.not_mem_nil, false_or, or_false] at hvalue
    rcases hvalue with rfl | rfl <;> decide +kernel
  refine ⟨_, hcompile, hread, ?_⟩
  rw [program_read_back hcompile hread _ List.mem_cons_self, if_pos (by decide +kernel)]

/-- The digits of a number are a literal. -/
def Literal.ofNat (n : Nat) : Literal where
  negative := false
  digits := Nat.toDigits 10 n
  magnitude := Reading.nearest n 0
  numeric := isNumeric_toDigits n
  reads := Reading.number?_digits n

theorem lex_toDigits (n : Nat) :
    Lexeme.lex true (Nat.toDigits 10 n) = [.number (Reading.nearest n 0)] := by
  have hlex := @lex_piece (.literal (.ofNat n)) [] (by simp)
  rw [List.append_nil, lex_nil] at hlex
  exact hlex

/-- The code of digits pushes the number that is nearest to what they spell. -/
theorem compile_toDigits (n : Nat) : compile (String.ofList (Nat.toDigits 10 n)) =
    .ok ⟨[.push (Reading.nearest n 0), .halt], false, String.ofList (Nat.toDigits 10 n)⟩ := by
  have hpieces : (Nat.toDigits 10 n).splitOn '=' = [Nat.toDigits 10 n] := by
    refine List.splitOn_eq_singleton fun h => ?_
    cases Reading.isDigit_toDigits n _ h
  rw [compile, String.toList_ofList, hpieces]
  dsimp only
  rw [expressionCode, Lexeme.ofText, lex_toDigits]
  rfl

/-- A number of so many digits that it is read as infinity. -/
def overflow : Nat := 10 ^ (310 : Nat)

theorem overflow_refused :
    ∃ p, compile (String.ofList (Nat.toDigits 10 overflow)) = .ok p ∧
      ∀ text ∈ p.toJson.texts, (Json.parse? text).bind Program.ofJson? = none := by
  have hinfinite : (Reading.nearest overflow 0).isFinite = false := by decide +kernel
  refine ⟨_, compile_toDigits overflow, fun text htext => ?_⟩
  rw [(Program.plain_toJson _).parse?_texts htext, Option.bind_some, Program.ofJson?_toJson, if_neg]
  · simp [Instruction.isFinite, hinfinite]
  · simp [Instruction.IsReadBack, hinfinite]

end Formula
end DrillCode
