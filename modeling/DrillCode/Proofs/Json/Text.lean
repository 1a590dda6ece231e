import DrillCode.Json.Printer
import DrillCode.Json.Parser
import Mathlib.Data.List.Forall2

/-! # Strings are read back

A string is read as the characters it was written for: those that were escaped by a letter or by their code,
and all others, which stand for themselves. -/

namespace DrillCode.Json.Lexeme
variable {text : List Char}

/-- The unit is a character, or the code of one that is no half of a surrogate pair. -/
inductive Denotes : StringUnit → Char → Prop
  | char (c : Char) : Denotes (.char c) c
  | code {c : Char} (hc : c.toNat < 0xD800) : Denotes (.code c.toNat) c

theorem unitsText?_code {n : Nat} (hn : n < 0xD800) (units : List StringUnit) :
    unitsText? (.code n :: units) = (Char.ofNat n :: ·) <$> unitsText? units := by
  have hlead : isLead n = false := by
    rw [isLead, decide_eq_false (by omega), Bool.false_and]
  have htrail : isTrail n = false := by
    rw [isTrail, decide_eq_false (by omega), Bool.false_and]
  -- A code is looked at behind another one because the two may be a pair; here they are none.
  have hlast (h : ∀ trail rest, units ≠ .code trail :: rest) :
      unitsText? (.code n :: units) = (Char.ofNat n :: ·) <$> unitsText? units := by
    rw [unitsText?.eq_4 n units h, hlead, htrail]
    rfl
  rcases units with _ | ⟨c | trail, units⟩
  · exact hlast fun _ _ h => nomatch h
  · exact hlast fun _ _ h => nomatch h
  · rw [unitsText?, hlead, htrail]
    rfl

theorem unitsText?_of_denotes {units : List StringUnit} (h : List.Forall₂ Denotes units text) :
    unitsText? units = some text := by
  induction h with
  | nil => rfl
  | cons hunit _ ih =>
    cases hunit with
    | char c => rw [unitsText?, ih]; rfl
    | code hc => rw [unitsText?_code hc, ih, Char.ofNat_toNat]; rfl

theorem hexCode?_hexDigit : ∀ n < 0x20, hexCode? '0' '0' (hexDigit (n / 16)) (hexDigit (n % 16)) = some n := by
  decide

/-- What may stand for a character in a string: a letter behind a backslash, its code, or the character
    itself. -/
theorem escaped_cases (c : Char) :
    (∃ letter, escaped c = ['\\', letter] ∧ letter ≠ 'u' ∧ escape? letter = some c) ∨
    (escaped c = ['\\', 'u', '0', '0', hexDigit (c.toNat / 16), hexDigit (c.toNat % 16)] ∧ c.toNat < 0x20) ∨
    (escaped c = [c] ∧ c ≠ '"' ∧ c ≠ '\\' ∧ ¬c.toNat < 0x20) := by
  unfold escaped
  split
  case h_8 hquote hbackslash _ _ _ _ _ =>
    split
    · next hc => exact .inr (.inl ⟨rfl, hc⟩)
    · next hc => exact .inr (.inr ⟨rfl, hquote, hbackslash, hc⟩)
  all_goals exact .inl ⟨_, rfl, by decide, rfl⟩

example : "\"\x01\té".toList.flatMap escaped = "\\\"\\u0001\\té".toList := by decide

/-- One character of a string is read as it was written. -/
theorem stringUnits?_escaped (c : Char) : ∃ u, Denotes u c ∧ ∀ text, stringUnits? (escaped c ++ text) =
    (stringUnits? text).map fun (units, taken) => (u :: units, taken + (escaped c).length) := by
  rcases escaped_cases c with ⟨letter, htext, hu, hletter⟩ | ⟨htext, hc⟩ | ⟨htext, hquote, hbackslash, hc⟩
  · refine ⟨.char c, .char c, fun text => ?_⟩
    rw [htext, List.cons_append, List.cons_append, List.nil_append,
      stringUnits?.eq_4 letter text fun _ _ _ _ _ h => absurd h hu, hletter]
    cases stringUnits? text <;> rfl
  · refine ⟨.code c.toNat, .code (by omega), fun text => ?_⟩
    rw [htext]
    simp only [List.cons_append, List.nil_append, stringUnits?, hexCode?_hexDigit c.toNat hc]
    cases stringUnits? text <;> rfl
  · refine ⟨.char c, .char c, fun text => ?_⟩
    rw [htext, List.singleton_append, stringUnits?.eq_5 c text hquote (fun _ _ _ _ _ h => absurd h hbackslash)
      (fun _ _ h => absurd h hbackslash), if_neg hc]
    cases stringUnits? text <;> rfl

/-- A string ends at its closing quote, and its units are its characters. -/
theorem stringUnits?_text : ∀ text rest : List Char, ∃ units, List.Forall₂ Denotes units text ∧
    stringUnits? (text.flatMap escaped ++ '"' :: rest) = some (units, (text.flatMap escaped).length + 1)
  | [], rest => ⟨[], .nil, rfl⟩
  | c :: text, rest => by
    obtain ⟨u, hu, hread⟩ := stringUnits?_escaped c
    obtain ⟨units, hunits, htext⟩ := stringUnits?_text text rest
    refine ⟨u :: units, .cons hu hunits, ?_⟩
    rw [List.flatMap_cons, List.append_assoc, hread, htext, List.length_append]
    simp only [Option.map_some, Option.some.injEq, Prod.mk.injEq, true_and]
    omega

end DrillCode.Json.Lexeme
