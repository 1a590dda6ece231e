import DrillCode.Proofs.Json.Number
import DrillCode.Proofs.Json.Text

/-! # The lexemes of a value

The text of a value, on one line or over several, is cut into the lexemes of the value, whatever follows it. -/

namespace DrillCode.Json
namespace Lexeme

/-! ### Texts that spell lexemes -/

/-- In front of anything with which no number goes on, the text is cut into the given lexemes. -/
def Spells (text : List Char) (lexemes : List Lexeme) : Prop :=
  ∀ rest, Ends rest → ofText? (text ++ rest) = (lexemes ++ ·) <$> ofText? rest

/-- The characters that are lexemes of their own. -/
inductive IsMark : Char → Lexeme → Prop where
  | openArray : IsMark '[' openArray
  | closeArray : IsMark ']' closeArray
  | openObject : IsMark '\x7b' openObject
  | closeObject : IsMark '\x7d' closeObject
  | comma : IsMark ',' comma
  | colon : IsMark ':' colon

namespace IsMark
variable {c : Char} {lexeme : Lexeme}

theorem isBlank_eq (h : IsMark c lexeme) : isBlank c = false := by
  cases h <;> rfl

theorem next?_eq (h : IsMark c lexeme) (text : List Char) : next? c text = some (lexeme, 0) := by
  cases h <;> rfl

theorem ends (h : IsMark c lexeme) (text : List Char) : Ends (c :: text) := by
  refine ends_cons ?_ text
  cases h <;> decide

end IsMark

namespace Spells
variable {c : Char} {text : List Char} {lexeme : Lexeme} {lexemes : List Lexeme}

theorem of_next? (hblank : isBlank c = false)
    (h : ∀ rest, Ends rest → next? c (text ++ rest) = some (lexeme, text.length)) :
    Spells (c :: text) [lexeme] := by
  intro rest hrest
  rw [List.cons_append, ofText?, if_neg (by rw [hblank]; exact Bool.false_ne_true), h rest hrest]
  dsimp only
  rw [List.drop_left]
  rfl

theorem nil : Spells [] [] := by
  intro rest _
  rw [List.nil_append]
  cases ofText? rest <;> rfl

theorem mark (hc : IsMark c lexeme) (h : Spells text lexemes) : Spells (c :: text) (lexeme :: lexemes) := by
  intro rest hrest
  rw [List.cons_append, ofText?, if_neg (by rw [hc.isBlank_eq]; exact Bool.false_ne_true), hc.next?_eq]
  dsimp only
  rw [List.drop_zero, h rest hrest]
  cases ofText? rest <;> rfl

theorem blank (hc : isBlank c = true) (h : Spells text lexemes) : Spells (c :: text) lexemes := by
  intro rest hrest
  rw [List.cons_append, ofText?, if_pos hc, h rest hrest]

theorem append {first second : List Char} {l k : List Lexeme} (hfirst : Spells first l)
    (hsecond : Spells second k) (hends : Ends second) : Spells (first ++ second) (l ++ k) := by
  intro rest hrest
  rw [List.append_assoc, hfirst _ (hends.append hrest), hsecond rest hrest]
  cases ofText? rest with
  | none => rfl
  | some lexemes => exact congrArg some (List.append_assoc l k lexemes).symm

end Spells

/-! ### Scalars -/

theorem spells_text (text : String) : Spells (stringText (some text)) [.scalar (.text text)] := by
  have htext : stringText (some text) = '"' :: (text.toList.flatMap escaped ++ ['"']) := rfl
  rw [htext]
  refine Spells.of_next? rfl fun rest _ => ?_
  obtain ⟨units, hunits, hread⟩ := stringUnits?_text text.toList rest
  show (stringUnits? _).map _ = _
  rw [List.append_assoc, List.singleton_append, hread, Option.map_some, List.length_append, List.length_singleton]
  dsimp only
  rw [unitsText?_of_denotes hunits, Option.map_some, String.ofList_toList]
  rfl

theorem next?_of_isDigit {c : Char} (hc : c.isDigit = true) (text : List Char) :
    next? c text = (number? (c :: text)).map fun (n, taken) => (.scalar (.number n), taken - 1) := by
  unfold next?
  split
  case h_11 => rfl
  -- The characters with rules of their own are no digits.
  all_goals cases hc

theorem text_eq_cons (n : Numeral) : ∃ c text, n.text true = c :: text ∧ (c = '-' ∨ c.isDigit = true) := by
  obtain ⟨c, text, htext, hc⟩ := Reading.toDigits_eq_cons n.whole
  rw [text_eq, magnitudeText, htext]
  cases n.negative with
  | false => exact ⟨c, _, rfl, .inr hc⟩
  | true => exact ⟨'-', _, rfl, .inl rfl⟩

theorem isBlank_of_isDigit {c : Char} (hc : c.isDigit = true) : isBlank c = false := by
  simp only [isBlank, Bool.or_eq_false_iff, beq_eq_false_iff_ne]
  refine ⟨⟨⟨?_, ?_⟩, ?_⟩, ?_⟩
  all_goals
    rintro rfl
    cases hc

theorem spells_number (n : Numeral) : Spells (n.text true) [.scalar (.number n)] := by
  obtain ⟨c, text, htext, hc⟩ := text_eq_cons n
  have hread {rest : List Char} (hrest : Ends rest) :
      number? (c :: (text ++ rest)) = some (n, text.length + 1) := by
    have h := number?_text n hrest
    rwa [htext] at h
  rw [htext]
  rcases hc with rfl | hc
  · refine Spells.of_next? rfl fun rest hrest => ?_
    show (number? _).map _ = _
    rw [hread hrest]
    rfl
  · refine Spells.of_next? (isBlank_of_isDigit hc) fun rest hrest => ?_
    rw [next?_of_isDigit hc, hread hrest]
    rfl

theorem word?_append (word : String) (value : Value) (rest : List Char) :
    word? word value (word.toList ++ rest) = some (.scalar value, word.toList.length) := by
  rw [word?, if_pos (List.isPrefixOf_iff_prefix.mpr (List.prefix_append _ _)), String.length_toList]

theorem spells_null : Spells "null".toList [.scalar .null] :=
  Spells.of_next? rfl fun rest _ => word?_append "ull" .null rest

theorem spells_bool : ∀ b : Bool, Spells (if b then "true" else "false").toList [.scalar (.bool b)]
  | true => Spells.of_next? rfl fun rest _ => word?_append "rue" (.bool true) rest
  | false => Spells.of_next? rfl fun rest _ => word?_append "alse" (.bool false) rest

/-! ### What arrays and objects hold -/

/-- Runs of lexemes with a comma between them. -/
def joined : (runs : List (List Lexeme)) → List Lexeme
  | [] => []
  | [run] => run
  | run :: runs => run ++ comma :: joined runs

theorem Spells.blanks {blanks text : List Char} {lexemes : List Lexeme}
    (hblanks : ∀ c ∈ blanks, isBlank c = true) (h : Spells text lexemes) : Spells (blanks ++ text) lexemes := by
  induction blanks with
  | nil => exact h
  | cons c blanks ih =>
    exact .blank (hblanks c List.mem_cons_self) (ih fun x hx => hblanks x (List.mem_cons_of_mem c hx))

/-- Things are read one by one where a comma, maybe with white space behind it, stands between them. -/
theorem spells_separated {α : Type} {text : α → List Char} {lexemes : α → List Lexeme} {blanks : List Char}
    (hblanks : ∀ c ∈ blanks, isBlank c = true) : ∀ {items : List α},
      (∀ item ∈ items, Spells (text item) (lexemes item)) →
        Spells (separated (',' :: blanks) (items.map text)) (joined (items.map lexemes))
  | [], _ => .nil
  | [item], h => h item List.mem_cons_self
  | item :: next :: items, h => by
    have hrest := spells_separated hblanks fun x hx => h x (List.mem_cons_of_mem item hx)
    have h := (h item List.mem_cons_self).append (.mark .comma (hrest.blanks hblanks)) (IsMark.comma.ends _)
    rwa [← List.cons_append, ← List.append_assoc] at h

section Enclosed
variable {opening closing : Char} {first last : Lexeme} {α : Type} {text : α → List Char}
  {lexemes : α → List Lexeme} {items : List α}

/-- Things without white space in brackets. -/
theorem spells_row (hopening : IsMark opening first) (hclosing : IsMark closing last)
    (h : ∀ item ∈ items, Spells (text item) (lexemes item)) :
    Spells (opening :: (separated [','] (items.map text) ++ [closing]))
      (first :: (joined (items.map lexemes) ++ [last])) :=
  .mark hopening ((spells_separated (List.forall_mem_nil _) h).append (.mark hclosing .nil) (hclosing.ends []))

theorem isBlank_of_mem_newline {level : Nat} {c : Char} (hc : c ∈ newline level) : isBlank c = true := by
  rcases List.mem_cons.mp hc with rfl | hc
  · rfl
  · rw [List.eq_of_mem_replicate hc]
    rfl

theorem ends_newline (level : Nat) (text : List Char) : Ends (newline level ++ text) :=
  ends_cons (by decide) _

/-- Things on lines of their own in brackets. -/
theorem spells_block (level : Nat) (hopening : IsMark opening first) (hclosing : IsMark closing last)
    (h : ∀ item ∈ items, Spells (text item) (lexemes item)) :
    Spells (block opening closing level (items.map text))
      (first :: (joined (items.map lexemes) ++ [last])) := by
  cases items with
  | nil => exact .mark hopening (.mark hclosing .nil)
  | cons item items =>
    have hblank := fun (n : Nat) (c : Char) (hc : c ∈ newline n) => isBlank_of_mem_newline hc
    have hclose := (Spells.mark hclosing .nil).blanks (hblank level)
    have hitems := (spells_separated (hblank (level + 1)) h).append hclose (ends_newline level [closing])
    have hblock : block opening closing level ((item :: items).map text) =
        opening :: (newline (level + 1) ++ (separated (',' :: newline (level + 1)) ((item :: items).map text) ++
          (newline level ++ [closing]))) := by
      simp only [block, List.map_cons, List.isEmpty_cons, List.cons_append, List.append_assoc]
      rfl
    rw [hblock]
    exact .mark hopening (hitems.blanks (hblank (level + 1)))

end Enclosed

end Lexeme

open Lexeme (joined)

mutual

def Value.lexemes : Value → List Lexeme
  | .array items => .openArray :: (joined (itemLexemes items) ++ [.closeArray])
  | .object fields => .openObject :: (joined (fieldLexemes fields) ++ [.closeObject])
  | value => [.scalar value]

def itemLexemes : List Value → List (List Lexeme)
  | [] => []
  | value :: items => value.lexemes :: itemLexemes items

def fieldLexemes : List (Option String × Value) → List (List Lexeme)
  | [] => []
  | (name, value) :: fields => (.scalar (.string name) :: .colon :: value.lexemes) :: fieldLexemes fields

end

theorem eq_map_of_cons {α β : Type} {f : List α → List β} {g : α → β} (hnil : f [] = [])
    (hcons : ∀ x xs, f (x :: xs) = g x :: f xs) (xs : List α) : f xs = xs.map g := by
  induction xs with
  | nil => exact hnil
  | cons x xs ih => rw [hcons, ih, List.map_cons]

theorem compactItems_eq (items : List Value) : compactItems items = items.map Value.compact :=
  eq_map_of_cons rfl (fun _ _ => rfl) items

theorem compactFields_eq (fields : List (Option String × Value)) :
    compactFields fields = fields.map fun field => stringText field.1 ++ ':' :: field.2.compact :=
  eq_map_of_cons rfl (fun _ _ => rfl) fields

theorem prettyItems_eq (level : Nat) (items : List Value) :
    prettyItems level items = items.map (Value.pretty level) :=
  eq_map_of_cons rfl (fun _ _ => rfl) items

theorem prettyFields_eq (level : Nat) (fields : List (Option String × Value)) :
    prettyFields level fields = fields.map fun field => stringText field.1 ++ ':' :: ' ' :: field.2.pretty level :=
  eq_map_of_cons rfl (fun _ _ => rfl) fields

theorem itemLexemes_eq (items : List Value) : itemLexemes items = items.map Value.lexemes :=
  eq_map_of_cons rfl (fun _ _ => rfl) items

theorem fieldLexemes_eq (fields : List (Option String × Value)) :
    fieldLexemes fields = fields.map fun field => .scalar (.string field.1) :: .colon :: field.2.lexemes :=
  eq_map_of_cons rfl (fun _ _ => rfl) fields

/-- All strings and names in the value have texts. -/
inductive Value.Plain : Value → Prop
  | null : Plain .null
  | bool (b : Bool) : Plain (.bool b)
  | number (n : Numeral) : Plain (.number n)
  | text (s : String) : Plain (.text s)
  | array {items : List Value} (h : ∀ item ∈ items, Plain item) : Plain (.array items)
  | record {fields : List (String × Value)} (h : ∀ field ∈ fields, Plain field.2) : Plain (.record fields)

namespace Value.Plain
open Lexeme
variable {v : Value}

theorem spells_compact (h : v.Plain) : Spells v.compact v.lexemes := by
  induction h with
  | null => exact spells_null
  | bool b => exact spells_bool b
  | number n => exact spells_number n
  | text s => exact spells_text s
  | array _ ih =>
    rw [Value.compact, Value.lexemes, compactItems_eq, itemLexemes_eq]
    exact spells_row .openArray .closeArray ih
  | record _ ih =>
    rw [Value.record, Value.compact, Value.lexemes, compactFields_eq, fieldLexemes_eq, List.map_map, List.map_map]
    refine spells_row .openObject .closeObject fun field hfield => ?_
    exact (spells_text field.1).append (.mark .colon (ih field hfield)) (IsMark.colon.ends _)

theorem spells_pretty (h : v.Plain) : ∀ level, Spells (v.pretty level) v.lexemes := by
  induction h with
  | null => exact fun _ => spells_null
  | bool b => exact fun _ => spells_bool b
  | number n => exact fun _ => spells_number n
  | text s => exact fun _ => spells_text s
  | array _ ih =>
    intro level
    rw [Value.pretty, Value.lexemes, prettyItems_eq, itemLexemes_eq]
    exact spells_block level .openArray .closeArray fun item hitem => ih item hitem (level + 1)
  | record _ ih =>
    intro level
    rw [Value.record, Value.pretty, Value.lexemes, prettyFields_eq, fieldLexemes_eq, List.map_map, List.map_map]
    refine spells_block level .openObject .closeObject fun field hfield => ?_
    have hvalue := (ih field hfield (level + 1)).blank (c := ' ') rfl
    exact (spells_text field.1).append (.mark .colon hvalue) (IsMark.colon.ends _)

end Value.Plain

end DrillCode.Json
