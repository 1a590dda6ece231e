import DrillCode.Proofs.Json.Lexeme

/-! # Values are read back

The lexemes of a value take the reader from where a value may stand to where the value is put. A value whose
strings all have texts is therefore read back from its own text. -/

namespace DrillCode.Json
namespace ParseState
open Lexeme (joined)

/-- How an array or an object takes what it holds: its frame, what may come behind a comma, and how it is
    closed. -/
structure Collects {α : Type} (frame : List α → Frame) (mode : Mode) (closing : Lexeme)
    (whole : List α → Value) : Prop where
  resume : ∀ held stack, step ⟨frame held :: stack, .more⟩ .comma = some ⟨frame held :: stack, mode⟩
  close : ∀ held stack, step ⟨frame held :: stack, .more⟩ closing = finish (whole held.reverse) stack

theorem collects_items : Collects .array .value .closeArray .array := ⟨fun _ _ => rfl, fun _ _ => rfl⟩

theorem collects_fields : Collects .object .name .closeObject .object := ⟨fun _ _ => rfl, fun _ _ => rfl⟩

section Joined
variable {α : Type} {frame : List α → Frame} {mode : Mode} {closing : Lexeme} {whole : List α → Value}
  {lexemes : α → List Lexeme}

/-- If each of several things is put into its frame when it is read, all of them are read with the commas
    between them, up to what closes the frame. -/
theorem Collects.foldlM_joined (h : Collects frame mode closing whole) (stack : List Frame) (rest : List Lexeme) :
    ∀ {items : List α} (held : List α), items ≠ [] →
      (∀ item ∈ items, ∀ held rest, (lexemes item ++ rest).foldlM step ⟨frame held :: stack, mode⟩ =
        rest.foldlM step ⟨frame (item :: held) :: stack, .more⟩) →
      (joined (items.map lexemes) ++ closing :: rest).foldlM step ⟨frame held :: stack, mode⟩ =
        (finish (whole (held.reverse ++ items)) stack).bind fun s => rest.foldlM step s
  | [], _, hne, _ => absurd rfl hne
  | [item], held, _, hitems => by
    show (lexemes item ++ closing :: rest).foldlM step _ = _
    rw [hitems item List.mem_cons_self, List.foldlM_cons, h.close, List.reverse_cons]
    rfl
  | item :: next :: items, held, _, hitems => by
    have ih := h.foldlM_joined stack rest (item :: held) (List.cons_ne_nil next items)
      fun x hx => hitems x (List.mem_cons_of_mem item hx)
    show ((lexemes item ++ .comma :: joined _) ++ closing :: rest).foldlM step _ = _
    rw [List.append_assoc, hitems item List.mem_cons_self, List.cons_append, List.foldlM_cons, h.resume]
    refine ih.trans ?_
    rw [List.reverse_cons, List.append_assoc, List.singleton_append]

end Joined

/-! ### Values -/

/-- The lexemes of the value, read where a value may stand, put it where it belongs. -/
def Parses (v : Value) : Prop :=
  ∀ stack rest, (v.lexemes ++ rest).foldlM step ⟨stack, .value⟩ =
    (finish v stack).bind fun s => rest.foldlM step s

theorem foldlM_firstItem (v : Value) (stack : List Frame) (rest : List Lexeme) :
    (v.lexemes ++ rest).foldlM step ⟨stack, .firstItem⟩ = (v.lexemes ++ rest).foldlM step ⟨stack, .value⟩ := by
  cases v <;> rfl

theorem parses_array {items : List Value} (h : ∀ item ∈ items, Parses item) : Parses (.array items) := by
  intro stack rest
  rw [Value.lexemes, itemLexemes_eq, List.cons_append, List.append_assoc, List.singleton_append]
  show (joined (items.map Value.lexemes) ++ .closeArray :: rest).foldlM step ⟨.array [] :: stack, .firstItem⟩ = _
  cases items with
  | nil => rfl
  | cons item items =>
    have hitems : ∀ x ∈ item :: items, ∀ held rest,
        (x.lexemes ++ rest).foldlM step ⟨.array held :: stack, .value⟩ =
          rest.foldlM step ⟨.array (x :: held) :: stack, .more⟩ :=
      fun x hx held rest => h x hx (.array held :: stack) rest
    -- What comes first may also be the end of the array, which no value begins with.
    have hfirst : (joined ((item :: items).map Value.lexemes) ++ .closeArray :: rest).foldlM step
          ⟨.array [] :: stack, .firstItem⟩ =
        (joined ((item :: items).map Value.lexemes) ++ .closeArray :: rest).foldlM step
          ⟨.array [] :: stack, .value⟩ := by
      cases items with
      | nil => exact foldlM_firstItem item _ _
      | cons next items =>
        show ((item.lexemes ++ _) ++ _).foldlM step _ = ((item.lexemes ++ _) ++ _).foldlM step _
        rw [List.append_assoc]
        exact foldlM_firstItem item _ _
    rw [hfirst]
    exact collects_items.foldlM_joined stack rest [] (List.cons_ne_nil item items) hitems

theorem parses_object {fields : List (Option String × Value)} (h : ∀ field ∈ fields, Parses field.2) :
    Parses (.object fields) := by
  intro stack rest
  rw [Value.lexemes, fieldLexemes_eq, List.cons_append, List.append_assoc, List.singleton_append]
  show (joined (fields.map _) ++ .closeObject :: rest).foldlM step ⟨.object [] :: stack, .firstName⟩ = _
  cases fields with
  | nil => rfl
  | cons field fields =>
    have hfields : ∀ x ∈ field :: fields, ∀ held rest,
        (.scalar (.string x.1) :: .colon :: x.2.lexemes ++ rest).foldlM step ⟨.object held :: stack, .name⟩ =
          rest.foldlM step ⟨.object (x :: held) :: stack, .more⟩ :=
      fun x hx held rest => h x hx (.field x.1 held :: stack) rest
    refine Eq.trans ?_ (collects_fields.foldlM_joined stack rest [] (List.cons_ne_nil field fields) hfields)
    -- The name of the first field is read alike, whether or not the object may end in its place.
    cases fields <;> rfl

theorem parses_of_plain {v : Value} (h : v.Plain) : Parses v := by
  induction h with
  | null => exact fun _ _ => rfl
  | bool => exact fun _ _ => rfl
  | number => exact fun _ _ => rfl
  | text => exact fun _ _ => rfl
  | array _ ih => exact parses_array ih
  | record _ ih =>
    refine parses_object fun field hfield => ?_
    obtain ⟨field, hmem, rfl⟩ := List.mem_map.mp hfield
    exact ih field hmem

end ParseState

/-! ### Texts -/

namespace Value

/-- The texts of a value that are written: on one line, or over several from the first level on. -/
def texts (v : Value) : List (List Char) := [v.compact, v.pretty 0]

/-- A value is read back from both of its texts. -/
theorem Plain.parse?_texts {v : Value} (h : v.Plain) {text : List Char} (htext : text ∈ v.texts) :
    parse? text = some v := by
  have hspells : Lexeme.Spells text v.lexemes := by
    simp only [texts, List.mem_cons, List.not_mem_nil, or_false] at htext
    rcases htext with rfl | rfl
    · exact h.spells_compact
    · exact h.spells_pretty 0
  have hlexemes : Lexeme.ofText? text = some v.lexemes := by
    have h := hspells [] fun _ h => nomatch h
    rwa [List.append_nil, Lexeme.ofText?, Option.map_eq_map, Option.map_some, List.append_nil] at h
  have hparses : v.lexemes.foldlM ParseState.step .start = some ⟨[], .finished v⟩ := by
    have hv := ParseState.parses_of_plain h [] []
    rwa [List.append_nil] at hv
  rw [parse?, hlexemes, Option.bind_eq_bind, Option.bind_some, hparses]
  rfl

end Value
end DrillCode.Json
