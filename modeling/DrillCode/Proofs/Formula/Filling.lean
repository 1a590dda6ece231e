import DrillCode.Proofs.Formula.Lexing
import DrillCode.Proofs.Machine.Lockstep
import DrillCode.Proofs.Practice.Template

/-! # Values in the places of names

A formula is filled by putting values in the places of the names that have one. In a text that spells a formula,
substitution does just that, if a variable is part of a name only where it is the whole name: a value is a single
number wherever an operand may stand, a later variable is not part of it, and the pieces next to it are still told
apart. The code of the filled formula does what that of the formula itself does with the values bound to the
variables. -/

namespace DrillCode.Formula

/-! ### Spellings -/

/-- The text of pieces, each behind its white space, and of what comes behind the last. -/
def spelled (tail : List Char) : (row : List (List Char × Piece)) → List Char
  | [] => tail
  | (spaces, piece) :: row => spaces ++ (piece.text ++ spelled tail row)

/-- A way to write an expression: its pieces with the white space in front of each, and behind the last. -/
structure Spelling (tree : Tree) where
  row : List (List Char × Piece)
  tail : List Char
  spaced : ∀ entry ∈ row, ∀ c ∈ entry.1, Text.isSpace c = true
  spacedTail : ∀ c ∈ tail, Text.isSpace c = true
  derives : Derives 1 tree (row.map Prod.snd)

theorem layout_spelled {tail : List Char} (htail : ∀ c ∈ tail, Text.isSpace c = true) :
    ∀ {row : List (List Char × Piece)}, (∀ entry ∈ row, ∀ c ∈ entry.1, Text.isSpace c = true) →
      Layout (row.map Prod.snd) (spelled tail row)
  | [], _ => .nil htail
  | entry :: _, h =>
    .cons (h entry List.mem_cons_self) entry.2 (layout_spelled htail fun x hx => h x (List.mem_cons_of_mem entry hx))

theorem Layout.exists_row {pieces : List Piece} {text : List Char} (h : Layout pieces text) :
    ∃ row tail, row.map Prod.snd = pieces ∧ spelled tail row = text ∧
      (∀ entry ∈ row, ∀ c ∈ entry.1, Text.isSpace c = true) ∧ ∀ c ∈ tail, Text.isSpace c = true := by
  induction h with
  | @nil spaces hspaces => exact ⟨[], spaces, rfl, rfl, List.forall_mem_nil _, hspaces⟩
  | @cons spaces text pieces hspaces piece _ ih =>
    obtain ⟨row, tail, rfl, rfl, hrow, htail⟩ := ih
    exact ⟨(spaces, piece) :: row, tail, rfl, rfl, List.forall_mem_cons.mpr ⟨hspaces, hrow⟩, htail⟩

namespace Spelling
variable {tree : Tree}

def text (σ : Spelling tree) : List Char := spelled σ.tail σ.row

theorem spells (σ : Spelling tree) : tree.Spells σ.text :=
  ⟨_, σ.derives, layout_spelled σ.spacedTail σ.spaced⟩

end Spelling

theorem Piece.text_ne_nil (piece : Piece) : piece.text ≠ [] := by
  cases piece with
  | literal l =>
    rw [text, Literal.text]
    split
    · exact List.cons_ne_nil _ _
    · exact l.digits_ne_nil
  | name n =>
    intro hnil
    have hproper := n.proper
    rw [show n.text = [] from hnil] at hproper
    cases hproper
  | operator op => exact List.cons_ne_nil _ _
  | openParen => exact List.cons_ne_nil _ _
  | closeParen => exact List.cons_ne_nil _ _

theorem Layout.trimStart {pieces : List Piece} {text : List Char} (h : Layout pieces text) :
    Layout pieces (Text.trimStart text) := by
  cases h with
  | nil hspaces =>
    rw [Text.trimStart, List.dropWhile_eq_nil_iff.mpr hspaces]
    exact .nil (List.forall_mem_nil _)
  | @cons spaces text pieces hspaces piece rest =>
    rw [Text.trimStart_append hspaces, Text.trimStart_eq_self]
    · exact @Layout.cons [] _ _ (List.forall_mem_nil _) piece rest
    · intro c hc
      obtain ⟨d, more, hpiece⟩ := List.exists_cons_of_ne_nil piece.text_ne_nil
      rw [hpiece] at hc
      cases hc
      exact Piece.isSpace_of_mem (hpiece ▸ List.mem_cons_self)

theorem Layout.trimEnd {pieces : List Piece} {text : List Char} (h : Layout pieces text) :
    Layout pieces (Text.trimEnd text) := by
  induction h with
  | nil hspaces =>
    rw [Text.trimEnd_spaces hspaces]
    exact .nil (List.forall_mem_nil _)
  | @cons spaces text pieces hspaces piece _ ih =>
    have hlast := Piece.isSpace_of_mem (List.getLast_mem piece.text_ne_nil)
    have hshape : ∀ rest, spaces ++ (piece.text ++ rest) =
        spaces ++ piece.text.dropLast ++ piece.text.getLast piece.text_ne_nil :: rest := fun rest => by
      rw [List.append_cons, List.append_assoc spaces, List.dropLast_concat_getLast, List.append_assoc]
    rw [hshape, Text.trimEnd_append hlast, ← hshape]
    exact .cons hspaces piece ih

theorem Tree.Spells.trim {tree : Tree} {text : List Char} (h : tree.Spells text) : tree.Spells (Text.trim text) := by
  obtain ⟨pieces, hderives, hlayout⟩ := h
  exact ⟨pieces, hderives, hlayout.trimStart.trimEnd⟩

theorem Tree.Spells.exists_spelling {tree : Tree} {text : List Char} (h : tree.Spells text) :
    ∃ σ : Spelling tree, σ.text = text := by
  obtain ⟨pieces, hderives, hlayout⟩ := h
  obtain ⟨row, tail, rfl, rfl, hrow, htail⟩ := hlayout.exists_row
  exact ⟨⟨row, tail, hrow, htail, hderives⟩, rfl⟩

/-! ### Values as numbers -/

namespace Literal

theorem isNumeric_toDigits (n : Nat) : ∀ c ∈ Nat.toDigits 10 n, Lexeme.isNumeric c = true := fun c hc => by
  rw [Lexeme.isNumeric, Reading.isDigit_of_isDigit (Reading.isDigit_toDigits n c hc)]
  rfl

/-- A value as it is written. -/
def ofValue (value : Int64) : Literal where
  negative := decide (value.toInt < 0)
  digits := Nat.toDigits 10 value.toInt.natAbs
  magnitude := Float.ofScientific value.toInt.natAbs false 0
  numeric := isNumeric_toDigits _
  reads := Reading.number?_toDigits (by
    have hlow := value.le_toInt
    have hhigh := value.toInt_lt
    unfold wordCount
    omega)

theorem text_ofValue (value : Int64) : (ofValue value).text = Template.valueText value := by
  rw [Template.valueText_eq, text, ofValue]
  split <;> rename_i h
  · rw [if_pos (of_decide_eq_true h)]
  · rw [if_neg (of_decide_eq_false (Bool.eq_false_iff.mpr h))]

theorem value_ofValue (value : Int64) : (ofValue value).value = Float.ofInt value.toInt := by
  show (if decide (value.toInt < 0) = true then -Float.ofScientific value.toInt.natAbs false 0
    else Float.ofScientific value.toInt.natAbs false 0) = Float.ofInt value.toInt
  cases value.toInt with
  | ofNat n => exact if_neg (by simp)
  | negSucc n => exact if_pos (by simp)

end Literal

/-! ### Filling -/

/-- The value of a name. -/
def Name.value? (values : Variables) (n : Name) : Option Int64 := values.get? (String.ofList n.text)

def Piece.filled (values : Variables) : Piece → Piece
  | name n =>
    match n.value? values with
    | some value => literal (.ofValue value)
    | none => name n
  | piece => piece

namespace Tree

def filled (values : Variables) : Tree → Tree
  | number l => number l
  | name n =>
    match n.value? values with
    | some value => number (.ofValue value)
    | none => name n
  | binary op left right => binary op (left.filled values) (right.filled values)

/-- The names in an expression. -/
def names : Tree → List Name
  | number _ => []
  | name n => [n]
  | binary _ left right => left.names ++ right.names

end Tree

theorem Derives.filled (values : Variables) {level : Nat} {tree : Tree} {pieces : List Piece}
    (h : Derives level tree pieces) : Derives level (tree.filled values) (pieces.map (Piece.filled values)) := by
  induction h with
  | number l => exact .number l
  | name n =>
    rw [List.map_singleton, Tree.filled, Piece.filled]
    cases n.value? values with
    | some value => exact .number _
    | none => exact .name n
  | paren _ ih =>
    rw [List.map_cons, List.map_append]
    exact .paren ih
  | binary _ _ ihleft ihright =>
    rw [List.map_append, List.map_cons]
    exact .binary ihleft ihright
  | tighter _ ih => exact .tighter ih

theorem Derives.names {level : Nat} {tree : Tree} {pieces : List Piece} (h : Derives level tree pieces) {n : Name}
    (hn : .name n ∈ pieces) : n ∈ tree.names := by
  induction h with
  | number l => simp at hn
  | name m => simpa [Tree.names] using hn
  | paren _ ih => exact ih (by simpa using hn)
  | binary _ _ ihleft ihright =>
    rw [Tree.names, List.mem_append]
    rcases List.mem_append.mp hn with hn | hn
    · exact .inl (ihleft hn)
    · exact .inr (ihright (by simpa using hn))
  | tighter _ ih => exact ih hn

theorem Tree.names_filled {values : Variables} {n : Name} : ∀ {tree : Tree}, n ∈ (tree.filled values).names →
    n ∈ tree.names ∧ n.value? values = none
  | number l, h => by cases h
  | name m, h => by
    rw [filled] at h
    split at h
    · cases h
    · next hnone =>
      cases List.mem_singleton.mp h
      exact ⟨List.mem_singleton_self n, hnone⟩
  | binary op left right, h => by
    rw [filled, names, List.mem_append] at h
    rw [names, List.mem_append]
    rcases h with h | h
    · exact (names_filled h).imp_left .inl
    · exact (names_filled h).imp_left .inr

theorem Name.value?_eq_none {values : Variables} {n : Name} :
    n.value? values = none ↔ String.ofList n.text ∉ values.keys :=
  OrderedMap.get?_eq_none_iff

/-- Where the same names have values there is nothing left to fill. -/
theorem Tree.filled_filled {values values' : Variables} (h : values'.keys = values.keys) :
    ∀ tree : Tree, (tree.filled values).filled values' = tree.filled values
  | number l => rfl
  | name n => by
    cases hvalue : n.value? values with
    | some value =>
      simp only [filled, hvalue]
    | none =>
      have hvalue' : n.value? values' = none := by
        rw [Name.value?_eq_none] at hvalue ⊢
        rwa [h]
      simp only [filled, hvalue, hvalue']
  | binary op left right => by
    rw [filled, filled, filled_filled h left, filled_filled h right]

/-- The expression as it was written, with values in the places of names. -/
def Spelling.filled (values : Variables) {tree : Tree} (σ : Spelling tree) : Spelling (tree.filled values) where
  row := σ.row.map fun entry => (entry.1, entry.2.filled values)
  tail := σ.tail
  spaced := by
    intro entry hentry
    obtain ⟨old, hold, rfl⟩ := List.mem_map.mp hentry
    exact σ.spaced old hold
  spacedTail := σ.spacedTail
  derives := by
    have h := σ.derives.filled values
    rw [List.map_map] at h ⊢
    exact h

/-! ### Substitution fills -/

/-- The variables are names, and one that is part of a name of the formula is the whole of it. -/
structure Whole (keys : List String) (names : List Name) : Prop where
  proper : ∀ key ∈ keys, Lexeme.isName key.toList = true
  whole : ∀ key ∈ keys, ∀ n ∈ names, key.toList <:+: n.text → key.toList = n.text

theorem Whole.mono {keys : List String} {names part : List Name} (h : Whole keys names) (hpart : part ⊆ names) :
    Whole keys part :=
  ⟨h.proper, fun key hkey n hn => h.whole key hkey n (hpart hn)⟩

theorem Ends.notMem {c : Char} (h : Ends c) {word : List Char} (hword : Lexeme.isName word = true) : c ∉ word :=
  fun hc => by
    have hchar := isWordChar_of_isNameChar (isNameChar_of_isName hword c hc)
    rw [h.2] at hchar
    cases hchar

theorem Whole.notMem_key {keys : List String} {names : List Name} (h : Whole keys names) {key : String}
    (hkey : key ∈ keys) {separator : List Char} (hseparator : ∀ c ∈ separator, Lexeme.isNameChar c = false) :
    ∀ c ∈ separator, c ∉ key.toList := fun c hc hmem => by
  have hchar := hseparator c hc
  rw [isNameChar_of_isName (h.proper key hkey) c hmem] at hchar
  cases hchar

theorem isAlpha_of_isSpace {c : Char} (h : Text.isSpace c = true) : c.isAlpha = false := by
  rw [Bool.eq_false_iff]
  intro halpha
  rw [(isAlpha_class halpha).1] at h
  cases h

theorem isAlpha_of_isNumeric {c : Char} (h : Lexeme.isNumeric c = true) : c.isAlpha = false := by
  rw [Bool.eq_false_iff]
  intro halpha
  rw [(isAlpha_class halpha).2.1] at h
  cases h

theorem head_ne_of_isName {word : List Char} (hword : Lexeme.isName word = true) {c : Char}
    (hc : c.isAlpha = false) : word.head? ≠ some c := by
  cases word with
  | nil => cases hword
  | cons d word =>
    rw [Lexeme.isName, Bool.and_eq_true] at hword
    intro heq
    cases heq
    rw [hc] at hword
    cases hword.1

namespace Piece

/-- Puts a number in the place of a name. -/
def put (word : List Char) (l : Literal) : Piece → Piece
  | name n => if n.text = word then literal l else name n
  | piece => piece

theorem dueBefore_put (word : List Char) (l : Literal) (piece : Piece) :
    (piece.put word l).dueBefore = piece.dueBefore := by
  cases piece with
  | name n =>
    rw [put]
    split <;> rfl
  | _ => rfl

theorem dueBehind_put (word : List Char) (l : Literal) (piece : Piece) :
    (piece.put word l).dueBehind = piece.dueBehind := by
  cases piece with
  | name n =>
    rw [put]
    split <;> rfl
  | _ => rfl

theorem isAlpha_text {piece : Piece} (h : ∀ n, piece ≠ name n) : ∀ c ∈ piece.text, c.isAlpha = false := by
  have hsign : ∀ c ∈ signs, c.isAlpha = false := by simp [signs]
  cases piece with
  | literal l =>
    have hdigits : ∀ c ∈ l.digits, c.isAlpha = false := fun c hc => isAlpha_of_isNumeric (l.numeric c hc)
    rw [text, Literal.text]
    split
    · exact List.forall_mem_cons.mpr ⟨rfl, hdigits⟩
    · exact hdigits
  | name n => exact absurd rfl (h n)
  | operator op => exact List.forall_mem_singleton.mpr (hsign _ op.char_mem)
  | openParen => exact List.forall_mem_singleton.mpr rfl
  | closeParen => exact List.forall_mem_singleton.mpr rfl

theorem put_of_ne_name {piece : Piece} (h : ∀ n, piece ≠ name n) (word : List Char) (l : Literal) :
    piece.put word l = piece := by
  cases piece with
  | name n => exact absurd rfl (h n)
  | _ => rfl

/-- In a name that ends where its text ends, replacing finds the whole name or nothing. -/
theorem replace_name {word : List Char} (hword : word ≠ []) {n : Name} (hwhole : word <:+: n.text → word = n.text)
    (l : Literal) : Text.replace word l.text n.text = ((name n).put word l).text := by
  rw [put]
  split <;> rename_i h
  · rw [h]
    exact Text.replace_self hword
  · exact Text.replace_of_free fun hinfix => absurd (hwhole hinfix).symm h

end Piece

/-- Replacing a name in a text that spells pieces puts a number in its places. In each place a piece is found as a
    whole: in front of what is not a name no letter comes, and behind a name nothing that could belong to it. -/
theorem replace_spelled {word tail : List Char} {l : Literal} (hword : Lexeme.isName word = true)
    (htail : ∀ c ∈ tail, Text.isSpace c = true) :
    ∀ {row : List (List Char × Piece)} {due : Bool}, (∀ entry ∈ row, ∀ c ∈ entry.1, Text.isSpace c = true) →
      Alternates due (row.map Prod.snd) → (∀ n, .name n ∈ row.map Prod.snd → word <:+: n.text → word = n.text) →
      Text.replace word l.text (spelled tail row) = spelled tail (row.map fun entry => (entry.1, entry.2.put word l))
  | [], _, _, _, _ => by
    have h := @Text.replace_run word l.text [] tail fun c hc =>
      head_ne_of_isName hword (isAlpha_of_isSpace (htail c hc))
    rw [Text.replace_nil, List.append_nil] at h
    exact h
  | (spaces, piece) :: row, due, hrow, hturn, hwhole => by
    obtain ⟨hspaces, hrow'⟩ := List.forall_mem_cons.mp hrow
    have hwhole' : ∀ n, .name n ∈ row.map Prod.snd → word <:+: n.text → word = n.text := fun n hn =>
      hwhole n (List.mem_cons_of_mem _ hn)
    have ih := replace_spelled (l := l) hword htail hrow' hturn.2 hwhole'
    have hfront : ∀ c ∈ spaces, word.head? ≠ some c := fun c hc =>
      head_ne_of_isName hword (isAlpha_of_isSpace (hspaces c hc))
    rw [spelled, Text.replace_run hfront, List.map_cons, spelled, ← ih]
    by_cases hname : ∃ n, piece = .name n
    · -- Only a name could go on behind its text, and no piece starts with a character that it could go on with.
      obtain ⟨n, rfl⟩ := hname
      have hends : ∀ c, (spelled tail row).head? = some c → c ∉ word := fun c hc =>
        ((layout_spelled htail hrow').ends hturn.2 c hc).notMem hword
      have hne : word ≠ [] := by
        rintro rfl
        cases hword
      have hpiece := Piece.replace_name hne (hwhole n List.mem_cons_self) l
      rw [← hpiece]
      exact congrArg (spaces ++ ·) (Text.replace_append hends)
    · have hne : ∀ n, piece ≠ .name n := fun n h => hname ⟨n, h⟩
      rw [Piece.put_of_ne_name hne, Text.replace_run fun c hc => head_ne_of_isName hword (Piece.isAlpha_text hne c hc)]

/-- Puts values in the places of names, one after the other. -/
def Piece.putAll (entries : List (String × Int64)) (piece : Piece) : Piece :=
  entries.foldl (fun piece entry => piece.put entry.1.toList (.ofValue entry.2)) piece

theorem Piece.putAll_of_ne_name {piece : Piece} (h : ∀ n, piece ≠ name n) :
    ∀ entries : List (String × Int64), piece.putAll entries = piece
  | [] => rfl
  | entry :: entries => by
    rw [putAll, List.foldl_cons, put_of_ne_name h]
    exact putAll_of_ne_name h entries

/-- A name gets the value of the first entry that has it as key. -/
theorem Piece.putAll_name (n : Name) : ∀ entries : List (String × Int64),
    (name n).putAll entries =
      match (entries.find? fun entry => entry.1 = String.ofList n.text).map Prod.snd with
      | some value => literal (.ofValue value)
      | none => name n
  | [] => rfl
  | (key, value) :: entries => by
    rw [putAll, List.foldl_cons, put]
    by_cases h : n.text = key.toList
    · have hkey : key = String.ofList n.text := by rw [h, String.ofList_toList]
      -- What was put in its place is a number, in which later entries find nothing.
      rw [if_pos h, List.find?_cons_of_pos (by exact decide_eq_true hkey)]
      exact putAll_of_ne_name (fun _ heq => by cases heq) entries
    · have hkey : ¬key = String.ofList n.text := fun heq => h (by rw [heq, String.toList_ofList])
      rw [if_neg h, List.find?_cons_of_neg (by simpa using hkey)]
      exact putAll_name n entries

theorem Piece.putAll_entries (values : Variables) (piece : Piece) :
    piece.putAll values.entries = piece.filled values := by
  cases piece with
  | name n => exact putAll_name n values.entries
  | _ => exact putAll_of_ne_name (fun _ heq => by cases heq) _

theorem Piece.eq_name_of_put {word : List Char} {l : Literal} {piece : Piece} {n : Name}
    (h : piece.put word l = name n) :
    piece = name n := by
  cases piece with
  | name m =>
    rw [put] at h
    split at h
    · cases h
    · exact h
  | _ => exact h

theorem alternates_put {word : List Char} {l : Literal} : ∀ {pieces : List Piece} {due : Bool},
    Alternates due pieces → Alternates due (pieces.map (Piece.put word l))
  | [], _, _ => trivial
  | piece :: pieces, due, h => by
    refine ⟨h.1.trans (piece.dueBefore_put word l).symm, ?_⟩
    rw [piece.dueBehind_put]
    exact alternates_put h.2

theorem replaceAll_spelled {tail : List Char} (htail : ∀ c ∈ tail, Text.isSpace c = true) :
    ∀ {entries : List (String × Int64)} {row : List (List Char × Piece)},
      (∀ entry ∈ entries, Lexeme.isName entry.1.toList = true) →
      (∀ entry ∈ row, ∀ c ∈ entry.1, Text.isSpace c = true) → Alternates true (row.map Prod.snd) →
      (∀ entry ∈ entries, ∀ n, .name n ∈ row.map Prod.snd → entry.1.toList <:+: n.text → entry.1.toList = n.text) →
      Text.replaceAll (entries.map fun entry => (entry.1.toList, Template.valueText entry.2)) (spelled tail row) =
        spelled tail (row.map fun entry => (entry.1, entry.2.putAll entries))
  | [], row, _, _, _, _ => by
    have hrow : (row.map fun entry => (entry.1, entry.2.putAll [])) = row := List.map_id row
    rw [hrow]
    rfl
  | (key, value) :: entries, row, hname, hrow, hturn, hwhole => by
    obtain ⟨hkey, hname⟩ := List.forall_mem_cons.mp hname
    obtain ⟨hwholekey, hwhole⟩ := List.forall_mem_cons.mp hwhole
    have hpieces : (row.map fun entry => (entry.1, entry.2.put key.toList (.ofValue value))).map Prod.snd =
        (row.map Prod.snd).map (Piece.put key.toList (.ofValue value)) := by
      rw [List.map_map, List.map_map]
      rfl
    have hstep := replace_spelled (l := .ofValue value) hkey htail hrow hturn hwholekey
    rw [Literal.text_ofValue] at hstep
    rw [List.map_cons, Text.replaceAll_cons, hstep, replaceAll_spelled htail hname ?_ ?_ ?_]
    · rw [List.map_map]
      rfl
    · intro entry hentry
      obtain ⟨old, hold, rfl⟩ := List.mem_map.mp hentry
      exact hrow old hold
    · rw [hpieces]
      exact alternates_put hturn
    · -- The later entries meet no new names.
      intro entry hentry n hn
      rw [hpieces] at hn
      obtain ⟨old, hold, hput⟩ := List.mem_map.mp hn
      exact hwhole entry hentry n (Piece.eq_name_of_put hput ▸ hold)

/-- Substituting the variables in a text that spells an expression puts their values in the places of its names. -/
theorem Spelling.substituteVariables {values : Variables} {tree : Tree} (σ : Spelling tree)
    (h : Whole values.keys tree.names) : Template.substituteVariables values σ.text = (σ.filled values).text := by
  have hkeys : ∀ entry ∈ values.entries, entry.1 ∈ values.keys := fun entry hentry => List.mem_map_of_mem hentry
  have hturns : Alternates true (σ.row.map Prod.snd ++ []) := σ.derives.alternates trivial
  rw [List.append_nil] at hturns
  have hreplace : Text.replaceAll (Template.patterns values) (spelled σ.tail σ.row) = _ :=
    replaceAll_spelled σ.spacedTail (fun entry hentry => h.proper entry.1 (hkeys entry hentry)) σ.spaced hturns
      fun entry hentry n hn => h.whole entry.1 (hkeys entry hentry) n (σ.derives.names hn)
  rw [Template.substituteVariables_eq, text, text, hreplace, filled]
  simp only [Piece.putAll_entries]

theorem Tree.Spells.filled {values : Variables} {tree : Tree} {text : List Char} (htext : tree.Spells text)
    (h : Whole values.keys tree.names) : (tree.filled values).Spells (Template.substituteVariables values text) := by
  obtain ⟨σ, rfl⟩ := htext.exists_spelling
  rw [σ.substituteVariables h]
  exact (σ.filled values).spells

namespace Sentence

def filled (values : Variables) : Sentence → Sentence
  | expression tree => expression (tree.filled values)
  | equation left right => equation (left.filled values) (right.filled values)

def names : Sentence → List Name
  | expression tree => tree.names
  | equation left right => left.names ++ right.names

theorem Spells.filled {values : Variables} {s : Sentence} {text : List Char} (htext : s.Spells text)
    (h : Whole values.keys s.names) : (s.filled values).Spells (Template.substituteVariables values text) := by
  cases s with
  | expression tree => exact Tree.Spells.filled htext h
  | equation left right =>
    obtain ⟨before, behind, rfl, hleft, hright⟩ := htext
    have hsplit := Template.substituteVariables_append (List.cons_ne_nil '=' [])
      (fun key hkey => h.notMem_key hkey (List.forall_mem_singleton.mpr (by decide))) before behind
    exact ⟨_, _, hsplit, hleft.filled (h.mono (List.subset_append_left _ _)),
      hright.filled (h.mono (List.subset_append_right _ _))⟩

theorem isEquation_filled (values : Variables) (s : Sentence) : (s.filled values).isEquation = s.isEquation := by
  cases s <;> rfl

end Sentence

theorem Whole.filled {keys : List String} {tree : Tree} (h : Whole keys tree.names) (values : Variables) :
    Whole keys (tree.filled values).names :=
  h.mono fun _ hn => (Tree.names_filled hn).1

/-! ### The code of what is filled -/

section Code
variable {values : Variables} {bindings : Bindings} {tolerance : Float}

theorem Operator.instruction_isPlain (op : Operator) : op.instruction.IsPlain := by
  cases op <;> trivial

/-- The code of a filled expression does what the code of the expression does with the values bound to the names. The
    names that are left must have no value in either run. -/
theorem Tree.code_filled_alike : ∀ {tree : Tree},
    (∀ n ∈ tree.names, n.value? values = none → bindings.get? (String.ofList n.text) = none) →
      List.Forall₂ (Instruction.Alike tolerance bindings (values.mapValues fun value => Float.ofInt value.toInt))
        (tree.filled values).code tree.code
  | number l, _ => .cons (Instruction.IsPlain.alike trivial) .nil
  | name n, h => by
    have hvalues :=
      OrderedMap.get?_mapValues (fun value : Int64 => Float.ofInt value.toInt) values (String.ofList n.text)
    rw [Tree.filled]
    cases hvalue : n.value? values with
    | some value =>
      have hget : values.get? (String.ofList n.text) = some value := hvalue
      rw [hget] at hvalues
      refine .cons (Instruction.alike_push_load ?_) .nil
      rw [Literal.value_ofValue]
      exact hvalues
    | none =>
      have hget : values.get? (String.ofList n.text) = none := hvalue
      rw [hget] at hvalues
      exact .cons (Instruction.alike_load ((h n List.mem_cons_self hvalue).trans hvalues.symm)) .nil
  | binary op left right, h => by
    have hleft := @code_filled_alike left fun n hn => h n (List.mem_append_left _ hn)
    have hright := @code_filled_alike right fun n hn => h n (List.mem_append_right _ hn)
    exact List.rel_append (List.rel_append hleft hright) (.cons op.instruction_isPlain.alike .nil)

theorem Sentence.code_filled_alike {s : Sentence}
    (h : ∀ n ∈ s.names, n.value? values = none → bindings.get? (String.ofList n.text) = none) :
    List.Forall₂ (Instruction.Alike tolerance bindings (values.mapValues fun value => Float.ofInt value.toInt))
      (s.filled values).code s.code := by
  cases s with
  | expression tree => exact List.rel_append (Tree.code_filled_alike h) (.cons (Instruction.IsPlain.alike trivial) .nil)
  | equation left right =>
    have hleft := @Tree.code_filled_alike _ _ tolerance left fun n hn => h n (List.mem_append_left _ hn)
    have hright := @Tree.code_filled_alike _ _ tolerance right fun n hn => h n (List.mem_append_right _ hn)
    exact List.rel_append (List.rel_append hleft hright)
      (.cons (Instruction.IsPlain.alike trivial) (.cons (Instruction.IsPlain.alike trivial) .nil))

end Code

end DrillCode.Formula
