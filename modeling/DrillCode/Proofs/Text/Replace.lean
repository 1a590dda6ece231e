import DrillCode.Text.Replace
import Mathlib.Data.List.Infix

/-! # What replacing leaves

A text in which the occurrences of a pattern were replaced is made of gaps, none of which holds the pattern, with
the value between them. A word that shares no character with the value lies inside a gap wherever it is found in
the result. So it was in the text before, and it is not the pattern. -/

namespace DrillCode.Text

/-! ### Occurrences -/

/-- A word at the front of a text ends in front of the first character that it does not have. -/
theorem prefix_of_prefix_append {word before behind : List Char} (h : word <+: before ++ behind)
    (hbehind : ∀ c, behind.head? = some c → c ∉ word) : word <+: before := by
  rcases List.prefix_or_prefix_of_prefix h (List.prefix_append before behind) with h' | ⟨rest, rfl⟩
  · exact h'
  · rw [List.prefix_append_right_inj] at h
    obtain ⟨more, rfl⟩ := h
    cases rest with
    | nil => rw [List.append_nil]
    | cons c rest => exact absurd (List.mem_append_right before List.mem_cons_self) (hbehind c rfl)

/-- A word is not found across characters that it does not have. -/
theorem infix_of_infix_append {word value behind : List Char} (hword : word ≠ []) (hvalue : ∀ c ∈ value, c ∉ word)
    (h : word <:+: value ++ behind) : word <:+: behind := by
  induction value with
  | nil => exact h
  | cons c value ih =>
    rcases List.infix_cons_iff.mp h with h | h
    · obtain ⟨d, word, rfl⟩ := List.exists_cons_of_ne_nil hword
      rw [(List.cons_prefix_cons.mp h).1] at hvalue
      exact absurd List.mem_cons_self (hvalue c List.mem_cons_self)
    · exact ih (fun x hx => hvalue x (List.mem_cons_of_mem c hx)) h

theorem infix_around {word value behind : List Char} (hvalue : value ≠ []) (hapart : ∀ c ∈ value, c ∉ word) :
    ∀ {before : List Char}, word <:+: before ++ (value ++ behind) → word <:+: before ∨ word <:+: behind
  | [], h => by
    by_cases hword : word = []
    · exact .inl (hword ▸ List.infix_rfl)
    · exact .inr (infix_of_infix_append hword hapart h)
  | c :: before, h => by
    rcases List.infix_cons_iff.mp h with h | h
    · refine .inl (prefix_of_prefix_append h fun x hx => ?_).isInfix
      obtain ⟨d, value, rfl⟩ := List.exists_cons_of_ne_nil hvalue
      exact Option.some.inj hx ▸ hapart d List.mem_cons_self
    · rcases infix_around hvalue hapart h with h | h
      · exact .inl (List.infix_cons h)
      · exact .inr h

/-! ### Replacing -/

section Step
variable {p c : Char} {ps value text : List Char}

theorem replaceFrom_nil : replaceFrom p ps value [] = [] := by
  rw [replaceFrom]

theorem replaceFrom_append : replaceFrom p ps value (p :: (ps ++ text)) = value ++ replaceFrom p ps value text := by
  have hprefix : (p :: ps).isPrefixOf (p :: (ps ++ text)) = true :=
    List.isPrefixOf_iff_prefix.mpr (List.prefix_append (p :: ps) text)
  rw [replaceFrom, if_pos hprefix, List.drop_left]

theorem replaceFrom_cons (h : ¬p :: ps <+: c :: text) :
    replaceFrom p ps value (c :: text) = c :: replaceFrom p ps value text := by
  rw [replaceFrom, if_neg (mt List.isPrefixOf_iff_prefix.mp h)]

end Step

/-- The steps of replacing from the front: at the end, at an occurrence, and at any other character. -/
theorem replaceFrom_induction {p : Char} {ps : List Char} {motive : List Char → Prop} (nil : motive [])
    (found : ∀ text, motive text → motive (p :: (ps ++ text)))
    (other : ∀ c text, ¬p :: ps <+: c :: text → motive text → motive (c :: text)) (text : List Char) :
    motive text := by
  induction text using replaceFrom.induct p ps with
  | case1 => exact nil
  | case2 c text h ih =>
    obtain ⟨rest, hrest⟩ := List.isPrefixOf_iff_prefix.mp h
    obtain ⟨rfl, htext⟩ := List.cons.inj hrest
    have hdrop : text.drop ps.length = rest := htext ▸ List.drop_left
    rw [hdrop] at ih
    exact htext ▸ found rest ih
  | case3 c text h ih => exact other c text (mt List.isPrefixOf_iff_prefix.mpr h) ih

/-- The result has the gaps of the text, with the value in each place of the pattern. -/
inductive Replaced (pattern value : List Char) : (text result : List Char) → Prop
  | last {gap : List Char} (free : ¬pattern <:+: gap) : Replaced pattern value gap gap
  | next {gap text result : List Char} (free : ¬pattern <:+: gap) (rest : Replaced pattern value text result) :
      Replaced pattern value (gap ++ (pattern ++ text)) (gap ++ (value ++ result))

section Replaced
variable {pattern value text result word : List Char}

/-- The first gap is longer by a character with which the pattern does not start. -/
theorem Replaced.cons {c : Char} (h : Replaced pattern value text result) (hc : ¬pattern <+: c :: text) :
    Replaced pattern value (c :: text) (c :: result) := by
  cases h with
  | last free => exact .last fun h => (List.infix_cons_iff.mp h).elim hc free
  | @next gap text result free rest =>
    refine @Replaced.next _ _ (c :: gap) _ _ (fun h => ?_) rest
    rcases List.infix_cons_iff.mp h with h | h
    · exact hc (h.trans (List.prefix_append (c :: gap) _))
    · exact free h

theorem replace_replaced (hpattern : pattern ≠ []) (text : List Char) :
    Replaced pattern value text (replace pattern value text) := by
  obtain ⟨p, ps, rfl⟩ := List.exists_cons_of_ne_nil hpattern
  show Replaced (p :: ps) value text (replaceFrom p ps value text)
  induction text using @replaceFrom_induction p ps with
  | nil =>
    rw [replaceFrom_nil]
    exact .last (by simp)
  | found text ih =>
    rw [replaceFrom_append]
    exact @Replaced.next _ _ [] _ _ (by simp) ih
  | other c text h ih =>
    rw [replaceFrom_cons h]
    exact ih.cons h

/-- What is found in the result, and shares nothing with the value, is found in a gap. -/
theorem Replaced.exists_gap (h : Replaced pattern value text result) (hvalue : value ≠ [])
    (hapart : ∀ c ∈ value, c ∉ word) (hword : word <:+: result) :
    ∃ gap, word <:+: gap ∧ gap <:+: text ∧ ¬pattern <:+: gap := by
  induction h with
  | last free => exact ⟨_, hword, List.infix_rfl, free⟩
  | @next gap text result free rest ih =>
    rcases infix_around hvalue hapart hword with hword | hword
    · exact ⟨gap, hword, (List.prefix_append gap _).isInfix, free⟩
    · -- The value stands between the gaps, so the word lies in a later one.
      obtain ⟨gap', hgap, htext, hfree⟩ := ih hword
      rw [← List.append_assoc]
      exact ⟨gap', hgap, htext.trans (List.suffix_append _ text).isInfix, hfree⟩

theorem not_infix_replace (hpattern : pattern ≠ []) (hvalue : value ≠ []) (hapart : ∀ c ∈ value, c ∉ pattern)
    (text : List Char) : ¬pattern <:+: replace pattern value text := fun h => by
  obtain ⟨gap, hgap, -, hfree⟩ := (replace_replaced hpattern text).exists_gap hvalue hapart h
  exact hfree hgap

theorem infix_of_infix_replace (hvalue : value ≠ []) (hapart : ∀ c ∈ value, c ∉ word)
    (h : word <:+: replace pattern value text) : word <:+: text := by
  by_cases hpattern : pattern = []
  · subst hpattern
    exact h
  · obtain ⟨gap, hgap, htext, -⟩ := (replace_replaced hpattern text).exists_gap hvalue hapart h
    exact hgap.trans htext

end Replaced

/-! ### Parts that are replaced apart -/

section Parts
variable {pattern value text : List Char}

theorem replace_of_free (h : pattern <:+: text → pattern = []) : replace pattern value text = text := by
  cases pattern with
  | nil => rfl
  | cons p ps =>
    have hfree : ¬p :: ps <:+: text := fun hinfix => List.cons_ne_nil p ps (h hinfix)
    clear h
    show replaceFrom p ps value text = text
    induction text with
    | nil => exact replaceFrom_nil
    | cons c text ih =>
      rw [List.infix_cons_iff, not_or] at hfree
      rw [replaceFrom_cons hfree.1, ih hfree.2]

theorem replace_nil : replace pattern value [] = [] := by
  cases pattern with
  | nil => rfl
  | cons p ps => exact replaceFrom_nil

/-- Where a text goes on with a character that the pattern does not have, both parts are replaced apart. -/
theorem replace_append {before behind : List Char} (hbehind : ∀ c, behind.head? = some c → c ∉ pattern) :
    replace pattern value (before ++ behind) = replace pattern value before ++ replace pattern value behind := by
  cases pattern with
  | nil => rfl
  | cons p ps =>
    show replaceFrom p ps value (before ++ behind) = replaceFrom p ps value before ++ replaceFrom p ps value behind
    induction before using @replaceFrom_induction p ps with
    | nil => rw [replaceFrom_nil, List.nil_append, List.nil_append]
    | found text ih =>
      rw [List.cons_append, List.append_assoc, replaceFrom_append, replaceFrom_append, ih, List.append_assoc]
    | other c text h ih =>
      -- An occurrence across the border would have the first character behind it.
      rw [List.cons_append, replaceFrom_cons h, List.cons_append, ← ih]
      exact replaceFrom_cons fun h' => h (@prefix_of_prefix_append _ (c :: text) _ h' hbehind)

/-- Characters with which the pattern does not start stay. -/
theorem replace_run : ∀ {run : List Char}, (∀ c ∈ run, pattern.head? ≠ some c) →
    replace pattern value (run ++ text) = run ++ replace pattern value text
  | [], _ => rfl
  | c :: run, h => by
    have ih := @replace_run run fun x hx => h x (List.mem_cons_of_mem c hx)
    cases pattern with
    | nil => rfl
    | cons p ps =>
      have hne : p ≠ c := fun heq => h c List.mem_cons_self (congrArg some heq)
      rw [List.cons_append, List.cons_append, ← ih]
      exact replaceFrom_cons fun h' => hne (List.cons_prefix_cons.mp h').1

theorem replace_self (hpattern : pattern ≠ []) : replace pattern value pattern = value := by
  obtain ⟨p, ps, rfl⟩ := List.exists_cons_of_ne_nil hpattern
  have h := @replaceFrom_append p ps value []
  rw [List.append_nil, replaceFrom_nil, List.append_nil] at h
  exact h

theorem count_replace {c : Char} (hpattern : c ∉ pattern) (hvalue : c ∉ value) (text : List Char) :
    (replace pattern value text).count c = text.count c := by
  cases pattern with
  | nil => rfl
  | cons p ps =>
    show (replaceFrom p ps value text).count c = text.count c
    induction text using @replaceFrom_induction p ps with
    | nil => rw [replaceFrom_nil]
    | found text ih =>
      rw [replaceFrom_append, List.count_append, List.count_eq_zero.mpr hvalue, ih, ← List.cons_append,
        List.count_append, List.count_eq_zero.mpr hpattern]
    | other d text h ih => rw [replaceFrom_cons h, List.count_cons, List.count_cons, ih]

end Parts

/-! ### One pattern after the other -/

/-- Replaces patterns one after the other, each with the value next to it. -/
def replaceAll (entries : List (List Char × List Char)) (text : List Char) : List Char :=
  entries.foldl (fun text entry => replace entry.1 entry.2 text) text

section ReplaceAll
variable {entries : List (List Char × List Char)} {text : List Char}

theorem replaceAll_cons (pattern value : List Char) (entries : List (List Char × List Char)) (text : List Char) :
    replaceAll ((pattern, value) :: entries) text = replaceAll entries (replace pattern value text) := rfl

/-- A text that holds none of the patterns, but for empty ones, stays as it is. -/
theorem replaceAll_of_free (h : ∀ entry ∈ entries, entry.1 <:+: text → entry.1 = []) :
    replaceAll entries text = text := by
  induction entries with
  | nil => rfl
  | cons entry entries ih =>
    rw [replaceAll_cons entry.1, replace_of_free (h entry List.mem_cons_self)]
    exact ih fun x hx => h x (List.mem_cons_of_mem entry hx)

/-- Characters that no pattern has separate what is replaced. -/
theorem replaceAll_append {separator : List Char} (hne : separator ≠ [])
    (h : ∀ entry ∈ entries, ∀ c ∈ separator, c ∉ entry.1) (before behind : List Char) :
    replaceAll entries (before ++ (separator ++ behind)) =
      replaceAll entries before ++ (separator ++ replaceAll entries behind) := by
  induction entries generalizing before behind with
  | nil => rfl
  | cons entry entries ih =>
    have hapart := h entry List.mem_cons_self
    have hrun : ∀ c ∈ separator, entry.1.head? ≠ some c := fun c hc hhead => hapart c hc (List.mem_of_mem_head? hhead)
    have hhead : ∀ c, (separator ++ behind).head? = some c → c ∉ entry.1 := fun c hc => by
      rw [List.head?_append_of_ne_nil _ hne] at hc
      exact hapart c (List.mem_of_mem_head? hc)
    rw [replaceAll_cons entry.1, replace_append hhead, replace_run hrun]
    exact ih (fun x hx => h x (List.mem_cons_of_mem entry hx)) _ _

theorem infix_of_infix_replaceAll {word : List Char}
    (h : ∀ entry ∈ entries, entry.2 ≠ [] ∧ ∀ c ∈ entry.2, c ∉ word) :
    ∀ {text : List Char}, word <:+: replaceAll entries text → word <:+: text := by
  induction entries with
  | nil => exact fun hword => hword
  | cons entry entries ih =>
    intro text hword
    obtain ⟨hvalue, hapart⟩ := h entry List.mem_cons_self
    exact infix_of_infix_replace hvalue hapart (ih (fun x hx => h x (List.mem_cons_of_mem entry hx)) hword)

theorem not_infix_replaceAll {pattern : List Char} (hpattern : pattern ≠ [])
    (h : ∀ entry ∈ entries, entry.2 ≠ [] ∧ ∀ c ∈ entry.2, c ∉ pattern) (hmem : pattern ∈ entries.map Prod.fst) :
    ∀ text : List Char, ¬pattern <:+: replaceAll entries text := by
  induction entries with
  | nil => cases hmem
  | cons entry entries ih =>
    intro text hinfix
    have hrest : ∀ x ∈ entries, x.2 ≠ [] ∧ ∀ c ∈ x.2, c ∉ pattern := fun x hx => h x (List.mem_cons_of_mem entry hx)
    rcases List.mem_cons.mp hmem with rfl | hmem
    · obtain ⟨hvalue, hapart⟩ := h entry List.mem_cons_self
      exact not_infix_replace hpattern hvalue hapart text (infix_of_infix_replaceAll hrest hinfix)
    · exact ih hrest hmem _ hinfix

theorem count_replaceAll {c : Char} : ∀ {entries : List (List Char × List Char)},
    (∀ entry ∈ entries, c ∉ entry.1 ∧ c ∉ entry.2) → ∀ text : List Char,
      (replaceAll entries text).count c = text.count c
  | [], _, _ => rfl
  | (pattern, value) :: entries, h, text => by
    obtain ⟨hpattern, hvalue⟩ := h _ List.mem_cons_self
    rw [replaceAll_cons, count_replaceAll fun x hx => h x (List.mem_cons_of_mem _ hx)]
    exact count_replace hpattern hvalue text

end ReplaceAll

/-! ### Splitting -/

theorem eq_of_splitOnce {pattern before behind : List Char} : ∀ {text : List Char},
    splitOnce pattern text = some (before, behind) → text = before ++ (pattern ++ behind)
  | [], h => by cases h
  | c :: text, h => by
    rw [splitOnce] at h
    split at h
    · next hprefix =>
      obtain ⟨rest, hrest⟩ := List.isPrefixOf_iff_prefix.mp hprefix
      rw [← hrest, List.drop_left] at h
      cases h
      exact hrest.symm
    · obtain ⟨⟨first, second⟩, hsplit, heq⟩ := Option.map_eq_some_iff.mp h
      cases heq
      rw [eq_of_splitOnce hsplit, List.cons_append]

theorem splitOnce_eq_none {pattern : List Char} : ∀ {text : List Char}, ¬pattern <:+: text →
    splitOnce pattern text = none
  | [], _ => rfl
  | c :: text, h => by
    rw [List.infix_cons_iff, not_or] at h
    rw [splitOnce, if_neg (mt List.isPrefixOf_iff_prefix.mp h.1), splitOnce_eq_none h.2]
    rfl

/-- A text is split at the first place where two unlike characters follow each other. -/
theorem splitOnce_append {a b : Char} {behind : List Char} (hne : a ≠ b) : ∀ {before : List Char},
    ¬[a, b] <:+: before → splitOnce [a, b] (before ++ ([a, b] ++ behind)) = some (before, behind)
  | [], _ => if_pos (List.isPrefixOf_iff_prefix.mpr (List.prefix_append [a, b] behind))
  | c :: before, h => by
    rw [List.infix_cons_iff, not_or] at h
    have hfirst : ¬[a, b] <+: c :: (before ++ ([a, b] ++ behind)) := fun hprefix => by
      obtain ⟨hfirst, hrest⟩ := List.cons_prefix_cons.mp hprefix
      cases before with
      | nil => exact hne (List.cons_prefix_cons.mp hrest).1.symm
      | cons d before =>
        rw [← hfirst, ← (List.cons_prefix_cons.mp hrest).1] at h
        exact h.1 (List.prefix_append [a, b] before)
    rw [List.cons_append, splitOnce, if_neg (mt List.isPrefixOf_iff_prefix.mp hfirst), splitOnce_append hne h.2]
    rfl

section Splits
variable {separator c : Char} {before text piece first : List Char} {more : List (List Char)}

theorem splitOn_cons_self (separator : Char) (text : List Char) :
    (separator :: text).splitOn separator = [] :: text.splitOn separator :=
  List.splitOn_append_cons_self_of_not_mem List.not_mem_nil text

theorem splitOn_cons_of_ne (hc : c ≠ separator) (hpieces : text.splitOn separator = first :: more) :
    (c :: text).splitOn separator = (c :: first) :: more := by
  rw [List.splitOn_cons_eq_if_modifyHead, if_neg (by simpa using hc), hpieces, List.modifyHead_cons]

theorem exists_splitOn (separator : Char) (text : List Char) : ∃ first more, text.splitOn separator = first :: more :=
  List.exists_cons_of_ne_nil (List.splitOn_ne_nil separator text)

/-- Text without a separator belongs to the first piece behind it. -/
theorem splitOn_append_of_notMem (hpieces : text.splitOn separator = first :: more) : ∀ {before : List Char},
    separator ∉ before → (before ++ text).splitOn separator = (before ++ first) :: more
  | [], _ => hpieces
  | c :: before, h => by
    rw [List.mem_cons, not_or] at h
    exact splitOn_cons_of_ne (Ne.symm h.1) (splitOn_append_of_notMem hpieces h.2)

theorem prefix_intercalate (separator piece : List Char) (more : List (List Char)) :
    piece <+: separator.intercalate (piece :: more) := by
  cases more with
  | nil => rw [List.intercalate_singleton]
  | cons next more =>
    rw [List.intercalate_cons_of_ne_nil (List.cons_ne_nil next more), List.append_assoc]
    exact List.prefix_append _ _

theorem infix_intercalate (separator : List Char) {pieces : List (List Char)} (h : piece ∈ pieces) :
    piece <:+: separator.intercalate pieces := by
  induction pieces with
  | nil => cases h
  | cons first more ih =>
    rcases List.mem_cons.mp h with rfl | h
    · exact (prefix_intercalate separator piece more).isInfix
    · rw [List.intercalate_cons_of_ne_nil (List.ne_nil_of_mem h)]
      exact (ih h).trans (List.suffix_append _ _).isInfix

theorem prefix_of_splitOn (h : text.splitOn separator = piece :: more) : piece <+: text := by
  have hprefix := prefix_intercalate [separator] piece more
  rwa [← h, List.intercalate_splitOn] at hprefix

theorem isInfix_of_mem_splitOn (h : piece ∈ text.splitOn separator) : piece <:+: text := by
  have hinfix := infix_intercalate [separator] h
  rwa [List.intercalate_splitOn] at hinfix

theorem notMem_of_mem_splitOn (h : piece ∈ text.splitOn separator) :
    separator ∉ piece := by
  induction text generalizing piece with
  | nil =>
    rw [List.splitOn_nil, List.mem_singleton] at h
    exact h ▸ List.not_mem_nil
  | cons c text ih =>
    obtain ⟨first, others, hpieces⟩ := exists_splitOn separator text
    rw [hpieces] at ih
    by_cases hc : c = separator
    · rw [hc, splitOn_cons_self, hpieces] at h
      rcases List.mem_cons.mp h with rfl | h
      · exact List.not_mem_nil
      · exact ih h
    · rw [splitOn_cons_of_ne hc hpieces] at h
      rcases List.mem_cons.mp h with rfl | h
      · exact fun hmem => (List.mem_cons.mp hmem).elim (Ne.symm hc) (ih List.mem_cons_self)
      · exact ih (List.mem_cons_of_mem first h)

theorem length_splitOn (separator : Char) : ∀ text : List Char,
    (text.splitOn separator).length = text.count separator + 1
  | [] => rfl
  | c :: text => by
    have ih := length_splitOn separator text
    obtain ⟨first, more, hpieces⟩ := exists_splitOn separator text
    by_cases hc : c = separator
    · rw [hc, splitOn_cons_self, List.length_cons, ih, List.count_cons_self]
    · rw [List.count_cons_of_ne hc, ← ih, splitOn_cons_of_ne hc hpieces, hpieces]
      rfl

theorem length_flatten_splitOn (separator : Char) : ∀ text : List Char,
    (text.splitOn separator).flatten.length + text.count separator = text.length
  | [] => rfl
  | c :: text => by
    have ih := length_flatten_splitOn separator text
    obtain ⟨first, more, hpieces⟩ := exists_splitOn separator text
    by_cases hc : c = separator
    · rw [hc, splitOn_cons_self, List.flatten_cons, List.nil_append, List.count_cons_self, ← Nat.add_assoc, ih]
      rfl
    · rw [hpieces] at ih
      rw [List.count_cons_of_ne hc, splitOn_cons_of_ne hc hpieces, List.length_cons, ← ih, List.flatten_cons,
        List.flatten_cons, List.cons_append, List.length_cons, Nat.add_right_comm]

end Splits

end DrillCode.Text
