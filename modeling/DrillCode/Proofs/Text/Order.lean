import DrillCode.Proofs.Text.Replace

/-! # Patterns that are replaced in any order

Two patterns keep apart if neither occurs in the other and no end of one is a start of the other. Then no occurrence of
one overlaps an occurrence of the other, and if the values share no character with the patterns, what was put in makes
no new occurrences. So it does not matter which pattern is replaced first. A pattern may well overlap itself. -/

namespace DrillCode.Text

/-- No occurrence of `b` starts inside an occurrence of `a`, whatever follows. -/
structure Clear (a b : List Char) : Prop where
  notInfix : ¬b <:+: a
  notStart : ∀ rest, rest ≠ [] → rest <:+ a → ¬rest <+: b

variable {a b v w : List Char}

/-- Replacing a pattern passes over what is clear of it. -/
theorem Clear.replace_append (h : Clear a b) (hb : b ≠ []) (text : List Char) :
    replace b w (a ++ text) = a ++ replace b w text := by
  obtain ⟨p, ps, rfl⟩ := List.exists_cons_of_ne_nil hb
  have hsuffix : ∀ rest, rest <:+ a → replaceFrom p ps w (rest ++ text) = rest ++ replaceFrom p ps w text := by
    intro rest hrest
    induction rest with
    | nil => rfl
    | cons c rest ih =>
      have hnot : ¬p :: ps <+: c :: (rest ++ text) := fun hprefix => by
        rcases List.prefix_or_prefix_of_prefix hprefix (List.prefix_append (c :: rest) text) with hinside | hstart
        · exact h.notInfix (hinside.isInfix.trans hrest.isInfix)
        · exact h.notStart _ (List.cons_ne_nil c rest) hrest hstart
      rw [List.cons_append, replaceFrom_cons hnot, ih ((List.suffix_cons c rest).trans hrest), List.cons_append]
  exact hsuffix a List.suffix_rfl

/-- A word that shares no character with the value starts the result only where it starts the text. -/
theorem prefix_of_prefix_replace {word text : List Char} (ha : a ≠ []) (hv : v ≠ []) (hapart : ∀ c ∈ v, c ∉ word)
    (h : word <+: replace a v text) : word <+: text := by
  have hreplaced := @replace_replaced a v ha text
  generalize replace a v text = result at h hreplaced
  cases hreplaced with
  | last => exact h
  | @next gap text result =>
    have hgap : word <+: gap := prefix_of_prefix_append h fun c hc => by
      obtain ⟨d, v, rfl⟩ := List.exists_cons_of_ne_nil hv
      exact Option.some.inj hc ▸ hapart d List.mem_cons_self
    exact hgap.trans (List.prefix_append gap _)

theorem replace_found (ha : a ≠ []) (text : List Char) : replace a v (a ++ text) = v ++ replace a v text := by
  obtain ⟨p, ps, rfl⟩ := List.exists_cons_of_ne_nil ha
  exact replaceFrom_append

theorem replace_cons {c : Char} {text : List Char} (h : ¬a <+: c :: text) :
    replace a v (c :: text) = c :: replace a v text := by
  cases a with
  | nil => rfl
  | cons p ps => exact replaceFrom_cons h

/-- The patterns keep apart, and no value shares a character with a pattern. -/
structure Independent (entries : List (List Char × List Char)) : Prop where
  pattern : ∀ x ∈ entries, x.1 ≠ []
  value : ∀ x ∈ entries, x.2 ≠ []
  apart : ∀ x ∈ entries, ∀ y ∈ entries, ∀ c ∈ x.2, c ∉ y.1
  clear : ∀ x ∈ entries, ∀ y ∈ entries, x ≠ y → Clear x.1 y.1

namespace Independent
variable {entries : List (List Char × List Char)} {x y : List Char × List Char}

/-- An occurrence at the front is replaced first or last. -/
theorem comm_found (h : Independent entries) (hx : x ∈ entries) (hy : y ∈ entries) (hne : x ≠ y) {rest : List Char}
    (hrest : replace x.1 x.2 (replace y.1 y.2 rest) = replace y.1 y.2 (replace x.1 x.2 rest)) :
    replace x.1 x.2 (replace y.1 y.2 (x.1 ++ rest)) = replace y.1 y.2 (replace x.1 x.2 (x.1 ++ rest)) := by
  have hrun : ∀ c ∈ x.2, y.1.head? ≠ some c := fun c hc hhead =>
    h.apart x hx y hy c hc (List.mem_of_mem_head? hhead)
  calc replace x.1 x.2 (replace y.1 y.2 (x.1 ++ rest))
    _ = replace x.1 x.2 (x.1 ++ replace y.1 y.2 rest) := by
      rw [(h.clear x hx y hy hne).replace_append (h.pattern y hy)]
    _ = x.2 ++ replace y.1 y.2 (replace x.1 x.2 rest) := by rw [replace_found (h.pattern x hx), hrest]
    _ = replace y.1 y.2 (x.2 ++ replace x.1 x.2 rest) := (replace_run hrun).symm
    _ = replace y.1 y.2 (replace x.1 x.2 (x.1 ++ rest)) := by rw [replace_found (h.pattern x hx)]

/-- What was put in starts no occurrence of another pattern in front of it. -/
theorem not_prefix_cons (h : Independent entries) (hx : x ∈ entries) (hy : y ∈ entries) {c : Char} {text : List Char}
    (hnot : ¬y.1 <+: c :: text) : ¬y.1 <+: c :: replace x.1 x.2 text := fun hprefix => by
  obtain ⟨d, word, hword⟩ := List.exists_cons_of_ne_nil (h.pattern y hy)
  have hapart : ∀ e ∈ x.2, e ∉ word := fun e he hmem =>
    h.apart x hx y hy e he (hword ▸ List.mem_cons_of_mem d hmem)
  rw [hword, List.cons_prefix_cons] at hprefix
  obtain ⟨hfirst, hrest⟩ := hprefix
  refine hnot (hword ▸ List.cons_prefix_cons.mpr ⟨hfirst, ?_⟩)
  exact prefix_of_prefix_replace (h.pattern x hx) (h.value x hx) hapart hrest

theorem length_lt (h : Independent entries) (hx : x ∈ entries) {rest text : List Char} (htext : x.1 ++ rest = text) :
    rest.length < text.length := by
  have hpattern := List.length_pos_of_ne_nil (h.pattern x hx)
  rw [← htext, List.length_append]
  omega

/-- Recursion on the text: one of the patterns stands at its front, or the first character stays. -/
theorem replace_comm (h : Independent entries) (hx : x ∈ entries) (hy : y ∈ entries) (text : List Char) :
    replace x.1 x.2 (replace y.1 y.2 text) = replace y.1 y.2 (replace x.1 x.2 text) := by
  by_cases hne : x = y
  · rw [hne]
  by_cases hfirst : x.1 <+: text
  · obtain ⟨rest, htext⟩ := hfirst
    have hshorter := h.length_lt hx htext
    exact htext ▸ h.comm_found hx hy hne (h.replace_comm hx hy rest)
  by_cases hsecond : y.1 <+: text
  · obtain ⟨rest, htext⟩ := hsecond
    have hshorter := h.length_lt hy htext
    exact htext ▸ (h.comm_found hy hx (Ne.symm hne) (h.replace_comm hx hy rest).symm).symm
  cases text with
  | nil => rw [replace_nil, replace_nil, replace_nil]
  | cons c text =>
    rw [replace_cons hsecond, replace_cons (h.not_prefix_cons hy hx hfirst), replace_cons hfirst,
      replace_cons (h.not_prefix_cons hx hy hsecond), h.replace_comm hx hy text]
termination_by text.length

/-- Independent patterns may be replaced in any order. -/
theorem replaceAll_perm (h : Independent entries) {others : List (List Char × List Char)} (hperm : others.Perm entries)
    (text : List Char) : replaceAll others text = replaceAll entries text :=
  hperm.foldl_eq' (fun _ hx _ hy text => h.replace_comm (hperm.subset hy) (hperm.subset hx) text) text

end Independent
end DrillCode.Text
