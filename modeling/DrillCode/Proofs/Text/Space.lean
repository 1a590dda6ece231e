import DrillCode.Text.Space
import Mathlib.Data.List.TakeWhile

/-! # Text without white space at its ends

Trimming takes white space only, so a text that shows something keeps what it shows. What is trimmed stays as it
is when it is trimmed again. -/

namespace DrillCode.Text

theorem mem_trimStart {c : Char} {text : List Char} (hc : c ∈ text) (hs : isSpace c = false) :
    c ∈ trimStart text := by
  rw [← List.takeWhile_append_dropWhile (p := isSpace) (l := text), List.mem_append] at hc
  rcases hc with hc | hc
  · rw [List.all_eq_true.mp List.all_takeWhile c hc] at hs
    cases hs
  · exact hc

theorem mem_trimEnd {c : Char} {text : List Char} (hc : c ∈ text) (hs : isSpace c = false) :
    c ∈ trimEnd text :=
  List.mem_reverse.mpr (mem_trimStart (List.mem_reverse.mpr hc) hs)

/-! ### At the start -/

theorem trimStart_eq_self {text : List Char} (h : ∀ c, text.head? = some c → isSpace c = false) :
    trimStart text = text := by
  cases text with
  | nil => rfl
  | cons c text =>
    rw [trimStart, List.dropWhile_cons, h c rfl]
    rfl

theorem trimStart_append {spaces text : List Char} (h : ∀ c ∈ spaces, isSpace c = true) :
    trimStart (spaces ++ text) = trimStart text :=
  List.dropWhile_append_of_pos h

theorem head?_trimStart {text : List Char} {c : Char} (h : (trimStart text).head? = some c) : isSpace c = false := by
  have hhead := List.head?_dropWhile_not isSpace text
  rw [show List.dropWhile isSpace text = trimStart text from rfl, h] at hhead
  exact hhead

theorem trimStart_trimStart (text : List Char) : trimStart (trimStart text) = trimStart text :=
  trimStart_eq_self fun _ => head?_trimStart

/-! ### At the end -/

theorem trimEnd_spaces {spaces : List Char} (h : ∀ c ∈ spaces, isSpace c = true) : trimEnd spaces = [] := by
  rw [trimEnd, List.dropWhile_eq_nil_iff.mpr fun c hc => h c (List.mem_reverse.mp hc)]
  rfl

/-- Nothing is taken from what stands in front of a character that is not white space. -/
theorem trimEnd_append {c : Char} (hc : isSpace c = false) (before behind : List Char) :
    trimEnd (before ++ c :: behind) = before ++ c :: trimEnd behind := by
  have hstop : (c :: before.reverse).dropWhile isSpace = c :: before.reverse := trimStart_eq_self fun x hx =>
    Option.some.inj hx ▸ hc
  have hdrop : (behind.reverse ++ c :: before.reverse).dropWhile isSpace =
      behind.reverse.dropWhile isSpace ++ c :: before.reverse := by
    rw [List.dropWhile_append, hstop]
    split
    · next hempty => rw [List.isEmpty_iff.mp hempty, List.nil_append]
    · rfl
  rw [trimEnd, trimEnd, List.reverse_append, List.reverse_cons, List.append_assoc, List.singleton_append, hdrop,
    List.reverse_append, List.reverse_cons, List.reverse_reverse, List.append_assoc, List.singleton_append]

/-- Only the end of a text that shows something is trimmed. -/
theorem trimEnd_append_of_exists {text : List Char} (h : ∃ c ∈ text, isSpace c = false) (before : List Char) :
    trimEnd (before ++ text) = before ++ trimEnd text := by
  obtain ⟨c, hc, hs⟩ := h
  obtain ⟨front, behind, rfl⟩ := List.append_of_mem hc
  rw [← List.append_assoc, trimEnd_append hs, trimEnd_append hs, List.append_assoc]

theorem trimEnd_trimEnd (text : List Char) : trimEnd (trimEnd text) = trimEnd text := by
  have h := trimStart_trimStart text.reverse
  rw [trimEnd, trimEnd, List.reverse_reverse]
  exact congrArg List.reverse h

theorem trimEnd_isPrefix (text : List Char) : trimEnd text <+: text :=
  List.reverse_suffix.mp (by
    rw [trimEnd, List.reverse_reverse]
    exact List.dropWhile_suffix isSpace)

/-! ### At both ends -/

/-- Trimming the start leaves the end as it is. -/
theorem trimEnd_trimStart {text : List Char} (hshows : ∃ c ∈ text, isSpace c = false) (h : trimEnd text = text) :
    trimEnd (trimStart text) = trimStart text := by
  obtain ⟨c, hc, hs⟩ := hshows
  have hsplit : text.takeWhile isSpace ++ trimStart text = text := List.takeWhile_append_dropWhile
  have htrim := trimEnd_append_of_exists ⟨c, mem_trimStart hc hs, hs⟩ (text.takeWhile isSpace)
  rw [hsplit, h] at htrim
  exact List.append_cancel_left (htrim.symm.trans hsplit.symm)

theorem trimStart_trim (text : List Char) : trimStart (trim text) = trim text := trimStart_eq_self fun c hc => by
  obtain ⟨rest, hrest⟩ := trimEnd_isPrefix (trimStart text)
  refine @head?_trimStart text c ?_
  rw [← hrest, List.head?_append, show (trimEnd (trimStart text)).head? = some c from hc]
  rfl

theorem trimEnd_trim (text : List Char) : trimEnd (trim text) = trim text := trimEnd_trimEnd (trimStart text)

theorem trim_trim (text : List Char) : trim (trim text) = trim text := by
  rw [trim, trimStart_trim, trimEnd_trim]

theorem trim_isInfix (text : List Char) : trim text <:+: text := by
  have hstart : trimStart text <:+ text := List.dropWhile_suffix isSpace
  exact (trimEnd_isPrefix _).isInfix.trans hstart.isInfix

theorem trim_ne_nil {text : List Char} (h : ∃ c ∈ text, isSpace c = false) : trim text ≠ [] := by
  obtain ⟨c, hc, hs⟩ := h
  exact List.ne_nil_of_mem (mem_trimEnd (mem_trimStart hc hs) hs)

/-- What is left shows something. -/
theorem exists_of_trim_ne_nil {text : List Char} (h : trim text ≠ []) : ∃ c ∈ trim text, isSpace c = false := by
  obtain ⟨c, rest, htrim⟩ := List.exists_cons_of_ne_nil h
  have hstart := trimStart_trim text
  refine ⟨c, htrim ▸ List.mem_cons_self, @head?_trimStart (trim text) c ?_⟩
  rw [hstart, htrim]
  rfl

end DrillCode.Text
