import DrillCode.Practice.Template
import DrillCode.Proofs.Number.Whole
import DrillCode.Proofs.OrderedMap
import DrillCode.Proofs.Text.Replace
import DrillCode.Proofs.Text.Space

/-! # What substitution leaves

Labels and variables are replaced one after the other. A value is written with digits and a minus sign, so the
names that have neither are nowhere found in a text where they were replaced. -/

namespace DrillCode

namespace Template

/-! ### Values -/

theorem valueText_eq (value : Int64) :
    valueText value =
      if value.toInt < 0 then '-' :: Nat.toDigits 10 value.toInt.natAbs else Nat.toDigits 10 value.toInt.natAbs :=
  Whole.toList_toString value.toInt

theorem valueText_ne_nil (value : Int64) : valueText value ≠ [] := by
  rw [valueText_eq]
  split
  · exact List.cons_ne_nil _ _
  · exact Nat.toDigits_ne_nil

theorem mem_valueText {value : Int64} {c : Char} (h : c ∈ valueText value) : c = '-' ∨ c.isDigit = true :=
  Whole.mem_toString h

/-! ### One entry after the other -/

/-- The patterns of variables, with the values in their places. -/
def patterns (values : Variables) : List (List Char × List Char) :=
  values.entries.map fun entry => (entry.1.toList, valueText entry.2)

theorem substituteVariables_eq (values : Variables) (text : List Char) :
    substituteVariables values text = Text.replaceAll (patterns values) text := by
  rw [Text.replaceAll, patterns, List.foldl_map, substituteVariables]

theorem substituteLabels_eq (labels : OrderedMap Tag String) (text : List Char) :
    substituteLabels labels text =
      Text.replaceAll (labels.entries.map fun entry => (entry.1.placeholder.toList, entry.2.toList)) text := by
  rw [Text.replaceAll, List.foldl_map, substituteLabels]

section Variables
variable {values : Variables} {text : List Char}

theorem mem_patterns {entry : List Char × List Char} (h : entry ∈ patterns values) :
    ∃ key ∈ values.keys, ∃ value, entry = (key.toList, valueText value) := by
  obtain ⟨⟨key, value⟩, hmem, rfl⟩ := List.mem_map.mp h
  exact ⟨key, List.mem_map_of_mem hmem, value, rfl⟩

theorem substituteVariables_append {separator : List Char} (hne : separator ≠ [])
    (h : ∀ key ∈ values.keys, ∀ c ∈ separator, c ∉ key.toList) (before behind : List Char) :
    substituteVariables values (before ++ (separator ++ behind)) =
      substituteVariables values before ++ (separator ++ substituteVariables values behind) := by
  simp only [substituteVariables_eq]
  refine Text.replaceAll_append hne (fun entry hentry => ?_) before behind
  obtain ⟨key, hkey, value, rfl⟩ := mem_patterns hentry
  exact h key hkey

theorem substituteVariables_of_free (h : ∀ key ∈ values.keys, key.toList <:+: text → key.toList = []) :
    substituteVariables values text = text := by
  rw [substituteVariables_eq]
  refine Text.replaceAll_of_free fun entry hentry => ?_
  obtain ⟨key, hkey, value, rfl⟩ := mem_patterns hentry
  exact h key hkey

/-- A name without digits and minus signs is not left. -/
theorem not_infix_substituteVariables {key : String} (hmem : key ∈ values.keys) (hkey : key.toList ≠ [])
    (h : ∀ c ∈ key.toList, c.isDigit = false ∧ c ≠ '-') (text : List Char) :
    ¬key.toList <:+: substituteVariables values text := by
  rw [substituteVariables_eq]
  obtain ⟨⟨key, value⟩, hentry, rfl⟩ := List.mem_map.mp hmem
  refine Text.not_infix_replaceAll hkey (fun entry hentry => ?_)
    (List.mem_map_of_mem (f := Prod.fst) (List.mem_map_of_mem hentry)) text
  obtain ⟨-, -, value, rfl⟩ := mem_patterns hentry
  refine ⟨valueText_ne_nil value, fun c hc hmem => ?_⟩
  obtain ⟨hdigit, hminus⟩ := h c hmem
  rcases mem_valueText hc with rfl | hc
  · exact hminus rfl
  · rw [hdigit] at hc
    cases hc

/-- A character that no variable and no value has stays as often as it was. -/
theorem count_substituteVariables {c : Char} (hkeys : ∀ key ∈ values.keys, c ∉ key.toList)
    (hdigit : c.isDigit = false) (hminus : c ≠ '-') (text : List Char) :
    (substituteVariables values text).count c = text.count c := by
  rw [substituteVariables_eq]
  refine Text.count_replaceAll (fun entry hentry => ?_) text
  obtain ⟨key, hkey, value, rfl⟩ := mem_patterns hentry
  refine ⟨hkeys key hkey, fun hc => ?_⟩
  rcases mem_valueText hc with rfl | hc
  · exact hminus rfl
  · rw [hdigit] at hc
    cases hc

end Variables

/-! ### Labels -/

theorem substituteLabels_append {labels : OrderedMap Tag String} {separator : List Char} (hne : separator ≠ [])
    (h : ∀ tag : Tag, ∀ c ∈ separator, c ∉ tag.placeholder.toList) (before behind : List Char) :
    substituteLabels labels (before ++ (separator ++ behind)) =
      substituteLabels labels before ++ (separator ++ substituteLabels labels behind) := by
  simp only [substituteLabels_eq]
  refine Text.replaceAll_append hne (fun entry hentry => ?_) before behind
  obtain ⟨⟨tag, label⟩, -, rfl⟩ := List.mem_map.mp hentry
  exact h tag

theorem substituteLabels_of_free {labels : OrderedMap Tag String} {text : List Char}
    (h : ∀ tag ∈ labels.keys, ¬tag.placeholder.toList <:+: text) : substituteLabels labels text = text := by
  rw [substituteLabels_eq]
  refine Text.replaceAll_of_free fun entry hentry => ?_
  obtain ⟨⟨tag, label⟩, hmem, rfl⟩ := List.mem_map.mp hentry
  exact fun hinfix => absurd hinfix (h tag (List.mem_map_of_mem hmem))

/-! ### Prompts -/

theorem leftSide?_isInfix {text left : List Char} (h : leftSide? text = some left) : left <:+: text := by
  rw [leftSide?] at h
  split at h
  · next piece other hpieces =>
    cases h
    exact (Text.trim_isInfix piece).trans (Text.prefix_of_splitOn hpieces).isInfix
  · cases h

theorem notMem_of_leftSide? {text left : List Char} (h : leftSide? text = some left) : '=' ∉ left := by
  rw [leftSide?] at h
  split at h
  · next piece other hpieces =>
    cases h
    have hpiece : '=' ∉ piece := Text.notMem_of_mem_splitOn (hpieces ▸ List.mem_cons_self)
    exact fun hmem => hpiece ((Text.trim_isInfix piece).subset hmem)
  · cases h

theorem count_of_leftSide?_eq_none {text : List Char} (h : leftSide? text = none) : text.count '=' ≠ 1 := fun hcount => by
  have hlength := Text.length_splitOn '=' text
  rw [hcount] at hlength
  obtain ⟨left, right, hpieces⟩ := List.length_eq_two.mp hlength
  rw [leftSide?, hpieces] at h
  cases h

end Template

/-- What is computed is found in the text as it stands there. -/
theorem Prompt.math_isInfix (text : List Char) : (ofText text).math.toList <:+: text := by
  rw [ofText]
  split
  · next question rest hsplit =>
    have hrest : rest <:+: text := by
      rw [Text.eq_of_splitOnce hsplit, ← List.append_assoc]
      exact (List.suffix_append _ rest).isInfix
    split
    · next left hleft =>
      rw [String.toList_ofList]
      exact (Template.leftSide?_isInfix hleft).trans hrest
    · rw [String.toList_ofList]
      exact hrest
  · split
    · next left hleft =>
      rw [String.toList_ofList]
      exact Template.leftSide?_isInfix hleft
    · rw [String.toList_ofList]

/-- What is computed is no equation: of two sides only the left one is left. -/
theorem Prompt.count_math (text : List Char) : (ofText text).math.toList.count '=' ≠ 1 := by
  have hleft : ∀ {left : List Char}, '=' ∉ left → left.count '=' ≠ 1 := fun h => by
    rw [List.count_eq_zero.mpr h]
    exact Nat.zero_ne_one
  rw [ofText]
  split
  · split
    · next left h =>
      rw [String.toList_ofList]
      exact hleft (Template.notMem_of_leftSide? h)
    · next h =>
      rw [String.toList_ofList]
      exact Template.count_of_leftSide?_eq_none h
  · split
    · next left h =>
      rw [String.toList_ofList]
      exact hleft (Template.notMem_of_leftSide? h)
    · next h =>
      rw [String.toList_ofList]
      exact Template.count_of_leftSide?_eq_none h

end DrillCode
