import DrillCode.Proofs.Practice.Template
import DrillCode.Proofs.Text.Order
import Mathlib.Data.List.Nodup

/-! # Variables in any order

Values are written with digits and a minus sign. Where the names of variables have neither, and no two of them overlap,
the order in which they are replaced makes no difference, and a text in which they were replaced holds none of them. -/

namespace DrillCode
namespace Template

/-- The names can be told from values and from each other: none is part of another one, and no proper end of one is
    a start of another one. -/
structure Separate (keys : List String) : Prop where
  nonempty : ∀ key ∈ keys, key.toList ≠ []
  plain : ∀ key ∈ keys, ∀ c ∈ key.toList, c.isDigit = false ∧ c ≠ '-'
  notWithin : ∀ a ∈ keys, ∀ b ∈ keys, a ≠ b → ¬b.toList <:+: a.toList
  notAcross : ∀ a ∈ keys, ∀ b ∈ keys, a ≠ b → ∀ rest, rest ≠ [] → rest <:+ a.toList → rest ≠ a.toList →
    ¬rest <+: b.toList

-- The characters of a key are tested by a Boolean: a `∀` over characters could be decided for all of them.
instance (keys : List String) : Decidable (Separate keys) :=
  decidable_of_iff ((∀ key ∈ keys, key.toList ≠ []) ∧
      (∀ key ∈ keys, key.toList.all (fun c => decide (c.isDigit = false ∧ c ≠ '-')) = true) ∧
      (∀ a ∈ keys, ∀ b ∈ keys, a ≠ b → ¬b.toList <:+: a.toList) ∧
      ∀ a ∈ keys, ∀ b ∈ keys, a ≠ b → ∀ rest ∈ a.toList.tails, rest ≠ [] → rest ≠ a.toList → ¬rest <+: b.toList)
    ⟨fun ⟨hne, hplain, hwithin, hacross⟩ =>
      ⟨hne, fun key hkey c hc => of_decide_eq_true (List.all_eq_true.mp (hplain key hkey) c hc), hwithin,
        fun a ha b hb hab rest hrest hsuffix => hacross a ha b hb hab rest ((List.mem_tails rest _).mpr hsuffix) hrest⟩,
    fun h => ⟨h.nonempty, fun key hkey => List.all_eq_true.mpr fun c hc => decide_eq_true (h.plain key hkey c hc),
      h.notWithin, fun a ha b hb hab rest htails hrest =>
        h.notAcross a ha b hb hab rest hrest ((List.mem_tails rest _).mp htails)⟩⟩

variable {values : Variables}

theorem Separate.notMem {keys : List String} (h : Separate keys) {key : String} (hkey : key ∈ keys) (value : Int64) :
    ∀ c ∈ valueText value, c ∉ key.toList := fun c hc hmem => by
  obtain ⟨hdigit, hminus⟩ := h.plain key hkey c hmem
  rcases mem_valueText hc with rfl | hc
  · exact hminus rfl
  · rw [hdigit] at hc
    cases hc

theorem Separate.clear {keys : List String} (h : Separate keys) {a b : String} (ha : a ∈ keys) (hb : b ∈ keys)
    (hab : a ≠ b) : Text.Clear a.toList b.toList where
  notInfix := h.notWithin a ha b hb hab
  notStart rest hne hrest hprefix := by
    by_cases hwhole : rest = a.toList
    · exact h.notWithin b hb a ha (Ne.symm hab) (hwhole ▸ hprefix.isInfix)
    · exact h.notAcross a ha b hb hab rest hne hrest hwhole hprefix

theorem Separate.independent (h : Separate values.keys) : Text.Independent (patterns values) where
  pattern x hx := by
    obtain ⟨key, hkey, value, rfl⟩ := mem_patterns hx
    exact h.nonempty key hkey
  value x hx := by
    obtain ⟨key, -, value, rfl⟩ := mem_patterns hx
    exact valueText_ne_nil value
  apart x hx y hy := by
    obtain ⟨-, -, value, rfl⟩ := mem_patterns hx
    obtain ⟨key, hkey, -, rfl⟩ := mem_patterns hy
    exact h.notMem hkey value
  clear x hx y hy hne := by
    obtain ⟨first, hfirst, rfl⟩ := List.mem_map.mp hx
    obtain ⟨second, hsecond, rfl⟩ := List.mem_map.mp hy
    refine h.clear (List.mem_map_of_mem hfirst) (List.mem_map_of_mem hsecond) fun hkeys => hne ?_
    -- A name has one value only.
    rw [List.inj_on_of_nodup_map values.nodup hfirst hsecond hkeys]

/-- The order of the variables makes no difference, and once they were replaced, replacing them again changes nothing,
    whatever their values are then. -/
theorem substituteVariables_order (h : Separate values.keys) (text : List Char) :
    (∀ others : Variables, others.entries.Perm values.entries →
      substituteVariables others text = substituteVariables values text) ∧
    ∀ others : Variables, others.keys ⊆ values.keys →
      substituteVariables others (substituteVariables values text) = substituteVariables values text := by
  refine ⟨fun others hperm => ?_, fun others hkeys => substituteVariables_of_free fun key hkey hinfix => ?_⟩
  · rw [substituteVariables_eq, substituteVariables_eq]
    exact h.independent.replaceAll_perm (hperm.map _) text
  · exact absurd hinfix
      (not_infix_substituteVariables (hkeys hkey) (h.nonempty key (hkeys hkey)) (h.plain key (hkeys hkey)) text)

/-- A name that overlaps itself, beside one that contains none of its letters. -/
def separateSample : Variables := .ofList [("aa", -5), ("xy", 70)]

theorem substituteVariables_order_separateSample :
    Separate separateSample.keys ∧ (OrderedMap.ofList [("xy", 70), ("aa", -5)]).entries.Perm separateSample.entries ∧
      substituteVariables (.ofList [("xy", 70), ("aa", -5)]) "xyaaa-xaaxy".toList = "70-5a-x-570".toList ∧
      substituteVariables (.ofList [("aa", 1)]) (substituteVariables separateSample "xyaaa-xaaxy".toList) =
        "70-5a-x-570".toList := by
  have hseparate : Separate separateSample.keys := by decide
  have hperm : (OrderedMap.ofList [("xy", (70 : Int64)), ("aa", -5)]).entries.Perm separateSample.entries := .swap _ _ _
  have htext : substituteVariables separateSample "xyaaa-xaaxy".toList = "70-5a-x-570".toList := by decide +kernel
  obtain ⟨horder, hagain⟩ := substituteVariables_order hseparate "xyaaa-xaaxy".toList
  exact ⟨hseparate, hperm, (horder _ hperm).trans htext, (hagain _ (by decide)).trans htext⟩

end Template
end DrillCode
