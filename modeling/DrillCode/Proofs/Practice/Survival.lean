import DrillCode.Proofs.Formula.Loads
import DrillCode.Proofs.Practice.History
import DrillCode.Proofs.Practice.Template

/-! # Problems survive rerolls

The expression of a problem has values in the places of its variables. Where no variable's name has a digit or a
minus sign, no name is found in the expression again, so later values have no place in it: an answer is compared
with the same number whatever is asked of the session in between. -/

namespace DrillCode.Session
variable {s t : Session}

/-- An expression in which no variable is found is tried alike whatever the values of the variables are. -/
theorem trial_congr {math : String} (hsettings : t.settings = s.settings) (hkeys : t.values.keys = s.values.keys)
    (hfree : ∀ key ∈ s.values.keys, key.toList <:+: math.toList → key.toList = []) : t.trial math = s.trial math := by
  have hs := Template.substituteVariables_of_free hfree
  have ht := Template.substituteVariables_of_free (hkeys ▸ hfree)
  rw [trial, trial, hs, ht, String.ofList_toList, hsettings]
  cases hcompile : Formula.compile math with
  | error e => rfl
  | ok program =>
    refine congrArg (Trial.ran program) (Formula.execute_congr hcompile fun name hname => ?_)
    -- A variable that the program reads stands in the text, so no generator names it.
    have hnot : name ∉ s.values.keys := fun hkey => hname.1 (hfree name hkey hname.2)
    rw [bindings, bindings, OrderedMap.get?_mapValues, OrderedMap.get?_mapValues,
      OrderedMap.get?_eq_none_iff.mpr hnot, OrderedMap.get?_eq_none_iff.mpr (hkeys ▸ hnot)]

/-- No variable is found in the expression of a problem. -/
theorem Makes.math_free {p : Problem} (h : s.Makes p)
    (hnames : ∀ name ∈ s.contents.generators.keys, ∀ c ∈ name.toList, c.isDigit = false ∧ c ≠ '-') :
    ∀ key ∈ s.values.keys, key.toList <:+: p.math.toList → key.toList = [] := by
  obtain ⟨hdrawn, e, -, id, rfl⟩ := h
  intro key hkey hinfix
  by_contra hne
  have hprocessed := hinfix.trans (Prompt.math_isInfix _)
  exact Template.not_infix_substituteVariables hkey hne (hnames key (hdrawn ▸ hkey)) _ hprocessed

theorem verify_congr {p : Problem} {answer : Float} (h : t.trial p.math = s.trial p.math)
    (hsettings : t.settings = s.settings) : t.verify answer p = s.verify answer p := by
  rw [verify, verify, verifyExpression, verifyExpression, test, test, h, hsettings]

/-- Where the names of generators have no digits and no minus signs, each problem that an operation makes is answered
    after any further operations as it is right after it was made. -/
theorem verify_survives (s : Session)
    (hnames : ∀ name ∈ s.contents.generators.keys, ∀ c ∈ name.toList, c.isDigit = false ∧ c ≠ '-')
    (operation : Operation) (words : WordSupply) :
    let after := (s.perform operation words).1.1
    ∀ p ∈ (s.perform operation words).1.2.made, ∀ (history : List (Operation × WordSupply)),
      ∀ later ∈ after.course history, ∀ answer, later.verify answer p = after.verify answer p := by
  intro after p hp history later hlater answer
  have hmakes : after.Makes p := s.perform_makes operation words p hp
  have hafter : s.Keeps after := s.perform_keeps operation words
  have hkeeps : after.Keeps later := course_keeps history hlater
  have hkeys : later.values.keys = after.values.keys := calc
    later.values.keys = later.contents.generators.keys := hkeeps.drawn hmakes.drawn
    _ = after.contents.generators.keys := by rw [hkeeps.contents]
    _ = after.values.keys := hmakes.drawn.symm
  have hfree := hmakes.math_free (hafter.contents ▸ hnames)
  exact verify_congr (trial_congr hkeeps.settings hkeys hfree) hkeeps.settings

/-- A session with one exercise, whose left side has a variable. -/
def sumSample : Session where
  contents :=
    { labels := .ofList [(.plus, "Add")]
      generators := .ofList [("a", ⟨2, 5⟩)]
      solutions := []
      exercises := [⟨"plus: a + 1 = c", [.plus]⟩] }
  settings := .standard
  values := .empty

theorem verify_survives_sumSample :
    (∀ name ∈ sumSample.contents.generators.keys, ∀ c ∈ name.toList, c.isDigit = false ∧ c ≠ '-') ∧
      let after := (sumSample.perform (.newProblems [.plus]) ⟨[0], 0⟩).1.1
      let later := (after.perform .reroll ⟨[0xC000000000000000], 0⟩).1.1
      after.values.get? "a" = some 2 ∧ later.values.get? "a" = some 5 ∧
        ∃ p ∈ (sumSample.perform (.newProblems [.plus]) ⟨[0], 0⟩).1.2.made, p.math = "2 + 1" ∧
          ∀ answer, later.verify answer p = after.verify answer p := by
  have hnames : ∀ name ∈ sumSample.contents.generators.keys, ∀ c ∈ name.toList, c.isDigit = false ∧ c ≠ '-' := by
    have hkeys : sumSample.contents.generators.keys = ["a"] := rfl
    rw [hkeys]
    simp
  have hmade : (sumSample.perform (.newProblems [.plus]) ⟨[0], 0⟩).1.2.made.map Problem.math = ["2 + 1"] := by
    decide +kernel
  obtain ⟨p, hp, hmath⟩ := List.mem_map.mp (hmade ▸ List.mem_singleton_self "2 + 1")
  have hsurvives := verify_survives sumSample hnames (.newProblems [.plus]) ⟨[0], 0⟩ p hp
    [(.reroll, ⟨[0xC000000000000000], 0⟩)]
  exact ⟨hnames, by decide +kernel, by decide +kernel, p, hp, hmath,
    hsurvives _ (List.mem_cons_of_mem _ List.mem_cons_self)⟩

end DrillCode.Session
