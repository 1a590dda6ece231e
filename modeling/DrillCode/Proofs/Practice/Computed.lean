import DrillCode.Proofs.Formula.Sides
import DrillCode.Proofs.Practice.Posed

/-! # Only expressions are computed

Of a text with one equals sign only the left side is computed. So the expression of a problem has no equals sign or
several of them, whatever its template and the labels are, and values add none as long as no variable's name has one.
Later values fit as well: an answer is compared with a number, or there is a reason why there is none. -/

namespace DrillCode

/-- The program of an expression comes to a number or fails. -/
theorem Program.exists_result {p : Program} (h : p.isEquation = false) (settings : MachineSettings)
    (bindings : Bindings) : (∃ value, (p.execute settings bindings).result = .ok (.expression value)) ∨
      ∃ fault, (p.execute settings bindings).result = .error fault := by
  rw [execute]
  cases (p.run settings bindings).fault with
  | some fault => exact .inr ⟨fault, rfl⟩
  | none =>
    dsimp only
    rw [evaluation, if_neg (by rw [h]; exact Bool.false_ne_true)]
    exact .inl ⟨_, rfl⟩

namespace Session
variable {s : Session} {math : String}

/-- The text that is compiled for an expression. -/
def filled (s : Session) (math : String) : String :=
  String.ofList (Template.substituteVariables s.values math.toList)

/-- What computing an expression comes to: a number, or why there is none. -/
inductive Finds (s : Session) (math : String) : (found : Except String Float) → Prop
  | value {program : Program} {value : Float} (compiles : Formula.compile (s.filled math) = .ok program)
      (plain : program.isEquation = false)
      (result : (program.execute s.settings.machine s.bindings).result = .ok (.expression value)) :
      Finds s math (.ok value)
  | malformed (many : 2 ≤ (s.filled math).toList.count '=') :
      Finds s math (.error (SessionError.compile (.malformedEquation (s.filled math))).message)
  | fault {program : Program} {fault : Fault} (compiles : Formula.compile (s.filled math) = .ok program)
      (plain : program.isEquation = false)
      (result : (program.execute s.settings.machine s.bindings).result = .error fault) :
      Finds s math (.error fault.message)

theorem not_many_of_compiles {program : Program} (h : Formula.compile (s.filled math) = .ok program) :
    ¬2 ≤ (s.filled math).toList.count '=' := fun hmany => by
  rcases Formula.compile_cases (s.filled math) with ⟨-, herror⟩ | ⟨hfew, -⟩
  · rw [herror] at h
    cases h
  · omega

theorem Finds.unique {a b : Except String Float} (h : s.Finds math a) (h' : s.Finds math b) : a = b := by
  have hprogram : ∀ {p q : Program}, Formula.compile (s.filled math) = .ok p → Formula.compile (s.filled math) = .ok q →
      p = q := fun hp hq => Except.ok.inj (hp.symm.trans hq)
  cases h with
  | malformed many =>
    cases h' with
    | malformed => rfl
    | value compiles => exact absurd many (not_many_of_compiles compiles)
    | fault compiles => exact absurd many (not_many_of_compiles compiles)
  | value compiles _ result =>
    cases h' with
    | malformed many => exact absurd many (not_many_of_compiles compiles)
    | value compiles' _ result' =>
      rw [hprogram compiles compiles', result'] at result
      cases result
      rfl
    | fault compiles' _ result' =>
      rw [hprogram compiles compiles', result'] at result
      cases result
  | fault compiles _ result =>
    cases h' with
    | malformed many => exact absurd many (not_many_of_compiles compiles)
    | value compiles' _ result' =>
      rw [hprogram compiles compiles', result'] at result
      cases result
    | fault compiles' _ result' =>
      rw [hprogram compiles compiles', result'] at result
      cases result
      rfl

theorem Finds.ne_unknown {reason : String} (h : s.Finds math (.error reason)) : reason ≠ "unknown error" := by
  have hfirst : ∀ {a b : String}, 3 ≤ a.toList.length → a.toList.take 3 ≠ "unknown error".toList.take 3 →
      a ++ b ≠ "unknown error" := by
    rintro a b hlength htake heq
    refine htake ?_
    rw [← heq, String.toList_append, List.take_append_of_le_length hlength]
  cases h with
  | malformed => exact hfirst (by decide) (by decide)
  | @fault program fault =>
    cases fault with
    | stackUnderflow => exact hfirst (by decide) (by decide)
    | undefinedVariable => exact hfirst (by decide) (by decide)
    | divisionByZero => decide
    | runaway => exact hfirst (by decide) (by decide)

theorem Makes.count_math {p : Problem} (h : s.Makes p) : p.math.toList.count '=' ≠ 1 := by
  obtain ⟨-, e, -, id, rfl⟩ := h
  exact Prompt.count_math _

theorem trial_of_ok {program : Program} (h : Formula.compile (s.filled math) = .ok program) :
    s.trial math = .ran program (program.execute s.settings.machine s.bindings) := by
  rw [trial, ← filled, h]

/-- An answer is compared with the number that is found, or is wrong for the reason why there is none. -/
theorem verify_finds (s : Session) (p : Problem) (h : (s.filled p.math).toList.count '=' ≠ 1) (answer : Float) :
    (∃ value, s.Finds p.math (.ok value) ∧
      (s.verify answer p).comparison = .compared p.math value ((answer - value).abs < s.settings.machine.tolerance)) ∨
    ∃ reason, s.Finds p.math (.error reason) ∧
      (s.verify answer p).comparison = .failed ("VM calculation failed: " ++ reason) := by
  rcases Formula.compile_cases (s.filled p.math) with ⟨hmany, herror⟩ | ⟨hfew, -⟩
  · refine .inr ⟨_, .malformed hmany, ?_⟩
    have htrial : s.trial p.math = .rejected (.malformedEquation (s.filled p.math)) := by
      rw [trial, ← filled, herror]
    rw [verify, verifyExpression, test, htrial]
    rfl
  · have hnone : '=' ∉ Template.substituteVariables s.values p.math.toList := by
      rw [filled, String.toList_ofList] at h hfew
      exact List.count_eq_zero.mp (by omega)
    have hcompile := Formula.compile_expression hnone
    have htrial := trial_of_ok hcompile
    have hplain : (Formula.expression (Template.substituteVariables s.values p.math.toList)).isEquation = false := rfl
    rcases Program.exists_result hplain s.settings.machine s.bindings with ⟨value, hvalue⟩ | ⟨fault, hfault⟩
    · exact .inl ⟨value, .value hcompile hplain hvalue, verify_of_ok htrial hvalue answer⟩
    · exact .inr ⟨_, .fault hcompile hplain hfault, verify_of_error htrial hfault answer⟩

/-- What is computed for a problem is never an equation. -/
theorem verify_never_equation :
    (∀ text : List Char,
      ((Prompt.ofText text).math.toList.count '=' = 0 ∨ 2 ≤ (Prompt.ofText text).math.toList.count '=') ∧
        (Prompt.ofText text).math.toList <:+: text) ∧
    ∀ s : Session, (∀ name ∈ s.contents.generators.keys, '=' ∉ name.toList) →
      ∀ (operation : Operation) (words : WordSupply), ∀ p ∈ (s.perform operation words).1.2.made,
        ∀ (history : List (Operation × WordSupply)), ∀ later ∈ (s.perform operation words).1.1.course history,
          ∀ answer,
            (∃ value, later.Finds p.math (.ok value) ∧ (later.verify answer p).correctAnswer = value ∧
              (later.verify answer p).isCorrect = decide ((answer - value).abs < s.settings.machine.tolerance) ∧
              (later.verify answer p).error? = none) ∨
            ∃ reason, later.Finds p.math (.error reason) ∧ reason ≠ "unknown error" ∧
              (later.verify answer p).isCorrect = false ∧
              (later.verify answer p).error? = some ("VM calculation failed: " ++ reason) := by
  refine ⟨fun text => ⟨?_, Prompt.math_isInfix text⟩, fun s hnames operation words p hp history later hlater answer => ?_⟩
  · have hcount := Prompt.count_math text
    omega
  · have hmakes := s.perform_makes operation words p hp
    have hafter := s.perform_keeps operation words
    have hlaterKeeps := course_keeps history hlater
    have hlaterDrawn : later.Drawn := hlaterKeeps.drawn hmakes.drawn
    have hkeys : ∀ key ∈ later.values.keys, '=' ∉ key.toList := by
      rw [hlaterDrawn, hlaterKeeps.contents, hafter.contents]
      exact hnames
    have hcount : (later.filled p.math).toList.count '=' ≠ 1 := by
      rw [filled, String.toList_ofList, Template.count_substituteVariables hkeys rfl (by decide)]
      exact hmakes.count_math
    have hsettings : later.settings = s.settings := hlaterKeeps.settings.trans hafter.settings
    rw [Verification.correctAnswer, Verification.isCorrect, Verification.error?, ← hsettings]
    rcases later.verify_finds p hcount answer with ⟨value, hfinds, hcomparison⟩ | ⟨reason, hfinds, hcomparison⟩
    · rw [hcomparison]
      exact .inl ⟨value, hfinds, rfl, rfl, rfl⟩
    · rw [hcomparison]
      exact .inr ⟨reason, hfinds, hfinds.ne_unknown, rfl, rfl⟩

/-- A session whose label is an equals sign, with an equation and a text that it makes two equations of. -/
def equalsSample : Session where
  contents :=
    { labels := .ofList [(.plus, "=")]
      generators := .ofList [("a", ⟨2, 2⟩)]
      solutions := []
      exercises := [⟨"a*4 = b", [.plus]⟩, ⟨"1 plus 1 = a", [.plus]⟩] }
  settings := .standard
  values := .empty

theorem verify_never_equation_equalsSample :
    (∀ name ∈ equalsSample.contents.generators.keys, '=' ∉ name.toList) ∧
      let after := (equalsSample.perform (.newProblems [.plus]) ⟨[], 0⟩).1.1
      let later := (after.perform .reroll ⟨[], 0⟩).1.1
      ∃ p ∈ (equalsSample.perform (.newProblems [.plus]) ⟨[], 0⟩).1.2.made,
        ∃ q ∈ (equalsSample.perform (.newProblems [.plus]) ⟨[], 0⟩).1.2.made,
          p.math = "2*4" ∧ q.math = "1 = 1 = 2" ∧ ∀ answer,
            (later.verify answer p).correctAnswer = 8.0 ∧ (later.verify answer p).error? = none ∧
              (later.verify answer q).isCorrect = false ∧ (later.verify answer q).error? =
                some "VM calculation failed: compile: malformed equation (more than one '='): 1 = 1 = 2" := by
  have hnames : ∀ name ∈ equalsSample.contents.generators.keys, '=' ∉ name.toList := by
    have hkeys : equalsSample.contents.generators.keys = ["a"] := rfl
    rw [hkeys]
    decide
  refine ⟨hnames, ?_⟩
  intro after later
  have hmade : (equalsSample.perform (.newProblems [.plus]) ⟨[], 0⟩).1.2.made.map Problem.math =
      ["2*4", "1 = 1 = 2"] := by
    decide +kernel
  obtain ⟨p, hp, hmath⟩ := List.mem_map.mp (hmade ▸ List.mem_cons_self)
  obtain ⟨q, hq, hmath'⟩ := List.mem_map.mp (hmade ▸ List.mem_cons_of_mem _ (List.mem_singleton_self _))
  have hlater : later ∈ after.course [(.reroll, ⟨[], 0⟩)] := List.mem_cons_of_mem _ List.mem_cons_self
  have hverified := verify_never_equation.2 equalsSample hnames (.newProblems [.plus]) ⟨[], 0⟩
  have hcompile : Formula.compile (later.filled p.math) = .ok ⟨[.push 2, .push 4, .mul, .halt], false, "2*4"⟩ := by
    rw [hmath]
    decide +kernel
  have hvalue : (Program.execute later.settings.machine ⟨[.push 2, .push 4, .mul, .halt], false, "2*4"⟩
      later.bindings).result = .ok (.expression 8.0) := by
    rfl
  have hfound : later.Finds p.math (.ok 8.0) := .value hcompile rfl hvalue
  have hfilled : later.filled q.math = "1 = 1 = 2" := by
    rw [hmath']
    decide +kernel
  have hrefused := @Finds.malformed later q.math (by rw [hfilled]; decide)
  rw [hfilled] at hrefused
  refine ⟨p, hp, q, hq, hmath, hmath', fun answer => ?_⟩
  rcases hverified p hp _ later hlater answer with ⟨value, hfinds, hcorrect, -, herror⟩ | ⟨reason, hfinds, -⟩
  · cases hfinds.unique hfound
    rcases hverified q hq _ later hlater answer with ⟨value, hfinds', -⟩ | ⟨reason, hfinds', -, hwrong, herror'⟩
    · cases hfinds'.unique hrefused
    · cases hfinds'.unique hrefused
      exact ⟨hcorrect, herror, hwrong, herror'⟩
  · cases hfinds.unique hfound

end Session
end DrillCode
