import DrillCode.Proofs.Formula.Filling
import DrillCode.Proofs.Formula.Value
import DrillCode.Proofs.Practice.History

/-! # Problems made of formulas

An exercise may ask a question in front of an expression or an equation of two. A problem made of it asks for the
value of the expression, or of the left side, with the values that were drawn in the places of the names, and that
is the number that answers are compared with, then and whatever was drawn later. -/

namespace DrillCode
open Formula

/-- An exercise as it is written: a question or none, and an expression or the two sides of an equation. -/
structure Posed where
  question : Option (List Char)
  left : Tree
  leftText : Spelling left
  right : Option ((tree : Tree) × Spelling tree)

namespace Posed

/-- The expression or equation. -/
def formula (x : Posed) : List Char :=
  match x.right with
  | none => x.leftText.text
  | some right => x.leftText.text ++ '=' :: right.2.text

def text (x : Posed) : List Char :=
  match x.question with
  | none => x.formula
  | some question => question ++ (": ".toList ++ x.formula)

/-- The names in the expression or equation. -/
def names (x : Posed) : List Name :=
  match x.right with
  | none => x.left.names
  | some right => x.left.names ++ right.1.names

/-- What a problem asks: an equation's right side, besides the question. -/
def asked (x : Posed) : Option String :=
  match x.question, x.right with
  | none, none => none
  | none, some _ => some (String.ofList (Text.trim x.leftText.text ++ " = ?".toList))
  | some question, none => some (String.ofList question)
  | some question, some _ =>
    some (String.ofList (question ++ ": ".toList ++ (Text.trim x.leftText.text ++ " = ?".toList)))

/-- What a problem computes. -/
def math (x : Posed) : List Char :=
  match x.right with
  | none => x.leftText.text
  | some _ => Text.trim x.leftText.text

/-- The exercise with labels in its question and values throughout. -/
def substituted (s : Session) (x : Posed) : Posed where
  question := x.question.map fun question =>
    Template.substituteVariables s.values (Template.substituteLabels s.contents.labels question)
  left := x.left.filled s.values
  leftText := x.leftText.filled s.values
  right := x.right.map fun right => ⟨right.1.filled s.values, right.2.filled s.values⟩

/-- No placeholder of a label stands in the formula, and no variable but in the place of a whole name. -/
structure Fits (x : Posed) (c : Contents) : Prop where
  whole : Whole c.generators.keys x.names
  labels : ∀ tag ∈ c.labels.keys, ¬tag.placeholder.toList <:+: x.formula

theorem whole_left {keys : List String} {x : Posed} (h : Whole keys x.names) : Whole keys x.left.names := by
  rw [names] at h
  split at h
  · exact h
  · exact h.mono (List.subset_append_left _ _)

/-! ### Substitution -/

section Substitution
variable {s : Session} {x : Posed}

theorem substituteVariables_formula (h : Whole s.values.keys x.names) :
    Template.substituteVariables s.values x.formula = (x.substituted s).formula := by
  obtain ⟨question, left, leftText, right⟩ := x
  cases right with
  | none => exact leftText.substituteVariables h
  | some right =>
    have hleft := leftText.substituteVariables (h.mono (List.subset_append_left _ _))
    have hright := right.2.substituteVariables (h.mono (List.subset_append_right _ _))
    have hsplit := Template.substituteVariables_append (List.cons_ne_nil '=' [])
      (fun key hkey => h.notMem_key hkey (List.forall_mem_singleton.mpr (by decide))) leftText.text right.2.text
    rw [hleft, hright] at hsplit
    exact hsplit

/-- The colon and the space behind a question are kept, so the question and the formula are substituted apart. -/
theorem substitute_text (hfits : x.Fits s.contents) (hdrawn : s.Drawn) :
    Template.substituteVariables s.values (Template.substituteLabels s.contents.labels x.text) =
      (x.substituted s).text := by
  have hwhole : Whole s.values.keys x.names := hdrawn ▸ hfits.whole
  have hformula := substituteVariables_formula hwhole
  have hlabels := Template.substituteLabels_of_free hfits.labels
  have hplaceholder : ∀ tag : Tag, ∀ c ∈ ": ".toList, c ∉ tag.placeholder.toList := fun tag => by
    cases tag <;> simp [Tag.placeholder]
  have hseparator : ∀ c ∈ ": ".toList, Lexeme.isNameChar c = false := by
    simp
    decide
  obtain ⟨question, left, leftText, right⟩ := x
  cases question with
  | none =>
    show Template.substituteVariables s.values (Template.substituteLabels s.contents.labels (formula _)) = _
    rw [hlabels, hformula]
    rfl
  | some question =>
    show Template.substituteVariables s.values
      (Template.substituteLabels s.contents.labels (question ++ (": ".toList ++ formula _))) = _
    rw [Template.substituteLabels_append (by decide) hplaceholder, hlabels,
      Template.substituteVariables_append (by decide) fun key hkey => hwhole.notMem_key hkey hseparator, hformula]
    rfl

end Substitution

/-! ### Prompts -/

theorem notMem_formula (x : Posed) {c : Char} (hc : Foreign c) (hne : c ≠ '=') : c ∉ x.formula := by
  have hleft := x.leftText.spells.notMem hc
  rw [formula]
  split
  · exact hleft
  · next right _ =>
    have hright := right.2.spells.notMem hc
    intro hmem
    rcases List.mem_append.mp hmem with hmem | hmem
    · exact hleft hmem
    · exact (List.mem_cons.mp hmem).elim hne hright

/-- The one equals sign of an equation is that between its sides. -/
theorem leftSide?_formula (x : Posed) :
    Template.leftSide? x.formula = x.right.map fun _ => Text.trim x.leftText.text := by
  have hleft : '=' ∉ x.leftText.text := x.leftText.spells.notMem (by decide)
  rw [formula]
  split <;> rename_i hright
  · rw [Template.leftSide?, List.splitOn_eq_singleton hleft, hright]
    rfl
  · next right =>
    have hpieces := List.splitOn_eq_singleton (right.2.spells.notMem (c := '=') (by decide))
    rw [Template.leftSide?, List.splitOn_append_cons_self_of_not_mem hleft, hpieces, hright]
    rfl

theorem ofText_text {x : Posed} (h : ∀ question ∈ x.question, ¬": ".toList <:+: question) :
    Prompt.ofText x.text = ⟨x.asked, String.ofList x.math⟩ := by
  have hleft := x.leftSide?_formula
  have hcolon : ¬": ".toList <:+: x.formula := fun hmem =>
    x.notMem_formula (c := ':') (by decide) (by decide) (hmem.subset (by decide))
  obtain ⟨question, left, leftText, right⟩ := x
  cases question with
  | none =>
    show Prompt.ofText (formula _) = _
    rw [Prompt.ofText, Text.splitOnce_eq_none hcolon]
    dsimp only
    rw [hleft]
    cases right <;> rfl
  | some question =>
    have hsplit : Text.splitOnce ": ".toList
        (question ++ (": ".toList ++ formula ⟨some question, left, leftText, right⟩)) =
        some (question, formula ⟨some question, left, leftText, right⟩) :=
      Text.splitOnce_append (by decide) (h question rfl)
    show Prompt.ofText (question ++ (": ".toList ++ formula _)) = _
    rw [Prompt.ofText, hsplit]
    dsimp only
    rw [hleft]
    cases right <;> rfl

theorem math_spells (x : Posed) : x.left.Spells x.math := by
  rw [math]
  split
  · exact x.leftText.spells
  · exact x.leftText.spells.trim

theorem trim_math (x : Posed) : Text.trim x.math = Text.trim x.leftText.text := by
  rw [math]
  split
  · rfl
  · exact Text.trim_trim _

end Posed

/-! ### Answers -/

namespace Session
variable {s t : Session} {tree : Tree} {math : String} {program : Program} {e : Execution}

/-- An expression that was filled when it was made is tried as it was, whatever values there are now, and comes to what
    the tree comes to with the values that it was filled with. -/
theorem trial_filled (hspells : (tree.filled s.values).Spells math.toList) (hwhole : Whole s.values.keys tree.names)
    (hkeys : t.values.keys = s.values.keys) (hsettings : t.settings = s.settings)
    (hlimit : (Sentence.expression tree).code.length ≤ s.settings.machine.stepLimit) :
    ∃ program e, t.trial math = .ran program e ∧
      e.result = (Sentence.expression tree).eval s.settings.machine.tolerance s.bindings := by
  have hagain : ((tree.filled s.values).filled t.values).Spells (Template.substituteVariables t.values math.toList) :=
    hspells.filled (hkeys ▸ hwhole.filled s.values)
  rw [Tree.filled_filled hkeys,
    ← String.toList_ofList (l := Template.substituteVariables t.values math.toList)] at hagain
  have hleft : ∀ n ∈ tree.names, n.value? s.values = none → t.bindings.get? (String.ofList n.text) = none := by
    intro n _ hn
    rw [bindings, OrderedMap.get?_mapValues, Option.map_eq_none_iff, OrderedMap.get?_eq_none_iff, hkeys]
    exact Name.value?_eq_none.mp hn
  have halike : List.Forall₂ (Instruction.Alike s.settings.machine.tolerance t.bindings s.bindings)
      ((Sentence.expression tree).filled s.values).code (Sentence.expression tree).code :=
    Sentence.code_filled_alike hleft
  have hcompile := Sentence.Spells.compile (s := .expression (tree.filled s.values)) hagain
  -- The text that is compiled this time is not the one that spelled the expression, but its code is the same.
  have hexecute : ∀ source,
      Program.execute s.settings.machine ⟨((Sentence.expression tree).filled s.values).code, false, source⟩ t.bindings =
        Program.execute s.settings.machine ⟨(Sentence.expression tree).code, false, math⟩ s.bindings := fun source =>
    Program.execute_alike halike rfl
  rw [trial, hcompile, hsettings]
  exact ⟨_, _, rfl, (congrArg Execution.result (hexecute _)).trans
    ((Sentence.expression tree).execute_code math hlimit).1⟩

theorem verify_of_ok {p : Problem} {value : Float} (h : t.trial p.math = .ran program e)
    (hvalue : e.result = .ok (.expression value)) (answer : Float) :
    (t.verify answer p).comparison =
      .compared p.math value ((answer - value).abs < t.settings.machine.tolerance) := by
  rw [verify, verifyExpression, test, h]
  simp only [Report.evaluation?, Execution.evaluation?, hvalue]

theorem verify_of_error {p : Problem} {fault : Fault} (h : t.trial p.math = .ran program e)
    (hfault : e.result = .error fault) (answer : Float) :
    (t.verify answer p).comparison = .failed ("VM calculation failed: " ++ fault.message) := by
  rw [verify, verifyExpression, test, h]
  simp only [Report.evaluation?, Report.error?, Execution.evaluation?, Execution.fault?, hfault]
  rfl

/-- What is made of an exercise, and what it is answered with. -/
theorem problem_posed {x : Posed} (hfits : x.Fits s.contents) (hdrawn : s.Drawn)
    (hquestion : ∀ question ∈ (x.substituted s).question, ¬": ".toList <:+: question) {id : Nat} {e : Exercise}
    (htext : e.expression.toList = x.text) :
    (s.problem id e).question = (x.substituted s).asked ∧ (s.problem id e).math.toList = (x.substituted s).math := by
  have hprompt := Posed.ofText_text hquestion
  rw [← Posed.substitute_text hfits hdrawn, ← htext] at hprompt
  rw [problem]
  dsimp only
  rw [hprompt]
  exact ⟨rfl, String.toList_ofList⟩

/-- A problem that is made of an exercise with a formula computes the expression, or the left side, with the values that
    were drawn, and asks for it as the exercise is written. Whatever is asked of the session later, an answer is
    compared with the value of the expression at the values that were drawn, if it has one. -/
theorem verify_posed (s : Session) (x : Posed) (hfits : x.Fits s.contents)
    (hlimit : (Sentence.expression x.left).code.length ≤ s.settings.machine.stepLimit)
    (operation : Operation) (words : WordSupply)
    (hquestion : ∀ question ∈ (x.substituted (s.perform operation words).1.1).question, ¬": ".toList <:+: question) :
    let after := (s.perform operation words).1.1
    ∀ p ∈ (s.perform operation words).1.2.made, p.template.toList = x.text →
      Text.trim p.math.toList = Text.trim (x.leftText.filled after.values).text ∧
      p.question = (x.substituted after).asked ∧
      ∀ (history : List (Operation × WordSupply)), ∀ later ∈ after.course history, ∀ answer,
        (∀ value, x.left.eval after.bindings = .ok value →
          (later.verify answer p).correctAnswer = value ∧
            ((later.verify answer p).isCorrect = true ↔ (answer - value).abs < s.settings.machine.tolerance)) ∧
        ∀ fault, x.left.eval after.bindings = .error fault →
          (later.verify answer p).isCorrect = false ∧
            (later.verify answer p).error? = some ("VM calculation failed: " ++ fault.message) := by
  intro after p hp htext
  have hafter : s.Keeps after := s.perform_keeps operation words
  obtain ⟨hdrawn, e, -, id, rfl⟩ : after.Makes p := s.perform_makes operation words p hp
  obtain ⟨hasked, hmath⟩ := problem_posed (hafter.contents ▸ hfits) hdrawn hquestion htext
  have hkeys : after.values.keys = s.contents.generators.keys := hafter.contents ▸ hdrawn
  have hwhole : Whole after.values.keys x.left.names := hkeys ▸ Posed.whole_left hfits.whole
  have hspells : (x.left.filled after.values).Spells (after.problem id e).math.toList :=
    hmath ▸ (x.substituted after).math_spells
  refine ⟨hmath ▸ (x.substituted after).trim_math, hasked, fun history later hlater answer => ?_⟩
  have hlater : after.Keeps later := course_keeps history hlater
  have hlaterKeys : later.values.keys = after.values.keys := by
    have hdrawn' : later.values.keys = later.contents.generators.keys := hlater.drawn hdrawn
    rw [hdrawn', hlater.contents, hafter.contents, hkeys]
  obtain ⟨program, execution, htrial, hresult⟩ :=
    trial_filled hspells hwhole hlaterKeys hlater.settings (hafter.settings ▸ hlimit)
  refine ⟨fun value hvalue => ?_, fun fault hfault => ?_⟩
  · have hcomparison := verify_of_ok htrial (hresult.trans (by rw [Sentence.eval, hvalue]; rfl)) answer
    rw [Verification.correctAnswer, Verification.isCorrect, hcomparison, hlater.settings, hafter.settings]
    exact ⟨rfl, decide_eq_true_iff⟩
  · have hcomparison := verify_of_error htrial (hresult.trans (by rw [Sentence.eval, hfault]; rfl)) answer
    rw [Verification.isCorrect, Verification.error?, hcomparison]
    exact ⟨rfl, rfl⟩

/-- A question in front of an equation, whose left side is three times a variable. -/
def posedSample : Posed where
  question := some "plus".toList
  left := .binary .mul (.number three) (.name variableX)
  leftText :=
    { row := [([], .literal three), ([], .operator .mul), ([], .name variableX)]
      tail := [' ']
      spaced := by simp
      spacedTail := List.forall_mem_singleton.mpr rfl
      derives := .tighter (@Derives.binary .mul _ _ [_] [_] (.mono (by decide) (.number three))
        (.mono (by decide) (.name variableX))) }
  right := some ⟨.number minusThreeHalves,
    { row := [([' '], .literal minusThreeHalves)]
      tail := []
      spaced := List.forall_mem_singleton.mpr (List.forall_mem_singleton.mpr rfl)
      spacedTail := by simp
      derives := .mono (by decide) (.number minusThreeHalves) }⟩

/-- A session with that exercise, whose variable has but one value. -/
def posedSession : Session where
  contents :=
    { labels := .ofList [(.plus, "Add")]
      generators := .ofList [("x", ⟨2, 2⟩)]
      solutions := []
      exercises := [⟨"plus: 3*x = -1.5", [.plus]⟩] }
  settings := .standard
  values := .empty

theorem posedSample_fits : posedSample.Fits posedSession.contents where
  whole := by
    have hkeys : posedSession.contents.generators.keys = ["x"] := rfl
    have hnames : posedSample.names = [variableX] := rfl
    rw [hkeys, hnames]
    refine ⟨by decide, fun key hkey n hn _ => ?_⟩
    rw [List.mem_singleton] at hkey hn
    rw [hkey, hn]
    decide
  labels := by
    have hkeys : posedSession.contents.labels.keys = [.plus] := rfl
    have hformula : posedSample.formula = "3*x = -1.5".toList := rfl
    rw [hkeys, hformula]
    decide

theorem verify_posed_posedSample :
    posedSample.Fits posedSession.contents ∧
      (Sentence.expression posedSample.left).code.length ≤ posedSession.settings.machine.stepLimit ∧
      ∃ p ∈ (posedSession.perform (.oneProblem .plus) ⟨[], 0⟩).1.2.made, p.template = "plus: 3*x = -1.5" ∧
        p.question = some "Add: 3*2 = ?" ∧
        ∀ answer, ((posedSession.perform (.oneProblem .plus) ⟨[], 0⟩).1.1.verify answer p).correctAnswer = 6.0 := by
  have hquestion :
      ∀ question ∈ (posedSample.substituted (posedSession.perform (.oneProblem .plus) ⟨[], 0⟩).1.1).question,
      ¬": ".toList <:+: question := by
    have hsome : (posedSample.substituted (posedSession.perform (.oneProblem .plus) ⟨[], 0⟩).1.1).question =
        some "Add".toList := by decide +kernel
    rw [hsome]
    decide
  have hmade : (posedSession.perform (.oneProblem .plus) ⟨[], 0⟩).1.2.made.map (fun p => (p.template, p.question)) =
      [("plus: 3*x = -1.5", some "Add: 3*2 = ?")] := by decide +kernel
  obtain ⟨p, hp, hshown⟩ := List.mem_map.mp (hmade ▸ List.mem_singleton_self _)
  obtain ⟨htemplate, hasked⟩ := Prod.mk.inj hshown
  have heval : posedSample.left.eval (posedSession.perform (.oneProblem .plus) ⟨[], 0⟩).1.1.bindings = .ok 6.0 := by rfl
  obtain ⟨-, -, hverified⟩ :=
    verify_posed posedSession posedSample posedSample_fits (by decide) (.oneProblem .plus) ⟨[], 0⟩
    hquestion p hp (htemplate ▸ rfl)
  refine ⟨posedSample_fits, by decide, p, hp, htemplate, hasked, fun answer => ?_⟩
  exact ((hverified [] _ List.mem_cons_self answer).1 6.0 heval).1

end Session
end DrillCode
