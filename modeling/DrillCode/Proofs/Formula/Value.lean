import DrillCode.Proofs.Formula.Arrangement
import DrillCode.Proofs.Formula.Evaluation
import DrillCode.Proofs.Formula.Lexing
import DrillCode.Proofs.Text.Replace

/-! # Formulas are compiled to their value

A text that spells a formula, in any spacing, is compiled to the formula's code, and executing that gives what
the formula comes to. -/

namespace DrillCode

namespace Formula

/-- The character belongs to no piece and is no white space. -/
def Foreign (c : Char) : Prop :=
  Text.isSpace c = false ∧ Lexeme.isNumeric c = false ∧ Lexeme.isNameChar c = false ∧ c ∉ signs

instance (c : Char) : Decidable (Foreign c) := inferInstanceAs (Decidable (_ ∧ _))

theorem Foreign.notMem_text {c : Char} (h : Foreign c) (piece : Piece) : c ∉ piece.text := fun hc => by
  obtain ⟨-, hnumeric, hname, hsign⟩ := h
  rcases Piece.class_of_mem hc with hc | hc | hc
  · rw [hnumeric] at hc
    cases hc
  · rw [hname] at hc
    cases hc
  · exact hsign hc

theorem Layout.notMem {pieces : List Piece} {text : List Char} (h : Layout pieces text) {c : Char} (hc : Foreign c) :
    c ∉ text := by
  have hspaces : ∀ {spaces : List Char}, (∀ x ∈ spaces, Text.isSpace x = true) → c ∉ spaces := fun h hmem => by
    have hspace := h c hmem
    rw [hc.1] at hspace
    cases hspace
  induction h with
  | nil h => exact hspaces h
  | cons h piece _ ih =>
    intro hmem
    rcases List.mem_append.mp hmem with hmem | hmem
    · exact hspaces h hmem
    · exact (List.mem_append.mp hmem).elim (hc.notMem_text piece) ih

/-! ### Code -/

theorem Tree.Spells.expressionCode {tree : Tree} {text : List Char} (h : tree.Spells text) :
    expressionCode text = tree.code := by
  obtain ⟨pieces, hderives, hlayout⟩ := h
  have hturns : Alternates true (pieces ++ []) := hderives.alternates trivial
  rw [List.append_nil] at hturns
  rw [Formula.expressionCode, Lexeme.ofText, hlayout.lex hturns, hderives.toPostfix, tree.code_eq]

theorem Tree.Spells.notMem {tree : Tree} {text : List Char} (h : tree.Spells text) {c : Char} (hc : Foreign c) :
    c ∉ text := by
  obtain ⟨pieces, -, hlayout⟩ := h
  exact hlayout.notMem hc

theorem Sentence.Spells.compile {s : Sentence} {source : String} (h : s.Spells source.toList) :
    compile source = .ok ⟨s.code, s.isEquation, source⟩ := by
  cases s with
  | expression tree =>
    have htree : tree.Spells source.toList := h
    rw [Formula.compile, List.splitOn_eq_singleton (htree.notMem (by decide))]
    show Except.ok (Program.mk (Formula.expressionCode source.toList ++ [.halt]) false source) = _
    rw [htree.expressionCode]
    rfl
  | equation l r =>
    obtain ⟨before, behind, hsource, hl, hr⟩ := h
    rw [Formula.compile, hsource, List.splitOn_append_cons_self_of_not_mem (hl.notMem (by decide)),
      List.splitOn_eq_singleton (hr.notMem (by decide))]
    show Except.ok (Program.mk (Formula.expressionCode before ++ Formula.expressionCode behind ++ [.equal, .halt])
      true source) = _
    rw [hl.expressionCode, hr.expressionCode]
    rfl

/-- A text that spells a formula is compiled to the code of the formula. If a run may execute that many
    instructions, it gives what the formula comes to: a value or truth value, with one number on the stack and each
    instruction executed once, or else the first fault. -/
theorem compile_spelled {s : Sentence} {source : String} (h : s.Spells source.toList) :
    compile source = .ok ⟨s.code, s.isEquation, source⟩ ∧
      ∀ (settings : MachineSettings) (bindings : Bindings), s.code.length ≤ settings.stepLimit →
        (Program.execute settings ⟨s.code, s.isEquation, source⟩ bindings).result =
            s.eval settings.tolerance bindings ∧
          ∀ value, s.eval settings.tolerance bindings = .ok value →
            (Program.execute settings ⟨s.code, s.isEquation, source⟩ bindings).stack = [value.number] ∧
              (Program.execute settings ⟨s.code, s.isEquation, source⟩ bindings).steps = s.code.length :=
  ⟨h.compile, fun _ _ hlimit => s.execute_code source hlimit⟩

/-! ### An equation -/

/-- The number three. -/
def three : Literal := ⟨false, ['3'], 3.0, List.all_eq_true.mp rfl, by rfl⟩

/-- Three halves, negated. -/
def minusThreeHalves : Literal := ⟨true, ['1', '.', '5'], 1.5, List.all_eq_true.mp rfl, by rfl⟩

/-- The variable `x`. -/
def variableX : Name := ⟨['x'], by decide⟩

/-- The equation whose left side is three times a difference, and whose right side is negative. -/
def sampleEquation : Sentence :=
  .equation (.binary .mul (.number three) (.binary .sub (.name variableX) (.number three))) (.number minusThreeHalves)

theorem sampleEquation_spelled : sampleEquation.Spells "3* (x -3) = -1.5".toList := by
  have hdifference : Derives Operator.sub.precedence _ ([.name variableX] ++ .operator .sub :: [.literal three]) :=
    .binary (.mono (by decide) (.name variableX)) (.mono (by decide) (.number three))
  have hproduct : Derives Operator.mul.precedence _
      ([.literal three] ++ .operator .mul :: .openParen :: (_ ++ [.closeParen])) :=
    .binary (.mono (by decide) (.number three)) (.mono (by decide) (.paren hdifference))
  have hspace : ∀ c ∈ [' '], Text.isSpace c = true := List.forall_mem_singleton.mpr rfl
  have hleft : Layout [.literal three, .operator .mul, .openParen, .name variableX, .operator .sub, .literal three,
      .closeParen] ['3', '*', ' ', '(', 'x', ' ', '-', '3', ')', ' '] :=
    @Layout.cons [] _ _ nofun _ <| @Layout.cons [] _ _ nofun _ <| @Layout.cons [' '] _ _ hspace _ <|
      @Layout.cons [] _ _ nofun _ <| @Layout.cons [' '] _ _ hspace _ <| @Layout.cons [] _ _ nofun _ <|
      @Layout.cons [] _ _ nofun _ <| @Layout.nil [' '] hspace
  have hright : Layout [.literal minusThreeHalves] [' ', '-', '1', '.', '5'] :=
    @Layout.cons [' '] _ _ hspace _ <| @Layout.nil [] nofun
  exact ⟨_, _, rfl, ⟨_, .tighter hproduct, hleft⟩, ⟨_, .mono (by decide) (.number minusThreeHalves), hright⟩⟩

theorem compile_spelled_sampleEquation :
    sampleEquation.Spells "3* (x -3) = -1.5".toList ∧
      sampleEquation.code.length ≤ MachineSettings.standard.stepLimit ∧
      compile "3* (x -3) = -1.5" = .ok ⟨sampleEquation.code, true, "3* (x -3) = -1.5"⟩ ∧
      (Program.execute .standard ⟨sampleEquation.code, true, "3* (x -3) = -1.5"⟩ (.ofList [("x", 2.5)])).result =
        .ok (.equation true) ∧
      (Program.execute .standard ⟨sampleEquation.code, true, "3* (x -3) = -1.5"⟩ (.ofList [("x", 2.5)])).stack =
        [1.0] := by
  have heval : sampleEquation.eval MachineSettings.standard.tolerance (.ofList [("x", 2.5)]) =
      .ok (.equation true) := by rfl
  obtain ⟨hcompile, hexecute⟩ := compile_spelled sampleEquation_spelled
  obtain ⟨hresult, hnumber⟩ := hexecute .standard (.ofList [("x", 2.5)]) (by decide)
  exact ⟨sampleEquation_spelled, by decide, hcompile, hresult.trans heval, (hnumber _ heval).1⟩

end Formula
end DrillCode
