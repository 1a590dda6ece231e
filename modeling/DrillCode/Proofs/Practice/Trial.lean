import DrillCode.Practice.Session
import DrillCode.Proofs.Formula.Filling
import DrillCode.Proofs.Formula.Value

/-! # Trials of formulas

A session puts the values of its variables into the text of an expression before it is compiled. For a text that
spells a formula this comes to the same as compiling the text as it stands and binding the variables: whatever the
values are, the report shows what that execution gives. -/

namespace DrillCode

/-- The report shows what the execution gives. -/
structure Report.Shows (r : Report) (e : Execution) : Prop where
  evaluation : r.evaluation? = e.evaluation?
  error : r.error? = e.fault?.map Fault.message
  steps : r.steps = e.steps
  stack : r.stack = e.stack

namespace Session
variable {s : Session} {sentence : Formula.Sentence} {text : String}

/-! ### Reports -/

theorem getElem?_reportsFrom (s : Session) : ∀ (exercises : List Exercise) (id i : Nat),
    (s.reportsFrom id exercises)[i]? =
      exercises[i]?.map fun e => ⟨id + i, e.expression, s.trial e.expression⟩
  | [], _, _ => rfl
  | e :: exercises, id, 0 => rfl
  | e :: exercises, id, i + 1 => by
    rw [reportsFrom, List.getElem?_cons_succ, List.getElem?_cons_succ, getElem?_reportsFrom s exercises (id + 1) i]
    simp only [Nat.add_assoc, Nat.add_comm 1 i]

theorem getElem?_execute {i : Nat} {e : Exercise} (h : s.contents.exercises[i]? = some e) :
    s.execute[i]? = some ⟨1 + i, e.expression, s.trial e.expression⟩ := by
  rw [execute, getElem?_reportsFrom, h]
  rfl

/-! ### Trials -/

/-- What is run has the values in the places of the variables, and gives what the formula gives with the variables
    bound to them. -/
theorem trial_spelled (hspells : sentence.Spells text.toList) (hwhole : Formula.Whole s.values.keys sentence.names) :
    ∃ program, s.trial text =
      .ran program (Program.execute s.settings.machine ⟨sentence.code, sentence.isEquation, text⟩ s.bindings) := by
  have hfilled := hspells.filled hwhole
  rw [← String.toList_ofList (l := Template.substituteVariables s.values text.toList)] at hfilled
  have hcode : List.Forall₂ (Instruction.Alike s.settings.machine.tolerance s.bindings s.bindings)
      (sentence.filled s.values).code sentence.code := Formula.Sentence.code_filled_alike fun n _ hn => by
    rw [bindings, OrderedMap.get?_mapValues]
    exact Option.map_eq_none_iff.mpr hn
  rw [trial, hfilled.compile]
  refine ⟨_, congrArg (Trial.ran _) (Program.execute_alike hcode ?_)⟩
  exact sentence.isEquation_filled s.values

theorem shows_of_trial {id : Nat} {program : Program} {e : Execution} (h : s.trial text = .ran program e) :
    Report.Shows ⟨id, text, s.trial text⟩ e := by
  rw [h]
  exact ⟨rfl, rfl, rfl, rfl⟩

/-- The report on a text that spells a formula, asked for or among those on all exercises, shows what the text itself
    gives when it is compiled and run with the values bound to the variables. -/
theorem report_spelled (s : Session) {sentence : Formula.Sentence} {text : String}
    (hspells : sentence.Spells text.toList) (hwhole : Formula.Whole s.values.keys sentence.names) :
    ∃ program, Formula.compile text = .ok program ∧
      (s.test text).Shows (program.execute s.settings.machine s.bindings) ∧
      ∀ (i : Nat) (e : Exercise), s.contents.exercises[i]? = some e → e.expression = text →
        ∃ report : Report, s.execute[i]? = some report ∧
          report.Shows (program.execute s.settings.machine s.bindings) := by
  obtain ⟨program, htrial⟩ := trial_spelled hspells hwhole
  refine ⟨_, hspells.compile, shows_of_trial htrial, fun i e he htext => ?_⟩
  subst htext
  exact ⟨_, getElem?_execute he, shows_of_trial htrial⟩

/-- A session with one equation, whose variable has the least value of all. -/
def equationSample : Session where
  contents := { Contents.empty with exercises := [⟨"3* (x -3) = -1.5", [.star, .minus]⟩] }
  settings := .standard
  values := .ofList [("x", Int64.minValue)]

theorem equationSample_whole : Formula.Whole equationSample.values.keys Formula.sampleEquation.names := by
  have hkeys : equationSample.values.keys = ["x"] := rfl
  have hnames : Formula.sampleEquation.names = [Formula.variableX] := rfl
  rw [hkeys, hnames]
  refine ⟨by decide, fun key hkey n hn _ => ?_⟩
  rw [List.mem_singleton] at hkey hn
  rw [hkey, hn]
  decide

theorem report_spelled_equationSample :
    Formula.sampleEquation.Spells "3* (x -3) = -1.5".toList ∧
      Formula.Whole equationSample.values.keys Formula.sampleEquation.names ∧
      (equationSample.test "3* (x -3) = -1.5").evaluation? = some (.equation false) ∧
      (equationSample.test "3* (x -3) = -1.5").steps = 8 ∧
      ∃ report, equationSample.execute[0]? = some report ∧ report.evaluation? = some (.equation false) := by
  obtain ⟨program, hcompile, htest, hexecute⟩ :=
    report_spelled equationSample Formula.sampleEquation_spelled equationSample_whole
  obtain ⟨report, hreport, hshows⟩ := hexecute 0 _ rfl rfl
  cases hcompile.symm.trans Formula.sampleEquation_spelled.compile
  have hvalue : (Program.execute .standard ⟨Formula.sampleEquation.code, true, "3* (x -3) = -1.5"⟩
      equationSample.bindings).evaluation? = some (.equation false) := by decide +kernel
  have hsteps : (Program.execute .standard ⟨Formula.sampleEquation.code, true, "3* (x -3) = -1.5"⟩
      equationSample.bindings).steps = 8 := by decide +kernel
  exact ⟨Formula.sampleEquation_spelled, equationSample_whole, htest.evaluation.trans hvalue,
    htest.steps.trans hsteps, report, hreport, hshows.evaluation.trans hvalue⟩

end Session
end DrillCode
