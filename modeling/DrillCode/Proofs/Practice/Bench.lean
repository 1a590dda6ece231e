import DrillCode.Proofs.Machine.Reused
import DrillCode.Proofs.Practice.Drawing
import DrillCode.Proofs.Practice.History
import Mathlib.Data.List.Forall2

/-! # Sessions on one machine

All expressions of a session are run on the same machine, one after the other, also those that fail. A session on a
machine (`Bench`) answers as if each expression had a machine of its own, so nothing but the contents, the settings
and the values that were drawn last has a part in an answer. Along any history these values are those of the
generators, within their bounds, once there was a reroll, and none before. -/

namespace DrillCode

/-! ### Values -/

namespace Session

/-- The value has the name of the generator and lies in its range. -/
def Fits (value : String × Int64) (generator : String × Range) : Prop :=
  value.1 = generator.1 ∧ generator.2.Contains value.2

/-- There is one value for each generator, in the order of the generators, which fits it. -/
def Within (s : Session) : Prop := List.Forall₂ Fits s.values.entries s.contents.generators.entries

theorem drawValues_fits : ∀ (generators : List (String × Range)) (words : WordSupply),
    List.Forall₂ Fits (drawValues generators words).1 generators
  | [], _ => .nil
  | (_, range) :: generators, words =>
    .cons ⟨rfl, range.contains_draw words⟩ (drawValues_fits generators (range.draw words).2)

theorem reroll_within (s : Session) (words : WordSupply) : (s.reroll words).1.Within := by
  have hnodup : ((drawValues s.contents.generators.entries words).1.map Prod.fst).Nodup := by
    rw [keys_drawValues]
    exact s.contents.generators.nodup
  have hentries : (s.reroll words).1.values.entries = (drawValues s.contents.generators.entries words).1 :=
    OrderedMap.entries_ofList hnodup
  show List.Forall₂ Fits (s.reroll words).1.values.entries s.contents.generators.entries
  rw [hentries]
  exact drawValues_fits _ words

theorem perform_within {s : Session} {operation : Operation} (h : operation.rerolls = true) (words : WordSupply) :
    (s.perform operation words).1.1.Within := by
  cases operation with
  | reroll => exact s.reroll_within words
  | problemsByTag selected => exact s.reroll_within words
  | newProblems selected => exact s.reroll_within words
  | oneProblem tag =>
    show (s.oneProblem tag words).1.1.Within
    rw [(s.oneProblem_spec tag words).1]
    exact s.reroll_within words
  | compile expression => cases h
  | execute => cases h
  | test expression => cases h
  | verify answer math => cases h

/-- An operation that draws nothing leaves the session as it is and takes no words. -/
theorem perform_of_not_rerolls {s : Session} {operation : Operation} (h : operation.rerolls = false)
    (words more : WordSupply) : (s.perform operation words).1 = (s.perform operation more).1 ∧
      (s.perform operation words).1.1 = s := by
  cases operation with
  | compile expression => exact ⟨rfl, rfl⟩
  | execute => exact ⟨rfl, rfl⟩
  | test expression => exact ⟨rfl, rfl⟩
  | verify answer math => exact ⟨rfl, rfl⟩
  | reroll => cases h
  | problemsByTag selected => cases h
  | newProblems selected => cases h
  | oneProblem tag => cases h

end Session

/-- A session with the machine that it runs its expressions on. -/
structure Bench where
  session : Session
  machine : Machine

namespace Bench

/-- A session that has not run anything, with values that were drawn before. -/
def fresh (contents : Contents) (settings : Settings) (values : Variables) : Bench :=
  ⟨⟨contents, settings, values⟩, .new settings.machine⟩

def new (contents : Contents) (settings : Settings) : Bench := fresh contents settings .empty

/-! ### Operations -/

/-- Runs an expression on the machine with the values in the places of the variables. -/
def trial (b : Bench) (expression : String) : Trial × Bench :=
  match Formula.compile (String.ofList (Template.substituteVariables b.session.values expression.toList)) with
  | .error e => (.rejected e, b)
  | .ok program =>
    let (execution, machine) := b.machine.execute program b.session.bindings
    (.ran program execution, { b with machine })

def reportsFrom (b : Bench) (id : Nat) : (exercises : List Exercise) → List Report × Bench
  | [] => ([], b)
  | e :: exercises =>
    let (trial, b) := b.trial e.expression
    let (reports, b) := b.reportsFrom (id + 1) exercises
    (⟨id, e.expression, trial⟩ :: reports, b)

/-- How an answer compares with what came of an expression. -/
def verification (b : Bench) (answer : Float) (report : Report) : Verification :=
  { answer
    steps := report.steps
    comparison := match report.evaluation? with
      | some (.expression value) =>
        .compared report.expression value ((answer - value).abs < b.session.settings.machine.tolerance)
      | _ => .failed ("VM calculation failed: " ++ report.error?.getD "unknown error") }

/-- Performs an operation: the session and the machine afterwards, and the answer. Only running expressions takes the
    machine. -/
def perform (b : Bench) : (operation : Operation) → Draw (Bench × Answer)
  | .execute =>
    let (reports, b) := b.reportsFrom 1 b.session.contents.exercises
    pure (b, .reports reports)
  | .test expression =>
    let (trial, b) := b.trial expression
    pure (b, .reports [⟨0, expression, trial⟩])
  | .verify answer math =>
    let (trial, b) := b.trial math
    pure (b, .verified (b.verification answer ⟨0, math, trial⟩))
  | operation => do
    let (session, answer) ← b.session.perform operation
    pure ({ b with session }, answer)

/-- The session and the machine after operations one after the other. -/
def after (b : Bench) : (history : List (Operation × WordSupply)) → Bench
  | [] => b
  | (operation, words) :: history => (b.perform operation words).1.1.after history

/-! ### The machine has no part in the answers -/

/-- The machine runs programs as the session is to run them. -/
def Matched (b : Bench) : Prop := b.machine.settings = b.session.settings.machine

theorem trial_eq {b : Bench} (h : b.Matched) (expression : String) :
    (b.trial expression).1 = b.session.trial expression ∧ (b.trial expression).2.session = b.session ∧
      (b.trial expression).2.Matched := by
  unfold trial Session.trial
  cases Formula.compile (String.ofList (Template.substituteVariables b.session.values expression.toList)) with
  | error e => exact ⟨rfl, rfl, h⟩
  | ok program =>
    obtain ⟨hexecution, hsettings⟩ := b.machine.execute_eq program b.session.bindings
    exact ⟨congrArg (Trial.ran program) (h ▸ hexecution), rfl, hsettings.trans h⟩

theorem reportsFrom_eq : ∀ {b : Bench}, b.Matched → ∀ (exercises : List Exercise) (id : Nat),
    (b.reportsFrom id exercises).1 = b.session.reportsFrom id exercises ∧
      (b.reportsFrom id exercises).2.session = b.session ∧ (b.reportsFrom id exercises).2.Matched
  | _, h, [], _ => ⟨rfl, rfl, h⟩
  | b, h, e :: exercises, id => by
    obtain ⟨htrial, hsession, hmatched⟩ := trial_eq h e.expression
    obtain ⟨hreports, hsession', hmatched'⟩ := reportsFrom_eq hmatched exercises (id + 1)
    rw [hsession] at hreports hsession'
    refine ⟨?_, hsession', hmatched'⟩
    rw [reportsFrom, Session.reportsFrom, ← htrial, ← hreports]

/-- What the session answers and becomes is what it answers and becomes without the machine. -/
theorem perform_eq {b : Bench} (h : b.Matched) (operation : Operation) (words : WordSupply) :
    (b.perform operation words).1.2 = (b.session.perform operation words).1.2 ∧
      (b.perform operation words).1.1.session = (b.session.perform operation words).1.1 ∧
      (b.perform operation words).1.1.Matched := by
  have hsame : b.machine.settings = (b.session.perform operation words).1.1.settings.machine :=
    h.trans (congrArg Settings.machine (b.session.perform_keeps operation words).settings.symm)
  cases operation with
  | execute =>
    obtain ⟨hreports, hsession, hmatched⟩ := reportsFrom_eq h b.session.contents.exercises 1
    exact ⟨congrArg Answer.reports hreports, hsession, hmatched⟩
  | test expression =>
    obtain ⟨htrial, hsession, hmatched⟩ := trial_eq h expression
    exact ⟨congrArg (fun trial => Answer.reports [⟨0, expression, trial⟩]) htrial, hsession, hmatched⟩
  | verify answer math =>
    obtain ⟨htrial, hsession, hmatched⟩ := trial_eq h math
    refine ⟨?_, hsession, hmatched⟩
    show Answer.verified ((b.trial math).2.verification answer ⟨0, math, (b.trial math).1⟩) = _
    rw [verification, hsession, htrial]
    rfl
  | reroll => exact ⟨rfl, rfl, hsame⟩
  | compile expression => exact ⟨rfl, rfl, hsame⟩
  | problemsByTag selected => exact ⟨rfl, rfl, hsame⟩
  | newProblems selected => exact ⟨rfl, rfl, hsame⟩
  | oneProblem tag => exact ⟨rfl, rfl, hsame⟩

/-- An operation that draws nothing has one answer to a session, whichever machine it is on. -/
theorem answer_congr {b b' : Bench} (h : b.Matched) (h' : b'.Matched) (hsession : b'.session = b.session)
    {operation : Operation} (hrerolls : operation.rerolls = false) (words more : WordSupply) :
    (b'.perform operation more).1.2 = (b.perform operation words).1.2 := calc
  (b'.perform operation more).1.2 = (b.session.perform operation more).1.2 :=
    hsession ▸ (perform_eq h' operation more).1
  _ = (b.session.perform operation words).1.2 :=
    congrArg Prod.snd (Session.perform_of_not_rerolls hrerolls more words).1
  _ = (b.perform operation words).1.2 := (perform_eq h operation words).1.symm

/-! ### What every history keeps -/

/-- What holds of a session on its machine, and of its values once they were drawn. -/
structure Sound (contents : Contents) (settings : Settings) (drawn : Bool) (b : Bench) : Prop where
  contents : b.session.contents = contents
  settings : b.session.settings = settings
  matched : b.Matched
  values : if drawn then b.session.Within else b.session.values = .empty

variable {contents : Contents} {settings : Settings} {drawn : Bool} {b : Bench}

theorem Sound.perform (h : Sound contents settings drawn b) (operation : Operation) (words : WordSupply) :
    Sound contents settings (drawn || operation.rerolls) (b.perform operation words).1.1 := by
  obtain ⟨-, hsession, hmatched⟩ := perform_eq h.matched operation words
  have hkeeps := b.session.perform_keeps operation words
  refine ⟨by rw [hsession, hkeeps.contents, h.contents], by rw [hsession, hkeeps.settings, h.settings], hmatched, ?_⟩
  rw [hsession]
  cases hrerolls : operation.rerolls with
  | true =>
    rw [Bool.or_true]
    exact Session.perform_within hrerolls words
  | false =>
    rw [Bool.or_false, (Session.perform_of_not_rerolls hrerolls words words).2]
    exact h.values

/-- Induction on the history: each operation keeps what the next one starts from. -/
theorem Sound.after : ∀ {history : List (Operation × WordSupply)} {drawn : Bool} {b : Bench},
    Sound contents settings drawn b →
      Sound contents settings (drawn || history.any fun step => step.1.rerolls) (b.after history)
  | [], drawn, _, h => by
    rw [List.any_nil, Bool.or_false]
    exact h
  | (operation, words) :: history, drawn, b, h => by
    rw [List.any_cons, ← Bool.or_assoc]
    exact (h.perform operation words).after

theorem sound_new (contents : Contents) (settings : Settings) :
    Sound contents settings false (new contents settings) := ⟨rfl, rfl, rfl, rfl⟩

/-- After any history the contents and the settings are what they were, and the values are those of the generators,
    each within its bounds, if anything drew them. What the next operation makes has the values that the session has
    right after it; and if it draws nothing, it answers as a session with these values that has not run anything. -/
theorem perform_after (contents : Contents) (settings : Settings) (history : List (Operation × WordSupply))
    (operation : Operation) (words : WordSupply) :
    let b := (new contents settings).after history
    let next := (b.perform operation words).1
    b.session.contents = contents ∧ b.session.settings = settings ∧ b.machine.settings = settings.machine ∧
      (if history.any fun step => step.1.rerolls then b.session.Within else b.session.values = .empty) ∧
      (∀ p ∈ next.2.made, p.values = next.1.session.values) ∧
      (operation.rerolls = false → next.1.session = b.session ∧
        ∀ more, ((fresh contents settings b.session.values).perform operation more).1.2 = next.2) := by
  intro b next
  have hsound : Sound contents settings (history.any fun step => step.1.rerolls) b := by
    have h : Sound contents settings (false || history.any fun step => step.1.rerolls) b :=
      (sound_new contents settings).after
    rwa [Bool.false_or] at h
  obtain ⟨hanswer, hsession, -⟩ := perform_eq hsound.matched operation words
  have hmachine : b.machine.settings = settings.machine := hsound.matched.trans (congrArg _ hsound.settings)
  refine ⟨hsound.contents, hsound.settings, hmachine, hsound.values, fun p hp => ?_,
    fun hrerolls => ⟨?_, fun more => ?_⟩⟩
  · have hmade : p ∈ (b.session.perform operation words).1.2.made := hanswer ▸ hp
    obtain ⟨e, -, id, rfl⟩ := (b.session.perform_makes operation words p hmade).exercise
    show (b.session.perform operation words).1.1.values = next.1.session.values
    rw [← hsession]
  · exact hsession.trans (Session.perform_of_not_rerolls hrerolls words words).2
  · have hfresh : (fresh contents settings b.session.values).session = b.session := by
      rw [← hsound.contents, ← hsound.settings]
      rfl
    have hmatched : (fresh contents settings b.session.values).Matched := rfl
    exact answer_congr hsound.matched hmatched hfresh hrerolls words more

/-- A range whose bounds are given the wrong way round, and one of all numbers. -/
def boundsSample : Contents where
  labels := .empty
  generators := .ofList [("a", ⟨5, 2⟩), ("b", ⟨Int64.minValue, Int64.maxValue⟩)]
  solutions := []
  exercises := [⟨"a + 1 = c", [.plus]⟩]

/-- A reroll behind an expression that fails, and an expression behind both. -/
theorem perform_after_boundsSample :
    let history : List (Operation × WordSupply) := [(.test "1 / 0", ⟨[], 0⟩), (.reroll, ⟨[0xC000000000000000, 7], 0⟩)]
    let b := (new boundsSample .standard).after history
    b.session.values = .ofList [("a", 5), ("b", 7)] ∧ b.session.Within ∧
      ((fresh boundsSample .standard (.ofList [("a", 5), ("b", 7)])).perform (.test "a + 1") ⟨[], 0⟩).1.2 =
        (b.perform (.test "a + 1") ⟨[], 0⟩).1.2 := by
  intro history b
  obtain ⟨-, -, -, hwithin, -, hfresh⟩ := perform_after boundsSample .standard history (.test "a + 1") ⟨[], 0⟩
  have hvalues : b.session.values = .ofList [("a", 5), ("b", 7)] := by
    decide +kernel
  exact ⟨hvalues, hwithin, hvalues ▸ (hfresh rfl).2 ⟨[], 0⟩⟩

end Bench
end DrillCode
