import DrillCode.CommandLine.Perform
import DrillCode.Proofs.CommandLine.Flag

/-! # Exit statuses

The exit status of a run does not depend on what is drawn, and with output in JSON it is the same as with lines of
text, but for one kind of failure: an expression whose run has a fault fails in text, and in JSON the fault is part of
the output and the command does not fail. -/

namespace DrillCode

/-! ### Problems -/

namespace Session

theorem isSome_find?_problemsFrom (s : Session) (index : Nat) : ∀ (id : Nat) (exercises : List Exercise),
    ((s.problemsFrom id exercises).find? fun p => p.id == index).isSome =
      decide (id ≤ index ∧ index < id + exercises.length)
  | id, [] => by
    rw [problemsFrom, List.find?_nil, Option.isSome_none, eq_comm, decide_eq_false_iff_not, List.length_nil]
    omega
  | id, e :: exercises => by
    have hid : (s.problem id e).id = id := rfl
    have ih := s.isSome_find?_problemsFrom index (id + 1) exercises
    rw [problemsFrom, List.find?_cons, hid]
    cases hindex : id == index with
    | true =>
      obtain rfl : id = index := by simpa using hindex
      simp
    | false =>
      have hne : id ≠ index := by simpa using hindex
      rw [ih, List.length_cons, decide_eq_decide]
      omega

end Session

namespace CommandLine

/-! ### Commands -/

/-- The messages of one kind of failure start alike, and those of different statuses do not. -/
theorem exitCode_eq (failure : Failure) : failure.exitCode =
    match failure with
    | .unreadable _ _ | .config | .hexText _ => 2
    | .payload _ | .compile _ => 3
    | .noExercise _ _ _ | .evaluation _ _ => 1 := by
  cases failure with
  | unreadable source reason =>
    show Failure.statusOf ("read " ++ source.name ++ ": " ++ reason) = 2
    simp [Failure.statusOf]
  | config => decide +kernel
  | hexText error =>
    show Failure.statusOf ("hex payload: " ++ error.message) = 2
    simp [Failure.statusOf]
  | payload error =>
    show Failure.statusOf ("invalid payload: " ++ error.reason) = 3
    simp [Failure.statusOf]
  | compile error =>
    show Failure.statusOf ("compile: " ++ error.message) = 3
    simp [Failure.statusOf]
  | noExercise index tag count =>
    show Failure.statusOf ("no exercise with id " ++ toString index ++ " for " ++ tag.name ++ " (" ++ toString count ++
      " generated)") = 1
    simp [Failure.statusOf]
  | evaluation steps fault =>
    show Failure.statusOf ("evaluation failed after " ++ toString steps ++ " steps: " ++ fault.message) = 1
    simp [Failure.statusOf]

theorem exitCode_ofResult_map {α : Type} (x : Except Failure α) (write write' : α → String) :
    (Outcome.ofResult do pure (write (← x))).exitCode = (Outcome.ofResult do pure (write' (← x))).exitCode := by
  cases x <;> rfl

/-- Whether a problem is found depends on its number alone. -/
theorem exitCode_check (options : Options) (sources : Sources) (s : Session) (tag : Tag) (index : Nat)
    (answer : Float) :
    (Outcome.ofResult (check options sources s tag index answer)).exitCode =
      if 1 ≤ index ∧ index < 1 + (s.contents.exercises.filter fun e => Tag.matchesSelection e.tags [tag]).length
      then 0 else 1 := by
  have hfound := (problemsOf sources s tag).1.isSome_find?_problemsFrom index 1
    (s.contents.exercises.filter fun e => Tag.matchesSelection e.tags [tag])
  have hproblems : (problemsOf sources s tag).2 = (problemsOf sources s tag).1.problemsFrom 1
    (s.contents.exercises.filter fun e => Tag.matchesSelection e.tags [tag]) := rfl
  rw [check]
  dsimp only
  rw [← hproblems] at hfound
  cases hfind : (problemsOf sources s tag).2.find? fun p => p.id == index with
  | none =>
    rw [hfind, Option.isSome_none, eq_comm, decide_eq_false_iff_not] at hfound
    rw [if_neg hfound, Outcome.ofResult, Outcome.exitCode, Option.elim_some, exitCode_eq]
  | some p =>
    rw [hfind, Option.isSome_some, eq_comm, decide_eq_true_iff] at hfound
    rw [if_pos hfound]
    rfl

theorem exitCode_evaluate_json {options : Options} (hjson : options.json = true) (settings : Settings)
    {expression : String} {p : Program} (hcompile : Formula.compile expression = .ok p)
    (bindings : List (String × Float)) (listing : Bool) :
    (evaluate options settings expression bindings listing).exitCode = 0 := by
  rw [evaluate, hcompile]
  dsimp only
  rw [if_pos hjson]
  rfl

theorem exitCode_evaluate_text {options : Options} (hjson : options.json = false) (settings : Settings)
    {expression : String} {p : Program} (hcompile : Formula.compile expression = .ok p)
    (bindings : List (String × Float)) (listing : Bool) :
    (evaluate options settings expression bindings listing).exitCode =
      match (p.execute settings.machine (.ofList bindings)).result with
      | .ok _ => 0
      | .error _ => 1 := by
  rw [evaluate, hcompile]
  dsimp only
  rw [hjson, if_neg Bool.false_ne_true]
  cases (p.execute settings.machine (.ofList bindings)).result with
  | ok evaluation => rfl
  | error fault => rw [Outcome.exitCode, Option.elim_some, exitCode_eq]

/-- The command runs an expression, with lines of text as output, and the run has a fault. -/
def Invocation.Faults (i : Invocation) (sources : Sources) : Prop :=
  i.options.json = false ∧ ∃ expression bindings listing settings p fault,
    i.command = .eval expression bindings listing ∧ i.options.settings sources = .ok settings ∧
    Formula.compile expression = .ok p ∧ (p.execute settings.machine (.ofList bindings)).result = .error fault

namespace Invocation
variable {i : Invocation} {sources : Sources}

theorem exitCode_of_faults (h : i.Faults sources) : (i.perform sources).exitCode = 1 := by
  obtain ⟨hjson, expression, bindings, listing, settings, p, fault, hcommand, hsettings, hcompile, hfault⟩ := h
  rw [perform, hcommand]
  dsimp only
  rw [hsettings]
  dsimp only
  rw [exitCode_evaluate_text hjson settings hcompile, hfault]

theorem exitCode_inJson_of_faults (h : i.Faults sources) (words : WordSupply) :
    (i.inJson.perform { sources with words := words }).exitCode = 0 := by
  obtain ⟨hjson, expression, bindings, listing, settings, p, fault, hcommand, hsettings, hcompile, hfault⟩ := h
  have hsettings' : i.options.inJson.settings { sources with words := words } = .ok settings := hsettings
  rw [perform, inJson, hcommand]
  dsimp only
  rw [hsettings']
  exact exitCode_evaluate_json rfl settings hcompile bindings listing

/-- Neither the form of the output nor what is drawn matters, unless the run of an expression has a fault. -/
theorem exitCode_inJson (h : ¬i.Faults sources) (words : WordSupply) :
    (i.inJson.perform { sources with words := words }).exitCode = (i.perform sources).exitCode := by
  obtain ⟨options, command⟩ := i
  cases command with
  | decode path =>
    exact exitCode_ofResult_map (options.session sources path) (decode options.inJson) (decode options)
  | run path =>
    exact exitCode_ofResult_map (options.session sources path) (runAll options.inJson { sources with words := words })
      (runAll options sources)
  | exercises path tag =>
    exact exitCode_ofResult_map (options.session sources path)
      (fun s => exercises options.inJson { sources with words := words } s tag)
      (fun s => exercises options sources s tag)
  | check path tag index answer =>
    have hsession : options.inJson.session { sources with words := words } path = options.session sources path := rfl
    rw [perform, perform, inJson]
    dsimp only
    rw [hsession]
    cases options.session sources path with
    | error failure => rfl
    | ok s => exact (exitCode_check _ _ s tag index answer).trans (exitCode_check _ _ s tag index answer).symm
  | eval expression bindings listing =>
    have hsettings : options.inJson.settings { sources with words := words } = options.settings sources := rfl
    rw [perform, perform, inJson]
    dsimp only
    rw [hsettings]
    cases hread : options.settings sources with
    | error failure => rfl
    | ok settings =>
      dsimp only
      cases hcompile : Formula.compile expression with
      | error e => rw [evaluate, evaluate, hcompile]
      | ok p =>
        rw [exitCode_evaluate_json rfl settings hcompile]
        cases hjson : options.json with
        | true => rw [exitCode_evaluate_json hjson settings hcompile]
        | false =>
          rw [exitCode_evaluate_text hjson settings hcompile]
          split
          · rfl
          · next fault hresult =>
            exact absurd ⟨hjson, expression, bindings, listing, settings, p, fault, rfl, hread, hcompile, hresult⟩ h

end Invocation

/-! ### Runs of the program -/

/-- What a run of the program meets: the environment, the files and standard input. -/
structure Surroundings where
  environment : Environment
  file : (path : String) → Except String (List UInt8)
  standard : Except String (List UInt8)

/-- What the program can read, with the words that it draws from. -/
def Surroundings.input (w : Surroundings) (words : WordSupply) : Input Id := ⟨w.file, w.standard, fun _ _ => words⟩

/-- The exit status of the program. -/
def exitStatus (w : Surroundings) (words : WordSupply) (arguments : List String) : Nat :=
  exitCodeOf (runProgram (w.input words) w.environment arguments).run

section Runs
variable {w : Surroundings} {arguments arguments' : List String}

/-- A command reads the same where other words are drawn, the words apart. -/
theorem sources_input (w : Surroundings) (i : Invocation) (words words' : WordSupply) :
    (i.sources (w.input words')).run = { (i.sources (w.input words)).run with words := words' } := by
  unfold Invocation.sources
  cases i.options.config <;> split <;> rfl

theorem exitStatus_of_ok {i : Invocation} (h : Invocation.ofArguments w.environment arguments = .ok i)
    (words : WordSupply) :
    exitStatus w words arguments = (i.perform (i.sources (w.input words)).run).exitCode := by
  rw [exitStatus, runProgram, h]
  rfl

theorem exitStatus_of_error {stop : Stop} (h : Invocation.ofArguments w.environment arguments = .error stop)
    (words : WordSupply) : exitStatus w words arguments = stop.exitCode := by
  rw [exitStatus, runProgram, h]
  rfl

/-- The arguments ask for the run of an expression, with lines of text as output, and the run has a fault. -/
def Faults (w : Surroundings) (arguments : List String) : Prop :=
  ∃ i, Invocation.ofArguments w.environment arguments = .ok i ∧ ∀ words, i.Faults (i.sources (w.input words)).run

/-- With the flag for JSON among the arguments, the exit status is the same, whatever is drawn, unless an expression is
    run and the run has a fault. Then it is one without the flag and zero with it. -/
theorem exitStatus_adds
    (h : Adds Rule.beforeCommand .beforeCommand arguments arguments') (hnone : Unflagged arguments)
    (words words' : WordSupply) :
    (¬Faults w arguments → exitStatus w words' arguments' = exitStatus w words arguments) ∧
      (Faults w arguments → exitStatus w words arguments = 1 ∧ exitStatus w words' arguments' = 0) := by
  have hparse := @ofArguments_adds _ _ w.environment h hnone
  refine ⟨fun hfaults => ?_, fun ⟨i, hi, hfaults⟩ => ?_⟩
  · cases hi : Invocation.ofArguments w.environment arguments with
    | error stop =>
      rw [hi] at hparse
      rw [exitStatus_of_error hi, exitStatus_of_error hparse]
    | ok i =>
      have hsound : ¬i.Faults (i.sources (w.input words)).run := fun hfault =>
        hfaults ⟨i, hi, fun words' => by rwa [sources_input w i words words']⟩
      rw [hi] at hparse
      rw [exitStatus_of_ok hi, exitStatus_of_ok hparse, ← Invocation.exitCode_inJson hsound words', ← sources_input]
      rfl
  · rw [hi] at hparse
    rw [exitStatus_of_ok hi, exitStatus_of_ok hparse]
    refine ⟨Invocation.exitCode_of_faults (hfaults words), ?_⟩
    rw [← Invocation.exitCode_inJson_of_faults (hfaults words) words', ← sources_input]
    rfl

end Runs

/-- Surroundings without files, and with nothing to read. -/
def Surroundings.bare : Surroundings := ⟨⟨none, none⟩, fun _ => .error "No such file or directory (os error 2)", .ok []⟩

/-- The flag between two options of a command that is given too short a payload. -/
theorem exitStatus_adds_check :
    Adds Rule.beforeCommand .beforeCommand ["check", "-", "--tag", "PLUS", "--answer", "3"]
        ["check", "-", "--tag", "PLUS", "--json", "--answer", "3"] ∧
      Unflagged ["check", "-", "--tag", "PLUS", "--answer", "3"] ∧
      exitStatus .bare ⟨[1], 0⟩ ["check", "-", "--tag", "PLUS", "--json", "--answer", "3"] =
        exitStatus .bare ⟨[], 0⟩ ["check", "-", "--tag", "PLUS", "--answer", "3"] := by
  have hadds : Adds Rule.beforeCommand .beforeCommand ["check", "-", "--tag", "PLUS", "--answer", "3"]
      ["check", "-", "--tag", "PLUS", "--json", "--answer", "3"] := by
    have hends : ∀ text ∈ ["-", "--tag"], ¬Ends .behindCommand text := by
      unfold Ends
      decide
    have htag := @Adds.later Verb.check.rules .behindCommand "--tag" ["PLUS"] ["--answer", "3"] _
      (hends "--tag" (by simp)) rfl (.here _ _ _)
    exact .command rfl (@Adds.later _ _ "-" [] _ _ (hends "-" (by simp)) rfl htag)
  have hnone : Unflagged ["check", "-", "--tag", "PLUS", "--answer", "3"] := by decide
  have hparse : (Invocation.ofArguments Surroundings.bare.environment
      ["check", "-", "--tag", "PLUS", "--answer", "3"]).toOption.map Invocation.command =
        some (.check "-" .plus 1 3) := by decide +kernel
  refine ⟨hadds, hnone, (exitStatus_adds hadds hnone ⟨[], 0⟩ ⟨[1], 0⟩).1 ?_⟩
  rintro ⟨i, hi, hfaults⟩
  obtain ⟨-, expression, bindings, listing, -, -, -, hcommand, -⟩ := hfaults ⟨[], 0⟩
  rw [hi, Except.toOption, Option.map_some, hcommand] at hparse
  cases hparse

/-- The run of a division by zero fails, but not with its output in JSON. -/
theorem exitStatus_differs :
    exitStatus .bare ⟨[], 0⟩ ["eval", "1/0"] = 1 ∧ exitStatus .bare ⟨[], 0⟩ ["eval", "1/0", "--json"] = 0 := by
  decide +kernel

end CommandLine
end DrillCode
