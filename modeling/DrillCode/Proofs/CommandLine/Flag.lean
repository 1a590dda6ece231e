import DrillCode.Proofs.CommandLine.Arguments

/-! # Arguments with the flag

The flag for JSON may stand wherever an option may stand. The arguments are understood with it as they are without it,
in JSON: nothing else depends on it, and what is refused is refused with it. -/

namespace DrillCode.CommandLine
open Given (Gains Lacks)

/-! ### All arguments -/

variable {rules : List Rule} {place : Place} {arguments arguments' : List String}

/-- Behind the flag, arguments are read as without it. -/
theorem scan_gains (hrules : KnowsJson rules) : ∀ (arguments : List String) {g g' : Given}, Gains g g' →
    Unflagged arguments →
    Agree (fun r r' => Gains r.1 r'.1 ∧ r.2 = r'.2) (scan rules place g arguments) (scan rules place g' arguments)
  | [], g, g', h, _ => .ok ⟨h, rfl⟩
  | text :: rest, g, g', h, hnone => by
    by_cases hends : Ends place text
    · rw [scan.eq_def, scan.eq_def]
      rcases hends with hform | ⟨rfl, hform⟩
      · simp only [hform]
        cases place with
        | beforeCommand => exact .error _
        | behindCommand => exact .ok ⟨⟨by simp [h.operands], h.settings⟩, rfl⟩
      · simp only [hform]
        exact .ok ⟨h, rfl⟩
    · obtain ⟨values, behind, rfl, hcount, hscan⟩ := @exists_values rules place text hends rest
      obtain ⟨htext, hnone⟩ := hnone.head (ne_terminator hends)
      rw [hscan, hscan]
      by_cases hvalues : "--" ∈ values
      · rw [hrules.take_terminator hcount hvalues, hrules.take_terminator hcount hvalues]
        exact .error _
      · exact (Given.isKept_gains.take hrules h htext values).bind fun g g' h =>
          scan_gains hrules behind h (hnone.behind hvalues)
termination_by arguments => arguments.length

/-- The second arguments are the first with the flag in a place where an option may stand: in front of the first
    argument or behind an argument with its values, before the command or behind it, but not behind two hyphens. -/
inductive Adds : List Rule → Place → (arguments arguments' : List String) → Prop
  | here (rules : List Rule) (place : Place) (arguments : List String) :
    Adds rules place arguments ("--json" :: arguments)
  | later {rules : List Rule} {place : Place} {text : String} {values rest rest' : List String}
      (ends : ¬Ends place text) (count : values.length = valueCount rules text) (h : Adds rules place rest rest') :
      Adds rules place (text :: (values ++ rest)) (text :: (values ++ rest'))
  | command {rules : List Rule} {name : String} {verb : Verb} {rest rest' : List String}
      (found : Verb.ofName? name = some verb) (h : Adds verb.rules .behindCommand rest rest') :
      Adds rules .beforeCommand (name :: rest) (name :: rest')

/-- What the two readings leave: the flag was read, or it stands behind the command. -/
def Leaves (place : Place) (r r' : Given × List String) : Prop :=
  (Gains r.1 r'.1 ∧ r.2 = r'.2) ∨
    (place = .beforeCommand ∧ r.1 = r'.1 ∧ ∃ name verb rest rest', r.2 = name :: rest ∧ r'.2 = name :: rest' ∧
      Verb.ofName? name = some verb ∧ Adds verb.rules .behindCommand rest rest' ∧ Unflagged rest)

theorem ofText_of_ofName? {name : String} {verb : Verb} (h : Verb.ofName? name = some verb) :
    Argument.ofText name = .operand ∧ name ≠ "help" := by
  have hname : verb.name = name := by simpa using List.find?_some h
  subst hname
  cases verb <;> decide

theorem scan_json (hrules : KnowsJson rules) {g : Given} (hg : Lacks g) : ∃ g', Gains g g' ∧
    scan rules place g ("--json" :: arguments) = scan rules place g' arguments := by
  obtain ⟨g', hadd, hgains⟩ := hg.add_json
  have hform : Argument.ofText "--json" = .option "json" none := by decide
  have hends : ¬Ends place "--json" := by simp [Ends, hform]
  have hcount : ([] : List String).length = valueCount rules "--json" := by
    simp [valueCount, hform, hrules.found, Rule.flag]
  have htake : g.take rules "--json" [] = .ok g' := by
    simp only [Given.take, hform, hrules.found]
    exact hadd
  refine ⟨g', hgains, ?_⟩
  have hscan := @scan_append rules place "--json" [] arguments hends hcount g
  rwa [List.nil_append, htake] at hscan

theorem scan_adds (h : Adds rules place arguments arguments') (hrules : KnowsJson rules) (hnone : Unflagged arguments)
    {g : Given} (hg : Lacks g) : Agree (Leaves place) (scan rules place g arguments) (scan rules place g arguments') := by
  induction h generalizing g with
  | here rules place arguments =>
    obtain ⟨g', hgains, hscan⟩ := @scan_json rules place arguments hrules g hg
    rw [hscan]
    exact (scan_gains hrules arguments hgains hnone).mono fun _ _ => .inl
  | @later rules place text values rest rest' ends count h ih =>
    obtain ⟨htext, hnone⟩ := hnone.head (ne_terminator ends)
    rw [scan_append ends count, scan_append ends count]
    by_cases hvalues : "--" ∈ values
    · rw [hrules.take_terminator (Nat.le_of_eq count) hvalues]
      exact .error _
    · refine (Given.isKept_lacks.take hrules ⟨rfl, hg⟩ htext values).bind fun g g' hkept => ?_
      obtain ⟨rfl, hg⟩ := hkept
      exact ih hrules (hnone.behind hvalues) hg
  | @command rules name verb rest rest' found h ih =>
    obtain ⟨hform, -⟩ := ofText_of_ofName? found
    have hname : name ≠ "--" := by
      rintro rfl
      cases hform
    rw [scan.eq_2, scan.eq_2, hform]
    exact .ok (.inr ⟨rfl, rfl, name, verb, rest, rest', rfl, rfl, found, h, (hnone.head hname).2⟩)

/-! ### Invocations -/

namespace Given
variable {g g' : Given}

theorem Gains.find? (h : Gains g g') {α : Type} {what? : Setting → Option α} (hwhat : what? .json = none) :
    g'.find? what? = g.find? what? := by
  obtain ⟨first, last, hg, hg'⟩ := h.settings
  simp [Given.find?, hg, hg', hwhat]

theorem Gains.has (h : Gains g g') {setting : Setting} (hsetting : setting ≠ .json) :
    g'.has setting = g.has setting := by
  obtain ⟨first, last, hg, hg'⟩ := h.settings
  simp [Given.has, hg, hg', hsetting.symm]

theorem Gains.has_json (h : Gains g g') : g'.has .json = true := by
  obtain ⟨first, last, hg, hg'⟩ := h.settings
  simp [Given.has, hg']

/-- The flag does not count for what the command does. -/
theorem Gains.command? (h : Gains g g') (verb : Verb) : g'.command? verb = g.command? verb := by
  have hoperand : ∀ standard, g'.operand? standard = g.operand? standard := fun standard => by
    rw [Given.operand?, Given.operand?, h.operands]
  have hbindings : (g'.settings.filterMap fun s => s.2.binding?) = g.settings.filterMap fun s => s.2.binding? := by
    obtain ⟨first, last, hg, hg'⟩ := h.settings
    simp [hg, hg', Setting.binding?]
  have htag : g'.find? Setting.tag? = g.find? Setting.tag? := h.find? rfl
  have hindex : g'.find? Setting.index? = g.find? Setting.index? := h.find? rfl
  have hanswer : g'.find? Setting.answer? = g.find? Setting.answer? := h.find? rfl
  have hlisting : g'.has .listing = g.has .listing := h.has nofun
  cases verb <;>
    simp only [Given.command?, Given.payload?, hoperand, hbindings, htag, hindex, hanswer, hlisting]

end Given

/-- The options with output in JSON. -/
def Options.inJson (options : Options) : Options := { options with json := true }

/-- The same command with output in JSON. -/
def Invocation.inJson (i : Invocation) : Invocation := { i with options := i.options.inJson }

section Invocations
variable {environment : Environment} {before before' behind behind' : Given}

theorem ofGiven_before (h : Gains before before') (behind : Given) :
    Options.ofGiven environment before' behind = (Options.ofGiven environment before behind).map Options.inJson := by
  have hhex : before'.has .hex = before.has .hex := h.has nofun
  have hverbose : before'.has .verbose = before.has .verbose := h.has nofun
  have hseed : before'.find? Setting.seed? = before.find? Setting.seed? := h.find? rfl
  have hconfig : before'.find? Setting.config? = before.find? Setting.config? := h.find? rfl
  have hlimit : before'.find? Setting.stepLimit? = before.find? Setting.stepLimit? := h.find? rfl
  rw [Options.ofGiven, Options.ofGiven, hhex, hverbose, hseed, hconfig, hlimit, h.has_json, Bool.true_or]
  cases Options.stepLimitOf environment.stepLimit (before.find? Setting.stepLimit?)
    (behind.find? Setting.stepLimit?) <;> rfl

theorem ofGiven_behind (h : Gains behind behind') (before : Given) :
    Options.ofGiven environment before behind' = (Options.ofGiven environment before behind).map Options.inJson := by
  have hhex : behind'.has .hex = behind.has .hex := h.has nofun
  have hverbose : behind'.has .verbose = behind.has .verbose := h.has nofun
  have hseed : behind'.find? Setting.seed? = behind.find? Setting.seed? := h.find? rfl
  have hconfig : behind'.find? Setting.config? = behind.find? Setting.config? := h.find? rfl
  have hlimit : behind'.find? Setting.stepLimit? = behind.find? Setting.stepLimit? := h.find? rfl
  rw [Options.ofGiven, Options.ofGiven, hhex, hverbose, hseed, hconfig, hlimit, h.has_json, Bool.or_true]
  cases Options.stepLimitOf environment.stepLimit (before.find? Setting.stepLimit?)
    (behind.find? Setting.stepLimit?) <;> rfl

theorem ofCommand_before (h : Gains before before') (verb : Verb) (arguments : List String) :
    Invocation.ofCommand environment before' verb arguments =
      (Invocation.ofCommand environment before verb arguments).map Invocation.inJson := by
  rw [Invocation.ofCommand, Invocation.ofCommand]
  cases scan verb.rules .behindCommand .nothing arguments with
  | error stop => rfl
  | ok r =>
    dsimp only
    rw [ofGiven_before h]
    cases Options.ofGiven environment before r.1 <;> cases r.1.command? verb <;> rfl

theorem ofCommand_behind {verb : Verb} (h : Adds verb.rules .behindCommand arguments arguments')
    (hnone : Unflagged arguments) : Invocation.ofCommand environment before verb arguments' =
      (Invocation.ofCommand environment before verb arguments).map Invocation.inJson := by
  have hscan := @scan_adds _ _ _ _ h (knowsJson_rules verb) hnone .nothing nofun
  rw [Invocation.ofCommand, Invocation.ofCommand]
  generalize scan verb.rules .behindCommand .nothing arguments = r at hscan ⊢
  generalize scan verb.rules .behindCommand .nothing arguments' = r' at hscan ⊢
  cases hscan with
  | error stop => rfl
  | @ok left left' hleaves =>
    obtain ⟨hgains, -⟩ | ⟨hplace, -⟩ := hleaves
    · dsimp only
      rw [ofGiven_behind hgains, hgains.command?]
      cases Options.ofGiven environment before left.1 <;> cases left.1.command? verb <;> rfl
    · cases hplace

/-- With the flag among them, the arguments are understood as without it, in JSON. -/
theorem ofArguments_adds (h : Adds Rule.beforeCommand .beforeCommand arguments arguments')
    (hnone : Unflagged arguments) : Invocation.ofArguments environment arguments' =
      (Invocation.ofArguments environment arguments).map Invocation.inJson := by
  have hscan := @scan_adds _ _ _ _ h knowsJson_beforeCommand hnone .nothing nofun
  rw [Invocation.ofArguments, Invocation.ofArguments]
  generalize scan Rule.beforeCommand .beforeCommand .nothing arguments = r at hscan ⊢
  generalize scan Rule.beforeCommand .beforeCommand .nothing arguments' = r' at hscan ⊢
  cases hscan with
  | error stop => rfl
  | @ok left left' hleaves =>
    obtain ⟨before, rest⟩ := left
    obtain ⟨before', rest'⟩ := left'
    obtain ⟨hgains, hrest⟩ | ⟨-, hbefore, name, verb, behind, behind', hrest, hrest', found, h, hnone⟩ := hleaves
    · obtain rfl : rest = rest' := hrest
      cases rest with
      | nil => rfl
      | cons name rest =>
        dsimp only
        split
        · rfl
        · split
          · exact ofCommand_before hgains _ rest
          · rfl
    · obtain rfl : before = before' := hbefore
      obtain rfl : rest = name :: behind := hrest
      obtain rfl : rest' = name :: behind' := hrest'
      have hhelp := (ofText_of_ofName? found).2
      simp only [if_neg hhelp, found]
      exact ofCommand_behind h hnone

end Invocations
end DrillCode.CommandLine
