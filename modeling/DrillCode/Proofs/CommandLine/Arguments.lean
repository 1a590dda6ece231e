import DrillCode.CommandLine.Invocation

/-! # One argument after the other

An argument is read with the values that belong to it, and then the rest. What two readings give stays related if the
relation bears any other setting than that of the flag for JSON. -/

namespace DrillCode.CommandLine

/-! ### Results side by side -/

/-- Both computations succeed, with results that are related, or both fail alike. -/
inductive Agree {ε α β : Type} (R : α → β → Prop) : Except ε α → Except ε β → Prop
  | ok {a : α} {b : β} (h : R a b) : Agree R (.ok a) (.ok b)
  | error (e : ε) : Agree R (.error e) (.error e)

theorem Agree.bind {ε α β γ δ : Type} {R : α → β → Prop} {S : γ → δ → Prop} {x : Except ε α} {y : Except ε β}
    {f : α → Except ε γ} {g : β → Except ε δ} (h : Agree R x y) (hfg : ∀ a b, R a b → Agree S (f a) (g b)) :
    Agree S (x.bind f) (y.bind g) := by
  cases h with
  | ok h => exact hfg _ _ h
  | error e => exact .error e

theorem Agree.mono {ε α β : Type} {R S : α → β → Prop} {x : Except ε α} {y : Except ε β} (h : Agree R x y)
    (hRS : ∀ a b, R a b → S a b) : Agree S x y := by
  cases h with
  | ok h => exact .ok (hRS _ _ h)
  | error e => exact .error e

/-! ### One argument -/

theorem text_of_option {text name : String} (h : Argument.ofText text = .option name none) : text = "--" ++ name := by
  unfold Argument.ofText at h
  split at h
  · cases h
  · next htext =>
    unfold Argument.ofOption at h
    split at h
    · cases h
    · cases h
      rw [← String.toList_inj, htext]
      simp
  · cases h
  · cases h

/-- How many arguments behind this one are values of it. -/
def valueCount (rules : List Rule) (text : String) : Nat :=
  match Argument.ofText text with
  | .option name none =>
    match (rules.find? fun rule => rule.name == name).map Rule.form with
    | some (.value _ _) => 1
    | _ => 0
  | _ => 0

/-- Reading ends at the argument, with the options or with all. -/
def Ends (place : Place) (text : String) : Prop :=
  Argument.ofText text = .terminator ∨ place = .beforeCommand ∧ Argument.ofText text = .operand

/-- What is given with an argument and its values. -/
def Given.take (rules : List Rule) (g : Given) (text : String) (values : List String) : Except Stop Given :=
  match Argument.ofText text with
  | .terminator => .error .refused
  | .operand => .ok { g with operands := g.operands ++ [text] }
  | .letters letters => g.addLetters rules letters
  | .option name value =>
    match rules.find? fun rule => rule.name == name with
    | none => .error .refused
    | some rule =>
      match value, rule.form, values with
      | some value, _, _ => g.addValue rule value
      | none, .value hyphen _, [value] => if isValue hyphen value then g.addValue rule value else .error .refused
      | none, .value _ _, _ => .error .refused
      | none, _, _ => g.addFlag rule

section Take
variable {rules : List Rule} {place : Place} {text : String} {values rest : List String}

/-- An argument is read with its values, and then the rest. -/
theorem scan_append (hends : ¬Ends place text) (hvalues : values.length = valueCount rules text) (g : Given) :
    scan rules place g (text :: (values ++ rest)) =
      (g.take rules text values).bind fun g => scan rules place g rest := by
  obtain ⟨hterminator, hoperand⟩ := not_or.mp hends
  rw [scan.eq_def, Given.take]
  cases hform : Argument.ofText text with
  | terminator => exact absurd hform hterminator
  | operand =>
    obtain rfl : values = [] := by simpa [valueCount, hform] using hvalues
    cases place with
    | beforeCommand => exact absurd ⟨rfl, hform⟩ hoperand
    | behindCommand =>
      simp only [hform]
      rfl
  | letters letters =>
    obtain rfl : values = [] := by simpa [valueCount, hform] using hvalues
    simp only [hform, List.nil_append]
    cases g.addLetters rules letters <;> rfl
  | option name value =>
    cases hrule : rules.find? fun rule => rule.name == name with
    | none =>
      simp only [hform, hrule]
      rfl
    | some rule =>
      cases value with
      | some value =>
        obtain rfl : values = [] := by simpa [valueCount, hform] using hvalues
        simp only [hform, hrule, List.nil_append]
        cases g.addValue rule value <;> rfl
      | none =>
        cases hkind : rule.form with
        | value hyphen read =>
          obtain ⟨value, rfl⟩ := List.length_eq_one_iff.mp (by simpa [valueCount, hform, hrule, hkind] using hvalues)
          simp only [hform, hrule, hkind, List.singleton_append]
          split
          · cases g.addValue rule value <;> rfl
          · rfl
        | flag setting =>
          obtain rfl : values = [] := by simpa [valueCount, hform, hrule, hkind] using hvalues
          simp only [hform, hrule, hkind, List.nil_append]
          cases g.addFlag rule <;> rfl
        | stop stop =>
          obtain rfl : values = [] := by simpa [valueCount, hform, hrule, hkind] using hvalues
          simp only [hform, hrule, hkind, List.nil_append]
          cases g.addFlag rule <;> rfl

/-- However an argument goes on, it takes its values from what stands behind it. -/
theorem exists_values (hends : ¬Ends place text) (rest : List String) : ∃ values behind, rest = values ++ behind ∧
    values.length ≤ valueCount rules text ∧
    ∀ g, scan rules place g (text :: rest) = (g.take rules text values).bind fun g => scan rules place g behind := by
  by_cases hlength : valueCount rules text ≤ rest.length
  · refine ⟨rest.take (valueCount rules text), rest.drop (valueCount rules text), (List.take_append_drop _ _).symm,
      List.length_take_le _ _, fun g => ?_⟩
    have hscan := @scan_append rules place text _ (rest.drop (valueCount rules text)) hends
      (List.length_take_of_le hlength) g
    rwa [List.take_append_drop] at hscan
  · -- A value is missing.
    have hcount : valueCount rules text ≤ 1 := by
      unfold valueCount
      split
      · split <;> simp
      · simp
    obtain rfl : rest = [] := List.length_eq_zero_iff.mp (by omega)
    refine ⟨[], [], rfl, Nat.zero_le _, fun g => ?_⟩
    rw [valueCount] at hlength
    split at hlength
    · next name hform =>
      split at hlength
      · next hyphen read hrule =>
        obtain ⟨rule, hrule, hkind⟩ := Option.map_eq_some_iff.mp hrule
        rw [scan.eq_def, Given.take]
        simp only [hform, hrule, hkind]
        rfl
      · exact absurd (Nat.zero_le _) hlength
    · exact absurd (Nat.zero_le _) hlength

end Take

/-! ### Rules -/

/-- Two hyphens are no value of the option. -/
def Rule.Resists (rule : Rule) : Prop :=
  ∀ hyphen read, rule.form = .value hyphen read → isValue hyphen "--" = true → read "--" = none

/-- Among the rules is that of the flag, and no other one has its name. -/
structure KnowsJson (rules : List Rule) : Prop where
  found : rules.find? (fun rule => rule.name == "json") = some (.flag "json" .json)
  unique : ∀ rule ∈ rules, rule.name = "json" → rule = .flag "json" .json
  resists : ∀ rule ∈ rules, rule.Resists

theorem resists_of_value {rule : Rule} {read : String → Option Setting} (h : rule.form = .value false read) :
    rule.Resists := by
  intro hyphen read' hform hvalue
  rw [h] at hform
  cases hform
  exact absurd hvalue (by decide)

theorem knowsJson_everywhere : KnowsJson Rule.everywhere where
  found := rfl
  unique rule hrule hname := by
    simp only [Rule.everywhere, List.mem_cons, List.not_mem_nil, or_false] at hrule
    rcases hrule with rfl | rfl | rfl | rfl | rfl | rfl | rfl <;> simp_all [Rule.flag, Rule.value, Rule.help]
  resists rule hrule := by
    simp only [Rule.everywhere, List.mem_cons, List.not_mem_nil, or_false] at hrule
    rcases hrule with rfl | rfl | rfl | rfl | rfl | rfl | rfl <;>
      first | exact resists_of_value rfl | exact nofun

/-- Rules of other names may stand in front. -/
theorem KnowsJson.append {rules first : List Rule} (h : KnowsJson rules) (hfirst : ∀ rule ∈ first, rule.name ≠ "json")
    (hresists : ∀ rule ∈ first, rule.Resists) : KnowsJson (first ++ rules) where
  found := by
    have hnone : first.find? (fun rule => rule.name == "json") = none := by simpa using hfirst
    rw [List.find?_append, hnone, Option.none_or, h.found]
  unique rule hrule hname := by
    rcases List.mem_append.mp hrule with hrule | hrule
    · exact absurd hname (hfirst rule hrule)
    · exact h.unique rule hrule hname
  resists rule hrule := (List.mem_append.mp hrule).elim (hresists rule) (h.resists rule)

theorem knowsJson_beforeCommand : KnowsJson Rule.beforeCommand :=
  @KnowsJson.append _ [⟨"version", some 'V', false, .stop .version⟩] knowsJson_everywhere (by simp)
    (by rintro rule hrule; rw [List.mem_singleton.mp hrule]; exact nofun)

theorem resists_ownRules (verb : Verb) : ∀ rule ∈ verb.ownRules, rule.Resists := by
  cases verb with
  | decode => exact nofun
  | run => exact nofun
  | exercises => exact List.forall_mem_singleton.mpr (resists_of_value rfl)
  | check =>
    refine List.forall_mem_cons.mpr ⟨resists_of_value rfl, List.forall_mem_cons.mpr ⟨resists_of_value rfl, ?_⟩⟩
    refine List.forall_mem_singleton.mpr fun hyphen read hform _ => ?_
    -- The answer alone may start with a hyphen, but two hyphens are no number.
    cases hform
    decide +kernel
  | eval => exact List.forall_mem_cons.mpr ⟨resists_of_value rfl, List.forall_mem_singleton.mpr nofun⟩

theorem knowsJson_rules (verb : Verb) : KnowsJson verb.rules := by
  refine knowsJson_everywhere.append ?_ (resists_ownRules verb)
  cases verb <;> simp [Verb.ownRules, Rule.tag, Rule.value, Rule.flag]

/-- The rule that has a letter is another one. -/
theorem KnowsJson.name_ne_of_letter {rules : List Rule} {rule : Rule} {letter : Char} (h : KnowsJson rules)
    (hrule : rules.find? (fun rule => rule.letter == some letter) = some rule) : rule.name ≠ "json" := by
  intro hname
  have hletter := List.find?_some hrule
  rw [h.unique rule (List.mem_of_find?_eq_some hrule) hname] at hletter
  cases hletter

/-! ### Arguments without the flag -/

/-- The flag is not among the arguments, or only behind two hyphens, where no option is read. -/
def Unflagged (arguments : List String) : Prop := "--json" ∉ arguments.takeWhile (· != "--")

instance (arguments : List String) : Decidable (Unflagged arguments) :=
  inferInstanceAs (Decidable (_ ∉ _))

section Unflagged
variable {rules : List Rule} {place : Place} {text : String} {values rest : List String}

theorem Unflagged.head (h : Unflagged (text :: rest)) (htext : text ≠ "--") : text ≠ "--json" ∧ Unflagged rest := by
  rw [Unflagged, List.takeWhile_cons_of_pos (by simpa using htext), List.mem_cons, not_or] at h
  exact ⟨Ne.symm h.1, h.2⟩

theorem Unflagged.behind (h : Unflagged (values ++ rest)) (hvalues : "--" ∉ values) : Unflagged rest := by
  induction values with
  | nil => exact h
  | cons text values ih =>
    rw [List.mem_cons, not_or] at hvalues
    exact ih (h.head (Ne.symm hvalues.1)).2 hvalues.2

theorem ne_terminator (hends : ¬Ends place text) : text ≠ "--" := by
  rintro rfl
  exact hends (.inl (by decide))

/-- Two hyphens in the place of a value are refused. -/
theorem KnowsJson.take_terminator (hrules : KnowsJson rules) (hcount : values.length ≤ valueCount rules text)
    (hmem : "--" ∈ values) (g : Given) : g.take rules text values = .error .refused := by
  have hlength := List.length_pos_of_mem hmem
  rw [valueCount] at hcount
  split at hcount
  · next name hform =>
    split at hcount
    · next hyphen read hrule =>
      obtain ⟨rule, hrule, hkind⟩ := Option.map_eq_some_iff.mp hrule
      obtain ⟨value, rfl⟩ := List.length_eq_one_iff.mp (Nat.le_antisymm hcount hlength)
      obtain rfl : value = "--" := (List.mem_singleton.mp hmem).symm
      have hresists := hrules.resists rule (List.mem_of_find?_eq_some hrule) hyphen read hkind
      simp only [Given.take, hform, hrule, hkind]
      split
      · next hvalue => simp only [Given.addValue, hkind, hresists hvalue]
      · rfl
    · exact absurd hlength (Nat.not_lt.mpr hcount)
  · exact absurd hlength (Nat.not_lt.mpr hcount)

end Unflagged

/-! ### What is given -/

namespace Given
variable {g g' : Given} {rule : Rule} {rules : List Rule} {R : Given → Given → Prop}

/-- What is given in two readings stays related when the same is added to both, other than the flag. -/
structure IsKept (R : Given → Given → Prop) : Prop where
  add : ∀ {g g' rule}, R g g' → rule.name ≠ "json" → ∀ setting, Agree R (g.add rule setting) (g'.add rule setting)
  operand : ∀ {g g'}, R g g' → ∀ text,
    R { g with operands := g.operands ++ [text] } { g' with operands := g'.operands ++ [text] }

theorem IsKept.addFlag (hR : IsKept R) (h : R g g') (hname : rule.name ≠ "json") :
    Agree R (g.addFlag rule) (g'.addFlag rule) := by
  unfold Given.addFlag
  cases rule.form with
  | flag setting => exact hR.add h hname setting
  | value hyphen read => exact .error _
  | stop stop => exact .error _

/-- The flag takes no value. -/
theorem IsKept.addValue (hR : IsKept R) (h : R g g') (hrule : rule.name = "json" → rule = .flag "json" .json)
    (text : String) : Agree R (g.addValue rule text) (g'.addValue rule text) := by
  unfold Given.addValue
  cases hform : rule.form with
  | flag setting => exact .error _
  | stop stop => exact .error _
  | value hyphen read =>
    have hname : rule.name ≠ "json" := by
      intro hname
      rw [hrule hname] at hform
      cases hform
    dsimp only
    cases read text with
    | none => exact .error _
    | some setting => exact hR.add h hname setting

theorem addLetters_cons {letter : Char} (hrule : rules.find? (fun rule => rule.letter == some letter) = some rule)
    (g : Given) (letters : List Char) :
    g.addLetters rules (letter :: letters) = (g.addFlag rule).bind fun g => g.addLetters rules letters := by
  rw [addLetters, hrule]
  dsimp only
  cases g.addFlag rule <;> rfl

/-- The flag has no letter. -/
theorem IsKept.addLetters (hR : IsKept R) (hrules : KnowsJson rules) (h : R g g') (letters : List Char) :
    Agree R (g.addLetters rules letters) (g'.addLetters rules letters) := by
  induction letters generalizing g g' with
  | nil => exact .ok h
  | cons letter letters ih =>
    cases hrule : rules.find? fun rule => rule.letter == some letter with
    | none =>
      rw [Given.addLetters, Given.addLetters, hrule]
      exact .error _
    | some rule =>
      rw [addLetters_cons hrule, addLetters_cons hrule]
      exact (hR.addFlag h (hrules.name_ne_of_letter hrule)).bind fun _ _ h => ih h

theorem IsKept.take (hR : IsKept R) (hrules : KnowsJson rules) (h : R g g') {text : String} (htext : text ≠ "--json")
    (values : List String) : Agree R (g.take rules text values) (g'.take rules text values) := by
  unfold Given.take
  cases hform : Argument.ofText text with
  | terminator => exact .error _
  | operand => exact .ok (hR.operand h text)
  | letters letters => exact hR.addLetters hrules h letters
  | option name value =>
    dsimp only
    cases hrule : rules.find? fun rule => rule.name == name with
    | none => exact .error _
    | some rule =>
      have hunique := hrules.unique rule (List.mem_of_find?_eq_some hrule)
      cases value with
      | some value => exact hR.addValue h hunique value
      | none =>
        have hname : rule.name ≠ "json" := by
          intro hname
          have hfound : rule.name = name := by simpa using List.find?_some hrule
          rw [← hfound, hname] at hform
          exact htext (text_of_option hform)
        dsimp only
        split
        · contradiction
        · split
          · exact hR.addValue h hunique _
          · exact .error _
        · exact .error _
        · exact hR.addFlag h hname

/-- The second gives what the first does, and the flag. -/
structure Gains (g g' : Given) : Prop where
  operands : g'.operands = g.operands
  settings : ∃ first last, g.settings = first ++ last ∧ g'.settings = first ++ ("json", .json) :: last

theorem isKept_gains : IsKept Gains where
  add {g g' rule} h hname setting := by
    obtain ⟨first, last, hg, hg'⟩ := h.settings
    have hjson : ("json" == rule.name) = false := beq_eq_false_iff_ne.mpr hname.symm
    have hany : (g'.settings.any fun s => s.1 == rule.name) = g.settings.any fun s => s.1 == rule.name := by
      simp [hg, hg', hjson]
    rw [Given.add, Given.add, hany]
    split
    · exact .error _
    · exact .ok ⟨h.operands, first, last ++ [(rule.name, setting)], by simp [hg], by simp [hg']⟩
  operand h text := ⟨by simp [h.operands], h.settings⟩

/-- The flag is not given. -/
def Lacks (g : Given) : Prop := ∀ s ∈ g.settings, s.1 ≠ "json"

theorem isKept_lacks : IsKept fun g g' => g = g' ∧ Lacks g where
  add {g g' rule} h hname setting := by
    obtain ⟨rfl, h⟩ := h
    rw [Given.add]
    split
    · exact .error _
    · refine .ok ⟨rfl, fun s hs => ?_⟩
      rcases List.mem_append.mp hs with hs | hs
      · exact h s hs
      · rw [List.mem_singleton.mp hs]
        exact hname
  operand h text := by
    obtain ⟨rfl, h⟩ := h
    exact ⟨rfl, h⟩

theorem Lacks.add_json (h : Lacks g) : ∃ g', g.addFlag (.flag "json" .json) = .ok g' ∧ Gains g g' := by
  have hany : (g.settings.any fun s => s.1 == "json") = false := by
    rw [List.any_eq_false]
    intro s hs
    simpa using h s hs
  refine ⟨{ g with settings := g.settings ++ [("json", .json)] }, ?_, rfl, g.settings, [], by simp, rfl⟩
  simp [Given.addFlag, Rule.flag, Given.add, hany]

end Given

end DrillCode.CommandLine
