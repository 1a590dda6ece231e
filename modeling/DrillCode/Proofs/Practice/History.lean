import DrillCode.Practice.Operation
import DrillCode.Proofs.OrderedMap

/-! # What a history keeps

No operation changes the contents or the settings of a session. The variables that an operation draws are those
that the generators name, in their order, so once they were drawn they stay the same and only their values change.
Each problem that is made comes from an exercise of the contents, with the values that were drawn for it. -/

namespace DrillCode.Session

/-- The variables are those that the generators name. -/
def Drawn (s : Session) : Prop := s.values.keys = s.contents.generators.keys

/-- What the session keeps until it is as `t`. -/
structure Keeps (s t : Session) : Prop where
  contents : t.contents = s.contents
  settings : t.settings = s.settings
  drawn : s.Drawn → t.Drawn

namespace Keeps
variable {s t u : Session}

theorem refl (s : Session) : Keeps s s := ⟨rfl, rfl, id⟩

theorem trans (h : Keeps s t) (h' : Keeps t u) : Keeps s u :=
  ⟨h'.contents.trans h.contents, h'.settings.trans h.settings, h'.drawn ∘ h.drawn⟩

end Keeps

/-- The session and what it is after each operation of a history. -/
def course (s : Session) (history : List (Operation × WordSupply)) : List Session :=
  s :: (s.performAll history).map Prod.fst

/-! ### Drawing -/

theorem keys_drawValues : ∀ (generators : List (String × Range)) (words : WordSupply),
    ((drawValues generators words).1).map Prod.fst = generators.map Prod.fst
  | [], _ => rfl
  | (name, range) :: generators, words =>
    congrArg (name :: ·) (keys_drawValues generators (range.draw words).2)

theorem reroll_drawn (s : Session) (words : WordSupply) : (s.reroll words).1.Drawn := by
  show (OrderedMap.ofList (drawValues s.contents.generators.entries words).1).keys = s.contents.generators.keys
  rw [(OrderedMap.ofList_gathers _).keys, keys_drawValues]
  exact OrderedMap.eraseDups_of_nodup s.contents.generators.nodup

theorem reroll_keeps (s : Session) (words : WordSupply) : s.Keeps (s.reroll words).1 :=
  ⟨rfl, rfl, fun _ => s.reroll_drawn words⟩

/-! ### Problems -/

/-- The problem was made of an exercise with values that were drawn for it. -/
structure Makes (s : Session) (p : Problem) : Prop where
  drawn : s.Drawn
  exercise : ∃ e ∈ s.contents.exercises, ∃ id, p = s.problem id e

theorem mem_problemsFrom {s : Session} {p : Problem} : ∀ {exercises : List Exercise} {id : Nat},
    p ∈ s.problemsFrom id exercises → ∃ e ∈ exercises, ∃ id, p = s.problem id e
  | [], _, h => by cases h
  | e :: exercises, id, h => by
    rcases List.mem_cons.mp h with rfl | h
    · exact ⟨e, List.mem_cons_self, id, rfl⟩
    · obtain ⟨e', he, hp⟩ := mem_problemsFrom h
      exact ⟨e', List.mem_cons_of_mem e he, hp⟩

theorem makes_of_mem {s : Session} {wanted : List Tag → Bool} {p : Problem} (hs : s.Drawn)
    (h : p ∈ s.problems wanted) : s.Makes p := by
  obtain ⟨e, he, hp⟩ := mem_problemsFrom h
  exact ⟨hs, e, (List.mem_filter.mp he).1, hp⟩

/-! ### Operations -/

/-- One problem is taken out of those that the tag takes, or none, and the session is as it was when they were made. -/
theorem oneProblem_spec (s : Session) (tag : Tag) (words : WordSupply) :
    (s.oneProblem tag words).1.1 = (s.reroll words).1 ∧ ∀ p, (s.oneProblem tag words).1.2 = some p →
      p ∈ (s.reroll words).1.problems fun tags => Tag.matchesSelection tags [tag] := by
  have hmade : s.oneProblem tag words =
      (if ((s.reroll words).1.problems fun tags => Tag.matchesSelection tags [tag]).isEmpty then
        pure ((s.reroll words).1, none)
      else do
        let pick ← Draw.below ((s.reroll words).1.problems fun tags => Tag.matchesSelection tags [tag]).length
        pure ((s.reroll words).1, ((s.reroll words).1.problems fun tags => Tag.matchesSelection tags [tag])[pick]?) :
          Draw (Session × Option Problem)) (s.reroll words).2 := rfl
  rw [hmade]
  split
  · exact ⟨rfl, nofun⟩
  · exact ⟨rfl, fun p hp => List.mem_of_getElem? hp⟩

theorem perform_keeps (s : Session) (operation : Operation) (words : WordSupply) :
    s.Keeps (s.perform operation words).1.1 := by
  cases operation with
  | reroll => exact s.reroll_keeps words
  | problemsByTag selected => exact s.reroll_keeps words
  | newProblems selected => exact s.reroll_keeps words
  | oneProblem tag =>
    have h := (s.oneProblem_spec tag words).1
    show s.Keeps (s.oneProblem tag words).1.1
    rw [h]
    exact s.reroll_keeps words
  | compile expression => exact .refl s
  | execute => exact .refl s
  | test expression => exact .refl s
  | verify answer math => exact .refl s

/-- What an operation makes, it makes with the values that the session then has. -/
theorem perform_makes (s : Session) (operation : Operation) (words : WordSupply) :
    ∀ p ∈ (s.perform operation words).1.2.made, (s.perform operation words).1.1.Makes p := by
  intro p hp
  cases operation with
  | problemsByTag selected =>
    have hmem : p ∈ (s.reroll words).1.problems fun tags => Tag.matchesSelection tags selected := hp
    exact makes_of_mem (s.reroll_drawn words) hmem
  | newProblems selected =>
    have hmem : p ∈ (s.reroll words).1.problems fun tags => Tag.matchesAny tags selected := hp
    exact makes_of_mem (s.reroll_drawn words) hmem
  | oneProblem tag =>
    obtain ⟨hafter, hmem⟩ := s.oneProblem_spec tag words
    show (s.oneProblem tag words).1.1.Makes p
    rw [hafter]
    exact makes_of_mem (s.reroll_drawn words) (hmem p (Option.mem_toList.mp hp))
  | reroll => cases hp
  | compile expression => cases hp
  | execute => cases hp
  | test expression => cases hp
  | verify answer math => cases hp

/-- Induction on the history: each operation keeps what the next one starts from. -/
theorem course_keeps (history : List (Operation × WordSupply)) :
    ∀ {s t : Session}, t ∈ s.course history → s.Keeps t := by
  induction history with
  | nil =>
    intro s t h
    cases List.mem_singleton.mp h
    exact .refl s
  | cons step history ih =>
    intro s t h
    rcases List.mem_cons.mp h with rfl | h
    · exact .refl t
    · exact (s.perform_keeps step.1 step.2).trans (ih h)

end DrillCode.Session
