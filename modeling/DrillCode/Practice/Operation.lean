import DrillCode.Practice.Session

/-! # Operations on a session

What can be asked of a session, and what it answers. A history is a list of operations, each with the
words it draws from; the session goes from one to the next, and the answers are kept in order. -/

namespace DrillCode

/-- What can be asked of a session. -/
inductive Operation where
  | reroll
  | compile (expression : String)
  | execute
  | test (expression : String)
  /-- Makes the problems that a selection takes. -/
  | problemsByTag (selected : List Tag)
  /-- Makes the problems with any of the selected tags. -/
  | newProblems (selected : List Tag)
  /-- Makes one of the problems that a tag takes. -/
  | oneProblem (tag : Tag)
  /-- Compares an answer with the value of a problem's expression. -/
  | verify (answer : Float) (math : String)

namespace Operation

def rerolls : Operation → Bool
  | reroll | problemsByTag _ | newProblems _ | oneProblem _ => true
  | compile _ | execute | test _ | verify _ _ => false

end Operation

inductive Answer where
  | rerolled
  | compiled (result : Except SessionError Program)
  | reports (reports : List Report)
  | problems (problems : List Problem)
  | verified (verification : Verification)

namespace Answer

def made : Answer → List Problem
  | problems made => made
  | _ => []

end Answer

namespace Session

/-- Performs an operation: the session afterwards, and its answer. -/
def perform (s : Session) : (operation : Operation) → Draw (Session × Answer)
  | .reroll => do
    let s ← s.reroll
    pure (s, .rerolled)
  | .compile expression => pure (s, .compiled (Session.compile expression))
  | .execute => pure (s, .reports s.execute)
  | .test expression => pure (s, .reports [s.test expression])
  | .problemsByTag selected => do
    let (s, problems) ← s.problemsByTag selected
    pure (s, .problems problems)
  | .newProblems selected => do
    let (s, problems) ← s.newProblems selected
    pure (s, .problems problems)
  | .oneProblem tag => do
    let (s, problem) ← s.oneProblem tag
    pure (s, .problems problem.toList)
  | .verify answer math => pure (s, .verified (s.verifyExpression answer math))

/-- Performs operations one after the other: each answer with the session right after it. -/
def performAll (s : Session) : (history : List (Operation × WordSupply)) → List (Session × Answer)
  | [] => []
  | (operation, words) :: history =>
    let (next, _) := s.perform operation words
    next :: next.1.performAll history

end Session
end DrillCode
