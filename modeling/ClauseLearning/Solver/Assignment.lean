import ClauseLearning.Solver.Basic

/-!
# Assigning and undoing

The operations with which a caller builds the formula and drives the search between two analyses.
Every literal that is fixed at the root, on whatever way, is logged as a derived unit.
-/

set_option autoImplicit false

namespace ClauseLearning

/-- Why a clause is refused: the formula was known to have no model before, or has none with it. -/
inductive ClauseError where
  | infeasibleState
  | infeasibleClause
  deriving DecidableEq, Repr

namespace ClauseError

/-- The sentence that explains a refusal. -/
def message : ClauseError → String
  | infeasibleState => "Adding the clause failed because the solver is in an infeasible state"
  | infeasibleClause => "Adding the clause makes the formula unsatisfiable at the root"

end ClauseError

namespace Solver

/-- Log and count a literal that was fixed at the root; a report on it is owed. -/
def learnUnit (s : Solver) (l : Literal) : Traced Solver := do
  Traced.tellAll (.learnedUnit l :: Event.ofWrite .unitNotLogged (s.proof.logUnit l).2)
  return { s with
    proof := (s.proof.logUnit l).1
    iterating := true
    counters := s.counters.countFixed }

/-- Learn that the formula has no model, which is learned once only. -/
def learnEmpty (s : Solver) : Traced Solver := do
  Traced.require (!s.isUnsatisfiable) .alreadyUnsatisfiable
  Traced.tellAll (.learnedEmpty :: Event.ofWrite .emptyNotLogged s.proof.logEmpty.2)
  return { s with proof := s.proof.logEmpty.1, status := .unsatisfiable }

/-- Assign a literal; at the root it is fixed for good. -/
def imply (s : Solver) (l : Literal) (reason : Option ClauseId) : Traced Solver := do
  let trail ← s.trail.assign l reason
  if s.currentLevel = 0 then (s.withTrail trail).learnUnit l
  else return s.withTrail trail

/-- At the full audit level a reason must imply its literal. -/
def auditReason (s : Solver) (l : Literal) : Option ClauseId → Traced Unit
  | none => return ()
  | some c => s.audit.checkBy (s.trail.holdsReason s.clauses l c) .auditReason

/-- Assign a literal that a clause implies. Without a reason the assignment is unexplained. -/
def assign (s : Solver) (l : Literal) (reason : Option ClauseId) : Traced Solver := do
  s.auditReason l reason
  s.imply l reason

/-- Open a decision level and assign a literal on it. -/
def decide (s : Solver) (l : Literal) : Traced Solver := do
  Traced.require (s.status == .ready) .decisionNotReady
  Traced.tell (.deciding l s.trail.openLevel.currentLevel)
  let trail ← s.trail.openLevel.assignDecision l
  return s.withTrail trail

/-- Decide a literal if no conflict is pending and it has no value. The answer tells whether the
literal was decided. -/
def tryDecide (s : Solver) (l : Literal) : Traced (Solver × Bool) :=
  if s.status = .ready then do
    match ← s.valueOf l with
    | some _ => return (s, false)
    | none =>
      let decided ← s.decide l
      return (decided, true)
  else return (s, false)

/-- The positive literal of the unassigned variable that was moved to the front most recently. -/
def nextDecision (s : Solver) : Except Fault (Solver × Option Literal) := do
  let (queue, v) ← s.heuristic.queue.next s.trail
  .ok ({ s with heuristic := { s.heuristic with queue := queue } }, v.map fun x => ⟨x, true⟩)

/-- At the full audit level no unassigned variable may lie in front of the decision cursor. -/
def auditCursor (s : Solver) : Traced Unit :=
  s.audit.checkBy (Traced.ofExcept (s.heuristic.queue.cursorHolds s.trail)) .auditCursor

/-- Undo the levels above a level that was reached. -/
def undo (s : Solver) (level : Nat) : Except Fault Solver := do
  let (trail, undone) ← s.trail.backtrack level
  let heuristic ← s.heuristic.releaseKnown undone
  .ok { s with trail := trail, heuristic := heuristic }

/-- Undo the levels above a level that was reached, as the caller asks for it. -/
def backtrack (s : Solver) (level : Nat) : Traced Solver := do
  let s ← s.undo level
  s.auditCursor
  return s

/-- Take a variable out of the decision queue for good. -/
def removeFromQueue (s : Solver) (v : Variable) : Except Fault Solver := do
  let queue ← s.heuristic.queue.removeKnown v
  .ok { s with heuristic := { s.heuristic with queue := queue } }

/-- Declare that a clause is falsified. Nothing happens once the formula is known to have no
model. -/
def declareConflict (s : Solver) (c : ClauseId) : Traced Solver :=
  if s.isUnsatisfiable then return s
  else do
    s.audit.checkBy (s.trail.holdsConflict s.clauses c) .auditConflict
    return { s with status := .conflict c }

/-- Take in the distinct literals of a clause that are not false at the root, when none is true. -/
def addRemaining (s : Solver) :
    List Literal → Traced (Solver × Except ClauseError (Option ClauseId))
  | [] => do
    let refuted ← s.learnEmpty
    return (refuted, .error .infeasibleClause)
  | [l] => do
    let fixed ← s.assign l none
    return (fixed, .ok none)
  | ls =>
    return ({ s with clauses := s.clauses.insert (.ofFormula ls) }, .ok (some s.clauses.nextId))

/-- Add a clause to the formula, at the root level. Repeated and false literals are dropped. A
clause that is true at the root or holds a literal and its negation is not stored; a clause of one
literal is assigned and not stored; without any literal the formula has no model. The answer is the
name of the stored clause. -/
def addClause (s : Solver) (ls : List Literal) :
    Traced (Solver × Except ClauseError (Option ClauseId)) := do
  Traced.require (s.currentLevel == 0) .clauseAboveRoot
  if s.isUnsatisfiable then
    return (s, .error .infeasibleState)
  else
    let satisfied ← s.trail.anyTrue (Literal.sortDistinct ls)
    if Literal.hasNeighbourPair (Literal.sortDistinct ls) || satisfied then
      return (s, .ok none)
    else
      s.addRemaining ((Literal.sortDistinct ls).filter fun l => !s.trail.isFalse l)

end Solver

end ClauseLearning
