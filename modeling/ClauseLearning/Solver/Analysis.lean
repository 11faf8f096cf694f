import ClauseLearning.Conflict.FirstUip
import ClauseLearning.Conflict.Minimisation
import ClauseLearning.Solver.Assignment

/-!
# Learning from a conflict

An analysis turns a falsified clause into a learned clause. Above the root level it resolves the
conflict down to the first unique implication point, shrinks the clause, jumps back to the second
highest level of the clause, where the negation of the implication point is implied, and bumps the
variables met. At the root level a conflict means that the formula has no model.
-/

set_option autoImplicit false

namespace ClauseLearning

/-- What an analysis found: the asserting literal, which is true now, the level that the solver
jumped back to, the glue of the first UIP clause, its size after minimisation, and the stored
clause, unless it has one literal only. -/
structure Learned where
  asserting : Literal
  jump : Nat
  glue : Nat
  size : Nat
  clause : Option ClauseId
  deriving DecidableEq, Repr

/-- How an analysis ends. -/
inductive Outcome where
  | unsatisfiable
  | learned (l : Learned)
  deriving DecidableEq, Repr

namespace Solver

/-- Find the first unique implication point of a conflict and put its negation at the end of the
clause under construction. -/
def deriveClause (s : Solver) (c : ClauseId) : Traced (Solver × Literal) := do
  let (w, uip) ← s.workspace.firstUip s.view c
  Traced.tell (.firstUip uip)
  s.audit.checkBy (s.trail.holdsLearned (w.learned ++ [uip.negate])) .auditLearnedClause
  return ({ s with workspace := { w with learned := w.learned ++ [uip.negate] } }, uip.negate)

/-- Stamp the clauses that were resolved with. -/
def stampResolved (s : Solver) : Except Fault Solver := do
  let (activity, clauses) ← s.workspace.activity.flush s.clauses
  .ok { s with clauses := clauses, workspace := { s.workspace with activity := activity } }

/-- The number of levels of the clause under construction. -/
def currentGlue (s : Solver) : Nat := s.workspace.levels.length

/-- Whether as many levels were met as the clause under construction has. -/
def holdsGlue (s : Solver) : Except Fault Bool := do
  let glue ← s.trail.glueOf s.workspace.learned
  .ok (s.currentGlue == glue)

/-- Count the glue of the clause under construction into the averages. -/
def recordGlue (s : Solver) : Traced Solver := do
  s.audit.checkBy (Traced.ofExcept s.holdsGlue) .auditGlue
  Traced.tell (.firstUipClause s.workspace.learned.length s.currentGlue)
  return { s with counters := s.counters.addGlue s.currentGlue }

/-- Shrink the clause under construction, if the options ask for it. -/
def shrinkClause (s : Solver) : Traced Solver :=
  if s.options.minimise then do
    let (w, kept) ← s.workspace.minimise s.view s.options.minimiseDepth s.workspace.learned
    return { s with
      workspace := { w with learned := kept }
      counters := s.counters.addMinimised (s.workspace.learned.length - kept.length) }
  else return s

/-- Log a learned clause and store it. The answer is its name. -/
def storeLearned (s : Solver) (ls : List Literal) (glue : Nat) : Traced (Solver × ClauseId) := do
  let clause := Clause.ofLearned ls glue (s.options.tracks ls.length glue)
  Traced.tellAll
    (Event.ofWrite .clauseNotLogged (s.proof.logClause ls).2 ++ [.learnedClause clause glue])
  return ({ s with proof := (s.proof.logClause ls).1, clauses := s.clauses.insert clause },
    s.clauses.nextId)

/-- The literals with the latest assigned first. -/
def latestFirst (s : Solver) (ls : List Literal) : List Literal :=
  stableSort (fun a b => Nat.ble (s.trail.position b.var) (s.trail.position a.var)) ls

/-- Store the clause under construction, unless it has one literal only. The answer gives the level
to jump back to, the highest among the literals but the asserting one, and the name of the
clause. -/
def installClause (s : Solver) (asserting : Literal) (glue : Nat) :
    Traced (Solver × Nat × Option ClauseId) :=
  match s.latestFirst s.workspace.learned with
  | first :: second :: rest => do
    s.trail.requireAll (first :: second :: rest)
    Traced.require (first == asserting) .assertingLiteralNotLatest
    let (stored, c) ← s.storeLearned (first :: second :: rest) glue
    return (stored, s.trail.level second.var, some c)
  | _ => return (s, 0, none)

/-- Count the clause under construction by its length. -/
def recordSize (s : Solver) : Solver :=
  { s with counters := s.counters.addLearned s.workspace.learned.length }

/-- Count the level jumped back to into the average. -/
def recordJump (s : Solver) (level : Nat) : Solver :=
  { s with counters := s.counters.addJump level }

/-- Bump the variables of literals one after the other and take their marks away. -/
def bumpAll (s : Solver) : List Literal → Traced Solver
  | [] => return s
  | l :: ls => do
    s.workspace.require l.var
    s.audit.check (s.workspace.isSeen l.var) .auditSeen
    s.trail.require l.var
    let heuristic ← s.heuristic.bump l.var (s.trail.isAssigned l.var)
    bumpAll { s with heuristic := heuristic, workspace := s.workspace.unmarkSeen l.var } ls

/-- The literals met, in the order in which their variables are bumped. -/
def bumpSequence (s : Solver) : Except Fault (List Literal) :=
  s.options.bumpOrder.arrangeKnown s.heuristic.queue s.heuristic.scores s.trail s.workspace.seen

/-- Bump the variables met and raise the increment of the scores. -/
def bumpSeen (s : Solver) : Traced Solver := do
  let sequence ← s.bumpSequence
  let s ← s.bumpAll sequence
  let heuristic ← s.heuristic.decay
  return { s with heuristic := heuristic, workspace := { s.workspace with seen := [] } }

/-- Clear what is left in the workspace after the bumps. -/
def clearWorkspace (s : Solver) : Solver :=
  { s with workspace := { s.workspace with learned := [] }.clearLevels }

/-- Learn a clause from a conflict above the root level. -/
def learn (s : Solver) (c : ClauseId) : Traced (Solver × Learned) := do
  s.audit.check s.workspace.isClear .auditWorkspace
  let conflict ← s.clauses.get c
  Traced.tell (.analysingConflict conflict s.currentLevel)
  let (derived, asserting) ← s.deriveClause c
  let stamped ← derived.stampResolved
  let recorded ← stamped.recordGlue
  let shrunk ← recorded.shrinkClause
  let (installed, jump, clause) ← shrunk.recordSize.installClause asserting derived.currentGlue
  let undone ← (installed.recordJump jump).undo jump
  let asserted ← undone.imply asserting clause
  let bumped ← asserted.bumpSeen
  return (bumped.clearWorkspace,
    { asserting := asserting
      jump := jump
      glue := derived.currentGlue
      size := shrunk.workspace.learned.length
      clause := clause })

/-- Count a conflict. -/
def countConflict (s : Solver) : Solver := { s with counters := s.counters.countConflict }

/-- Learn from a declared conflict; at the root level it means that the formula has no model. -/
def resolveConflict (s : Solver) (c : ClauseId) : Traced (Solver × Outcome) :=
  if s.currentLevel = 0 then do
    let refuted ← s.learnEmpty
    return (refuted, .unsatisfiable)
  else do
    let (next, learned) ← s.learn c
    return ({ next with status := .ready }, .learned learned)

/-- Learn from the declared conflict. Afterwards no conflict is pending, or the formula is known to
have no model. -/
def analyse (s : Solver) : Traced (Solver × Outcome) :=
  match s.status with
  | .unsatisfiable => return (s, .unsatisfiable)
  | .ready => Traced.fault .noDeclaredConflict
  | .conflict c => do
    let (next, outcome) ← s.countConflict.resolveConflict c
    next.auditCursor
    return (next, outcome)

end Solver

end ClauseLearning
