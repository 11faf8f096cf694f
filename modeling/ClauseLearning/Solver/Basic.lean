import ClauseLearning.Conflict.Workspace
import ClauseLearning.Decision.Heuristic
import ClauseLearning.Solver.Counters

/-!
# The solver

The solver owns the trail, the clauses, the decision heuristic and the workspace of the analysis.
It does not propagate by itself: its caller decides, assigns implied literals and declares the
conflict that it finds; the analysis then learns a clause.
-/

set_option autoImplicit false

namespace ClauseLearning

/-- Where the search stands. The status that the formula has no model is never left. -/
inductive Status where
  | ready
  | conflict (c : ClauseId)
  | unsatisfiable
  deriving DecidableEq, Repr

/-- The solver. It is iterating if a literal was fixed at the root since the latest report on it. -/
structure Solver where
  options : Options
  audit : AuditLevel
  status : Status := .ready
  iterating : Bool := false
  trail : Trail := {}
  clauses : ClauseStore := {}
  heuristic : Heuristic
  workspace : Workspace := {}
  proof : ProofLog
  counters : Counters
  deriving DecidableEq, Repr

namespace Solver

/-- A solver without variables and clauses. -/
def empty (o : Options) (audit : AuditLevel) (proof : ProofLog) : Solver :=
  { options := o
    audit := audit
    heuristic := .start o.decay
    proof := proof
    counters := .start o }

/-- A solver without variables and clauses, if the options are in range. -/
def new (o : Options) (audit : AuditLevel) (proof : ProofLog) : Except OptionsError Solver := do
  o.validate
  .ok (empty o audit proof)

/-- What an analysis may know of the solver. -/
def view (s : Solver) : View :=
  { trail := s.trail, clauses := s.clauses, options := s.options, audit := s.audit }

/-- The number of variables created. -/
def numVariables (s : Solver) : Nat := s.trail.numVariables

/-- The number of variables that are not fixed at the root. -/
def numRemaining (s : Solver) : Nat := s.numVariables - s.trail.numRoot

/-- The number of decision levels that are open. -/
def currentLevel (s : Solver) : Nat := s.trail.currentLevel

/-- Whether the formula is known to have no model. -/
def isUnsatisfiable (s : Solver) : Bool := s.status == .unsatisfiable

/-- Whether a conflict is pending. -/
def isConflicting (s : Solver) : Bool :=
  match s.status with
  | .conflict _ => true
  | _ => false

/-- The solver with another trail. -/
def withTrail (s : Solver) (t : Trail) : Solver := { s with trail := t }

/-- The variable that is created next. -/
def nextVariable (s : Solver) : Variable := s.numVariables

/-- Create the next variable. It is unassigned and the first in the decision queue. -/
def newVariable (s : Solver) : Solver :=
  let v := s.nextVariable
  { s with
    trail := s.trail.grow
    heuristic := s.heuristic.grow v
    workspace := s.workspace.grow v }

/-- Create the next variable, where the front of the decision queue is in its arena. -/
def createVariable (s : Solver) : Except Fault Solver := do
  let heuristic ← s.heuristic.growKnown s.nextVariable
  .ok { s.newVariable with heuristic := heuristic }

/-- Create variables one after the other. -/
def createVariables (s : Solver) : Nat → Except Fault Solver
  | 0 => .ok s
  | n + 1 => do
    let next ← s.createVariable
    next.createVariables n

/-- Create variables one after the other. The answer lists their positive literals. -/
def newLiterals (s : Solver) (n : Nat) : Except Fault (Solver × List Literal) := do
  let next ← s.createVariables n
  .ok (next, (List.range' s.nextVariable n).map fun v => ⟨v, true⟩)

/-- The value of a literal of an existing variable, if it has one. -/
def valueOf (s : Solver) (l : Literal) : Except Fault (Option Bool) := do
  s.trail.require l.var
  .ok (s.trail.value l)

/-- What is known about the assignment of a variable that must exist. -/
def cellOf (s : Solver) (v : Variable) : Except Fault Cell := do
  s.trail.require v
  .ok (s.trail.cell v)

/-- The literals of a clause that must be stored. -/
def literalsOf (s : Solver) (c : ClauseId) : Except Fault (List Literal) := do
  let clause ← s.clauses.get c
  .ok clause.literals

end Solver

end ClauseLearning
