import ClauseLearning.Solver.Basic

/-!
# Reports

A progress report is one event with the main figures. The statistics are a list of named figures.
-/

set_option autoImplicit false

namespace ClauseLearning

namespace Solver

/-- The figures of a progress report made for a reason. -/
def progress (s : Solver) (tag : Char) : Progress :=
  { tag := tag
    conflicts := s.counters.conflicts
    learned := s.clauses.numLearned
    fixed := s.counters.fixed
    remaining := s.numRemaining
    fastGlue := s.counters.fastGlue.value
    slowGlue := s.counters.slowGlue.value
    jump := s.counters.jump.value }

/-- Go on only if no more literals are fixed at the root than there are variables. -/
def requireRemaining (s : Solver) : Except Fault Unit :=
  if s.trail.numRoot ≤ s.numVariables then .ok () else .error .moreFixedThanCreated

/-- Tell a progress report made for a reason. -/
def report (s : Solver) (tag : Char) : Traced Unit := do
  s.requireRemaining
  Traced.tell (.progress (s.progress tag))

/-- Report that the consequences of literals fixed at the root are propagated. -/
def iterate (s : Solver) : Traced Solver := do
  let s := { s with iterating := false }
  s.report 'i'
  return s

/-- The statistics: named figures in a fixed order. -/
def statistics (s : Solver) : List (String × String) :=
  [("numberOfConflicts", toString s.counters.conflicts),
    ("numberOfFixedVariables", toString s.counters.fixed),
    ("numberOfLearnedUnitClauses", toString s.counters.learnedUnits),
    ("numberOfLearnedBinaryClauses", toString s.counters.learnedBinaries),
    ("numberOfMinimisedLiterals", toString s.counters.minimised),
    ("averageLearnedClauseLength", s.counters.length.value.text),
    ("fastGlueAverage", s.counters.fastGlue.value.text),
    ("slowGlueAverage", s.counters.slowGlue.value.text),
    ("backjumpLevelAverage", s.counters.jump.value.text),
    ("numberOfVariables", toString s.numVariables),
    ("numberOfClauses", toString s.clauses.size),
    ("numberOfLearnedClauses", toString s.clauses.numLearned),
    ("numberOfBumps", toString s.heuristic.queue.numBumps),
    ("numberOfRescores", toString s.heuristic.scores.numRescales),
    ("scoreIncrement", s.heuristic.scores.increment.text),
    ("numberOfResolvedClauseStamps", toString s.workspace.activity.numStamps)]

/-- The lines of the statistics, each after a given opening. -/
def statisticsLines (s : Solver) (opening : String) : List String :=
  s.statistics.map fun (name, figure) => opening ++ name ++ "=" ++ figure

end Solver

end ClauseLearning
