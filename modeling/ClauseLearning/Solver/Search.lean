import ClauseLearning.Solver.Analysis
import ClauseLearning.Solver.Propagation
import ClauseLearning.Solver.Report

/-!
# Search

The plain search for a model: propagate, learn from the conflict if there is one, decide
otherwise.

The loops are bounded by numbers that are computed from the state. An analysis lowers the decision
level. A round of the search makes the sequence of the trail's lengths at its levels
lexicographically larger, and for `n` variables there are fewer than `2 ^ (n + 1)` such sequences.
-/

set_option autoImplicit false

namespace ClauseLearning

/-- How a search ends: whether a model was found, and the outcomes of the analyses on the way. -/
structure SearchResult where
  satisfiable : Bool
  outcomes : List Outcome
  deriving DecidableEq, Repr

namespace Solver

/-- Declare a false clause and learn from it. -/
def analyseConflict (s : Solver) (c : ClauseId) : Traced (Solver × Outcome) := do
  let declared ← s.declareConflict c
  declared.analyse

/-- Propagate and learn from conflicts until there is none, for at most a number of rounds. -/
def settleFor : Nat → Solver → Traced (Solver × List Outcome)
  | 0, _ => Traced.fault .roundsExhausted
  | rounds + 1, s =>
    if s.isUnsatisfiable then return (s, [])
    else do
      let (propagated, conflict) ← s.propagate
      match conflict with
      | none => return (propagated, [])
      | some c =>
        let (analysed, outcome) ← propagated.analyseConflict c
        let (settled, outcomes) ← settleFor rounds analysed
        return (settled, outcome :: outcomes)

/-- Propagate and learn from conflicts until there is none or the formula is known to have no
model. -/
def settle (s : Solver) : Traced (Solver × List Outcome) := settleFor (s.currentLevel + 2) s

/-- Report on literals fixed at the root, if there are new ones. -/
def reportFixed (s : Solver) : Traced Solver := if s.iterating then s.iterate else return s

/-- Search for a model for at most a number of rounds. -/
def solveFor : Nat → Solver → Traced (Solver × SearchResult)
  | 0, _ => Traced.fault .roundsExhausted
  | rounds + 1, s =>
    if s.isUnsatisfiable then return (s, { satisfiable := false, outcomes := [] })
    else do
      let (propagated, conflict) ← s.propagate
      match conflict with
      | some c =>
        let (analysed, outcome) ← propagated.analyseConflict c
        let (solved, result) ← solveFor rounds analysed
        return (solved, { result with outcomes := outcome :: result.outcomes })
      | none =>
        let reported ← propagated.reportFixed
        let (searched, decision) ← reported.nextDecision
        match decision with
        | none => return (searched, { satisfiable := true, outcomes := [] })
        | some l =>
          let decided ← searched.decide l
          solveFor rounds decided

/-- The number of rounds that a search can take. -/
def roundBound (s : Solver) : Nat := 1 <<< (s.numVariables + 1)

/-- Search for a model. -/
def solve (s : Solver) : Traced (Solver × SearchResult) := solveFor (s.roundBound + 1) s

/-- Whether all variables are assigned and every stored clause has a true literal. -/
def isModel (s : Solver) : Bool :=
  (List.range s.numVariables).all s.trail.isAssigned &&
    s.clauses.toList.all fun c => c.literals.any s.trail.isTrue

end Solver

end ClauseLearning
