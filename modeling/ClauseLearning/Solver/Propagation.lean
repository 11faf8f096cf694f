import ClauseLearning.Solver.Assignment

/-!
# Propagation

A clause whose literals are all false but one implies that one. Propagation looks through all
clauses again and again and assigns what they imply, until a clause is falsified or a pass assigns
nothing. A pass that assigns something uses up a variable, which bounds the number of passes.
-/

set_option autoImplicit false

namespace ClauseLearning

/-- What a clause asks for under an assignment: nothing if a literal is true, the impossible if all
are false, one literal if all others are false, and nothing yet otherwise. -/
inductive ClauseStanding where
  | satisfied
  | falsified
  | unit (l : Literal)
  | undetermined
  deriving DecidableEq, Repr

namespace Trail

/-- What a clause without a true literal asks for, by its literals that are not false. -/
def demand (t : Trail) (ls : List Literal) : ClauseStanding :=
  match ls.filter fun l => !t.isFalse l with
  | [] => .falsified
  | [l] => .unit l
  | _ => .undetermined

/-- What a clause asks for under the assignments of the trail. -/
def standing (t : Trail) (ls : List Literal) : Except Fault ClauseStanding := do
  let satisfied ← t.anyTrue ls
  .ok (if satisfied then .satisfied else t.demand ls)

end Trail

namespace Solver

/-- Look through clauses once and assign what they imply, up to the first falsified clause. -/
def propagatePass (s : Solver) : List (ClauseId × Clause) → Traced (Solver × Option ClauseId)
  | [] => return (s, none)
  | (c, clause) :: rest => do
    match ← s.trail.standing clause.literals with
    | .falsified => return (s, some c)
    | .unit l =>
      let s ← s.assign l (some c)
      s.propagatePass rest
    | _ => s.propagatePass rest

/-- Look through all clauses until a pass assigns nothing, for at most a number of passes. -/
def propagateFor : Nat → Solver → Traced (Solver × Option ClauseId)
  | 0, _ => Traced.fault .roundsExhausted
  | rounds + 1, s => do
    let (next, conflict) ← s.propagatePass s.clauses.entries
    if conflict.isSome || next.trail.length == s.trail.length then
      return (next, conflict)
    else
      propagateFor rounds next

/-- Assign what the clauses imply until nothing is left to assign. The answer is a falsified
clause, if one was met. -/
def propagate (s : Solver) : Traced (Solver × Option ClauseId) :=
  propagateFor (s.numVariables + 1) s

end Solver

end ClauseLearning
