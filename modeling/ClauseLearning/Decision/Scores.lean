import ClauseLearning.Arena
import ClauseLearning.Number.Binary64

/-!
# Activity scores

Every variable has a score. A bump adds the current increment to it, and after every conflict the
increment is divided by the decay factor, so that recent bumps weigh more. When a score or the
increment gets too large, all scores and the increment are divided by the increment; as that is a
division by one positive number, it keeps the order of the scores.

The scores are written over any type of numbers with sum, quotient and a test for numbers above
`10 ^ 100`, so that one definition serves the rounded arithmetic of the solver and exact
arithmetic.
-/

set_option autoImplicit false

namespace ClauseLearning

/-- The numbers that scores are made of. Too large is what is above `10 ^ 100`. -/
class ScoreNumber (α : Type) extends Zero α, One α, Add α, Div α where
  isTooLarge : α → Bool

instance : ScoreNumber Binary64 where
  isTooLarge x := Binary64.isLess ⟨0x54b249ad2594c37d⟩ x

/-- The scores of all variables, what the next bump adds, what this increment is divided by after a
conflict, and how often all scores were divided. -/
structure Scores (α : Type) where
  table : Arena α
  increment : α
  decayFactor : α
  numRescales : Nat := 0
  deriving DecidableEq, Repr

namespace Scores

variable {α : Type} [ScoreNumber α]

/-- The scores before any variable exists. -/
def start (decayFactor : α) : Scores α :=
  { table := .empty, increment := 1, decayFactor := decayFactor }

/-- The score of a variable, zero if it has none. -/
def score (s : Scores α) (v : Variable) : α := (s.table.get? v).getD 0

/-- Whether a variable has a score. -/
def knows (s : Scores α) (v : Variable) : Bool := s.table.knows v

/-- Go on only with a variable that has a score. -/
def require (s : Scores α) (v : Variable) : Except Fault Unit :=
  if s.knows v then .ok () else .error (.unknownVariable v)

/-- Give a variable the score zero, if it has none, and all variables before it. -/
def grow (s : Scores α) (v : Variable) : Scores α := { s with table := s.table.accommodate v 0 }

/-- Divide all scores and the increment by the increment. -/
def rescale (s : Scores α) : Scores α :=
  { s with
    table := s.table.map fun x => x / s.increment
    increment := 1
    numRescales := s.numRescales + 1 }

/-- Add the increment to the score of a variable, and rescale if the score is too large then. -/
def bump (s : Scores α) (v : Variable) : Scores α :=
  let raised := { s with table := s.table.modify v fun x => x + s.increment }
  if ScoreNumber.isTooLarge (raised.score v) then raised.rescale else raised

/-- Divide the increment by the decay factor, and rescale if it is too large then. -/
def decay (s : Scores α) : Scores α :=
  let raised := { s with increment := s.increment / s.decayFactor }
  if ScoreNumber.isTooLarge raised.increment then raised.rescale else raised

/-- A variable has a score exactly if it has a place in the table. -/
theorem require_eq_ok_iff {α : Type} {s : Scores α} {v : Variable} {u : Unit} :
    s.require v = .ok u ↔ v < s.table.size := by
  unfold require knows Arena.knows
  by_cases h : v < s.table.size <;> simp [h]

/-- A new variable has a score afterwards, like all variables before it. -/
@[simp] theorem size_grow (s : Scores α) (v : Variable) :
    (s.grow v).table.size = max s.table.size (v + 1) := Arena.size_accommodate _ _ _

/-- Rescaling changes no variable's having a score. -/
@[simp] theorem size_rescale (s : Scores α) : s.rescale.table.size = s.table.size :=
  Arena.size_map _ _

/-- A bump gives no further variable a score. -/
@[simp] theorem size_bump (s : Scores α) (v : Variable) :
    (s.bump v).table.size = s.table.size := by
  unfold bump
  dsimp only
  split <;> simp

/-- A decay gives no further variable a score. -/
@[simp] theorem size_decay (s : Scores α) : s.decay.table.size = s.table.size := by
  unfold decay
  dsimp only
  split <;> simp

end Scores

namespace Binary64

/-- Decay factors lie strictly between zero and one. -/
def isDecayFactor (d : Binary64) : Bool := zero.isLess d && d.isLess one

end Binary64

end ClauseLearning
