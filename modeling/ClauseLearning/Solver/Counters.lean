import ClauseLearning.Options

/-!
# Counters

Figures about the analyses so far. None of them influences the search.
-/

set_option autoImplicit false

namespace ClauseLearning

/-- The figures kept about the analyses so far: conflicts, literals fixed at the root, learned
clauses of one and of two literals, literals removed by minimisation, the fast and the slow average
of the glue, and the average backjump level and clause length. -/
structure Counters where
  conflicts : Nat := 0
  fixed : Nat := 0
  learnedUnits : Nat := 0
  learnedBinaries : Nat := 0
  minimised : Nat := 0
  fastGlue : ExponentialAverage
  slowGlue : ExponentialAverage
  jump : ExponentialAverage
  length : CumulativeAverage := {}
  deriving DecidableEq, Repr

namespace Counters

/-- The figures before the first analysis. -/
def start (o : Options) : Counters :=
  { fastGlue := .ofWeight o.fastGlueWeight
    slowGlue := .ofWeight o.slowGlueWeight
    jump := .ofWeight o.jumpWeight }

/-- One more conflict. -/
def countConflict (c : Counters) : Counters := { c with conflicts := c.conflicts + 1 }

/-- One more literal fixed at the root. -/
def countFixed (c : Counters) : Counters := { c with fixed := c.fixed + 1 }

/-- The averages of the glue after one more clause. -/
def addGlue (c : Counters) (glue : Nat) : Counters :=
  { c with
    fastGlue := c.fastGlue.add (.ofNat glue)
    slowGlue := c.slowGlue.add (.ofNat glue) }

/-- More literals that minimisation removed. -/
def addMinimised (c : Counters) (count : Nat) : Counters :=
  { c with minimised := c.minimised + count }

/-- One more learned clause of a given size. -/
def addLearned (c : Counters) (size : Nat) : Counters :=
  { c with
    learnedUnits := c.learnedUnits + if size = 1 then 1 else 0
    learnedBinaries := c.learnedBinaries + if size = 2 then 1 else 0
    length := c.length.add size }

/-- The average backjump level after one more jump. -/
def addJump (c : Counters) (level : Nat) : Counters := { c with jump := c.jump.add (.ofNat level) }

end Counters

end ClauseLearning
