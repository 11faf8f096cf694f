import ClauseLearning.Fault
import ClauseLearning.Number.Binary64

/-!
# Moving averages

An exponential average moves towards every new term by a fixed part of the distance. A cumulative
average is the mean of all terms so far.
-/

set_option autoImplicit false

namespace ClauseLearning

/-- An average that moves towards every new term by `weight` times its distance to the term, so
that a large weight forgets fast. -/
structure ExponentialAverage where
  weight : Binary64
  value : Binary64 := 0
  deriving DecidableEq, Repr

namespace ExponentialAverage

/-- Weights lie above zero and are at most one. -/
def isWeight (w : Binary64) : Bool := Binary64.zero.isLess w && w.isAtMost Binary64.one

/-- The average before any term. -/
def ofWeight (w : Binary64) : ExponentialAverage := { weight := w }

/-- The average before any term, for a weight that may be out of range. -/
def ofWeight? (w : Binary64) : Except Fault ExponentialAverage :=
  if isWeight w then .ok (ofWeight w) else .error .invalidWeight

/-- Move the average towards a term. -/
def add (a : ExponentialAverage) (term : Binary64) : ExponentialAverage :=
  { a with value := a.value + a.weight * (term - a.value) }

end ExponentialAverage

/-- The mean of natural numbers, kept as their sum and their number. -/
structure CumulativeAverage where
  sum : Nat := 0
  count : Nat := 0
  deriving DecidableEq, Repr

namespace CumulativeAverage

/-- Take in a term. -/
def add (a : CumulativeAverage) (term : Nat) : CumulativeAverage :=
  { sum := a.sum + term, count := a.count + 1 }

/-- The mean of the terms, zero if there are none. -/
def value (a : CumulativeAverage) : Binary64 :=
  if a.count = 0 then 0 else Binary64.ofNat a.sum / Binary64.ofNat a.count

end CumulativeAverage

end ClauseLearning
