import ClauseLearning.Audit
import ClauseLearning.Options

/-!
# Clause activity

Learned clauses are used again and again, some more than others. Every tracked clause that takes
part in an analysis gets a new stamp at its end. The clauses are stamped in the order of their
previous stamps, so stamping moves them to the end of the order by stamps and keeps their order
among themselves.
-/

set_option autoImplicit false

namespace ClauseLearning

/-- The clauses that wait for a stamp, and the number of stamps given, which is the latest stamp. -/
structure Activity where
  pending : List ClauseId := []
  numStamps : Nat := 0
  deriving DecidableEq, Repr

namespace Activity

/-- Remember a clause that takes part in an analysis. Clauses of the formula and clauses that are
kept anyway are passed over. -/
def mark (a : Activity) (audit : AuditLevel) (o : Options) (c : ClauseId) (clause : Clause) :
    Traced Activity :=
  if clause.learned && o.tracks clause.size clause.glue then do
    audit.check clause.tracked .auditStamp
    return { a with pending := a.pending ++ [c] }
  else return a

/-- Stamp clauses one after the other, from the stamp after a given one on. -/
def stampAll (s : ClauseStore) (stamps : Nat) : List ClauseId → Except Fault ClauseStore
  | [] => .ok s
  | c :: cs => do
    let next ← s.setStamp c (stamps + 1)
    stampAll next (stamps + 1) cs

/-- Go on only with a stored clause that is tracked. -/
def requireStamp (s : ClauseStore) (c : ClauseId) : Except Fault Unit := do
  let clause ← s.get c
  let _ ← clause.getStamp
  .ok ()

/-- What the order by stamps compares: the stamps of all waiting clauses, if there are several. -/
def requireStamps (a : Activity) (s : ClauseStore) : Except Fault Unit :=
  if 2 ≤ a.pending.length then a.pending.forM (requireStamp s) else .ok ()

/-- The stamp of a stored clause that is tracked. -/
def stampOf (s : ClauseStore) (c : ClauseId) : Nat := (s.get? c).elim 0 Clause.stamp

/-- The waiting clauses in the order of their stamps; equal stamps stay in the order of waiting. -/
def inStampOrder (a : Activity) (s : ClauseStore) : List ClauseId :=
  sortByKey (stampOf s) a.pending

/-- Give the waiting clauses the next stamps, in the order of their previous ones. -/
def flush (a : Activity) (s : ClauseStore) : Except Fault (Activity × ClauseStore) := do
  a.requireStamps s
  let stamped ← stampAll s a.numStamps (a.inStampOrder s)
  .ok ({ pending := [], numStamps := a.numStamps + a.pending.length }, stamped)

end Activity

end ClauseLearning
