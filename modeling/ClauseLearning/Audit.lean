import ClauseLearning.Traced
import ClauseLearning.Trail

/-!
# Audits

The library can check its own state while it works. The basic level checks only what a caller can
get wrong; the full level also checks that clauses, reasons and marks are what the analysis takes
them to be. An audit that fails is a fault, and some tell first what they found.
-/

set_option autoImplicit false

namespace ClauseLearning

/-- How much the library checks of its own state: nothing beyond the preconditions of the caller, or
everything. -/
inductive AuditLevel where
  | basic
  | full
  deriving DecidableEq, Repr

namespace AuditLevel

/-- At the full level a condition must hold; at the basic level it is not evaluated. -/
@[macro_inline] def check (a : AuditLevel) (c : Bool) (e : Fault) : Traced Unit :=
  Traced.require (a == .basic || c) e

/-- At the full level a computed condition must hold; at the basic level it is not computed. -/
def checkBy (a : AuditLevel) (m : Traced Bool) (e : Fault) : Traced Unit :=
  match a with
  | .basic => pure ()
  | .full => m >>= fun c => Traced.require c e

/-- At the basic level every check passes; at the full level those whose condition holds do. -/
theorem result_check_eq_ok_iff {a : AuditLevel} {c : Bool} {e : Fault} {u : Unit} :
    (a.check c e).result = .ok u ↔ a = .basic ∨ c = true := by
  rw [check, Traced.result_require_eq_ok_iff]
  cases a <;> simp

/-- At the basic level every check passes; at the full level those whose condition is computed to
hold do. -/
theorem result_checkBy_eq_ok_iff {a : AuditLevel} {m : Traced Bool} {e : Fault} {u : Unit} :
    (a.checkBy m e).result = .ok u ↔ a = .basic ∨ m.result = .ok true := by
  cases a
  · simp [checkBy]
  · simp only [checkBy, Traced.result_bind_eq_ok_iff, Traced.result_require_eq_ok_iff]
    simp

end AuditLevel

namespace Trail

/-- The first literal of a list that is not false. The literals after it are not looked at. -/
def findUnfalsified (t : Trail) : List Literal → Except Fault (Option Literal)
  | [] => .ok none
  | l :: ls => do
    t.require l.var
    if t.isFalse l then t.findUnfalsified ls else .ok (some l)

/-- The number of literals of the current level. -/
def countCurrent (t : Trail) (ls : List Literal) : Nat :=
  ls.countP fun l => t.level l.var == t.currentLevel

/-- Whether a list of literals is a first UIP clause: its variables are distinct, all literals are
false and exactly one belongs to the current level. The first failure is told. -/
def holdsLearned (t : Trail) (ls : List Literal) : Traced Bool :=
  if (ls.map Literal.var).eraseDups.length = ls.length then do
    match ← t.findUnfalsified ls with
    | some l =>
      Traced.tell (.unfalsifiedLiteral l)
      return false
    | none =>
      if t.countCurrent ls = 1 then
        return true
      else
        Traced.tell (.literalsAtLevel ls (t.countCurrent ls))
        return false
  else do
    Traced.tell (.repeatedVariable ls)
    return false

/-- Whether a stored clause implies a literal: the clause contains it and its other literals are
false. -/
def holdsReason (t : Trail) (s : ClauseStore) (l : Literal) (c : ClauseId) : Traced Bool := do
  let clause ← s.get c
  if clause.literals.contains l then
    let unfalsified ← t.findUnfalsified (clause.literals.filter fun k => !(k == l))
    return unfalsified.isNone
  else
    Traced.tell (.reasonWithoutLiteral c l)
    return false

/-- Whether all literals of a stored clause are false. -/
def holdsConflict (t : Trail) (s : ClauseStore) (c : ClauseId) : Traced Bool := do
  let clause ← s.get c
  let unfalsified ← t.findUnfalsified clause.literals
  return unfalsified.isNone

end Trail

end ClauseLearning
