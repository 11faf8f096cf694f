import ClauseLearning.Literal

/-!
# Faults

A fault is a violated precondition: the caller asked for something that has no answer, or an audit
of the library's own state failed. A fault ends the operation that raised it. Each cause has its
own constructor; `Fault.message` gives the sentence for those causes that have one.
-/

set_option autoImplicit false

namespace ClauseLearning

/-- The cause of a fault: something named does not exist, a precondition does not hold, an analysis
met what it cannot resolve, an audit failed, or a loop used up the rounds computed for it. -/
inductive Fault where
  | unknownVariable (v : Variable)
  | unknownClause (c : ClauseId)
  | unknownTrailPosition (i : Nat)
  | unknownClausePosition (i : Nat)
  | unknownKey (k : Nat)
  | clauseAboveRoot
  | alreadyAssigned (l : Literal)
  | decisionAtRoot
  | decisionNotReady
  | levelNotReached
  | noDeclaredConflict
  | alreadyUnsatisfiable
  | noLiteralOfCurrentLevel
  | decisionResolved
  | trailExhausted
  | assertingLiteralNotLatest
  | emptyClause
  | shortLearnedClause
  | noStamp
  | moreFixedThanCreated
  | invalidDecay
  | invalidWeight
  | auditReason
  | auditConflict
  | auditWorkspace
  | auditResolvedLiteral
  | auditStamp
  | auditLearnedClause
  | auditGlue
  | auditSeen
  | auditCursor
  | roundsExhausted
  deriving DecidableEq, Repr

namespace Fault

/-- The sentence that explains a fault, for the causes that have one. -/
def message : Fault → Option String
  | clauseAboveRoot => some "Clauses can only be added at the root level"
  | alreadyAssigned l => some ("Cannot assign " ++ l.text ++ ", its variable is already assigned")
  | decisionAtRoot => some "Decisions can only be made above the root level"
  | noDeclaredConflict => some "Conflict analysis requires a declared conflict"
  | noLiteralOfCurrentLevel =>
    some "The conflict must contain a literal of the current decision level"
  | decisionResolved => some "Only the first UIP can be a decision"
  | _ => none

/-- A sequence ends with a value exactly when both parts do. -/
theorem bind_eq_ok_iff {α β : Type} {r : Except Fault α} {f : α → Except Fault β} {b : β} :
    (r >>= f) = .ok b ↔ ∃ a, r = .ok a ∧ f a = .ok b := by
  cases r <;> simp [bind, Except.bind]

/-- What is checked before a value is given decides whether it is given. -/
theorem bind_ok_eq_ok_iff {α : Type} {r : Except Fault Unit} {a b : α} :
    (r >>= fun _ => .ok a) = .ok b ↔ r = .ok () ∧ b = a := by
  cases r <;> simp [bind, Except.bind, eq_comm]

/-- A list of checks passes exactly if each of them does. -/
theorem forM_eq_ok_iff {α : Type} {f : α → Except Fault Unit} {as : List α} {u : Unit} :
    as.forM f = .ok u ↔ ∀ a ∈ as, f a = .ok () := by
  induction as with
  | nil => simp [pure, Except.pure]
  | cons a as ih =>
    have hcons : (a :: as).forM f = (f a >>= fun _ => as.forM f) := rfl
    rw [hcons, bind_eq_ok_iff, List.forall_mem_cons]
    simp only [ih, exists_and_right]
    cases f a <;> simp

end Fault

end ClauseLearning
