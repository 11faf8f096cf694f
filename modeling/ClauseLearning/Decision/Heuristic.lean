import ClauseLearning.Decision.BumpOrder
import ClauseLearning.Traced

/-!
# Bumping

A bump moves a variable to the front of the decision queue and raises its score. Variables that
left the queue are not bumped at all.
-/

set_option autoImplicit false

namespace ClauseLearning

/-- The data from which decisions are made: the variables in the order of their moves to the front,
and their scores. -/
structure Heuristic where
  queue : DecisionQueue := {}
  scores : Scores Binary64
  deriving DecidableEq, Repr

namespace Heuristic

/-- The heuristic before any variable exists. -/
def start (decayFactor : Binary64) : Heuristic := { scores := .start decayFactor }

/-- The heuristic before any variable exists, for a decay factor that may be out of range. -/
def ofDecay (decayFactor : Binary64) : Except Fault Heuristic :=
  if decayFactor.isDecayFactor then .ok (start decayFactor) else .error .invalidDecay

/-- Queue a new variable and give it a score. -/
def grow (h : Heuristic) (v : Variable) : Heuristic :=
  { queue := h.queue.grow v, scores := h.scores.grow v }

/-- The message owed if the second scores come from the first by a division of all scores. -/
def rescaleEvents (before after : Scores Binary64) : List Event :=
  if before.numRescales < after.numRescales then [.rescored after.numRescales] else []

/-- Queue a new variable and give it a score, where the front of the queue is in its arena. -/
def growKnown (h : Heuristic) (v : Variable) : Except Fault Heuristic := do
  let queue ← h.queue.growKnown v
  .ok { queue := queue, scores := h.scores.grow v }

/-- Move a variable to the front and raise its score. A variable that is not queued is left
alone. -/
def bump (h : Heuristic) (v : Variable) (assigned : Bool) : Traced Heuristic := do
  let queue ← h.queue.bumpKnown v assigned
  if h.queue.contains v then
    h.scores.require v
    Traced.tellAll (rescaleEvents h.scores (h.scores.bump v) ++ [.bumped v])
    return { queue := queue, scores := h.scores.bump v }
  else return h

/-- Raise the score of a variable and leave the queue as it is. -/
def bumpScore (h : Heuristic) (v : Variable) : Traced Heuristic := do
  h.scores.require v
  Traced.tellAll (rescaleEvents h.scores (h.scores.bump v))
  return { h with scores := h.scores.bump v }

/-- Raise the increment of the scores, and tell if all scores were divided. -/
def decay (h : Heuristic) : Traced Heuristic := do
  Traced.tellAll (rescaleEvents h.scores h.scores.decay)
  return { h with scores := h.scores.decay }

/-- Keep the cursor right while variables become unassigned, in the given order. -/
def release (h : Heuristic) (ls : List Literal) : Heuristic :=
  { h with queue := ls.foldl (fun q l => q.release l.var) h.queue }

/-- Keep the cursor right while variables of the arena become unassigned, in the given order. -/
def releaseKnown (h : Heuristic) (ls : List Literal) : Except Fault Heuristic := do
  let queue ← h.queue.releaseAll ls
  .ok { h with queue := queue }

/-- A new variable is queued and scored as by the operation that does not look. -/
theorem growKnown_eq_ok {h next : Heuristic} {v : Variable} (hok : h.growKnown v = .ok next) :
    next = h.grow v := by
  obtain ⟨queue, hqueue, hok⟩ := Fault.bind_eq_ok_iff.1 hok
  obtain rfl := DecisionQueue.growKnown_eq_ok hqueue
  exact (Except.ok.inj hok).symm

/-- Releases keep the scores and release the variables one after the other. -/
theorem releaseKnown_eq_ok {h next : Heuristic} {ls : List Literal}
    (hok : h.releaseKnown ls = .ok next) : next = h.release ls := by
  obtain ⟨queue, hqueue, hok⟩ := Fault.bind_eq_ok_iff.1 hok
  obtain rfl := DecisionQueue.releaseAll_eq_ok hqueue
  exact (Except.ok.inj hok).symm

end Heuristic

end ClauseLearning
