import ClauseLearning.Proofs.Decision.Releases
import ClauseLearning.Proofs.Search.Moves
import ClauseLearning.Proofs.Trail.Undoing

/-!
# Undoing levels in steps

A backtrack may pause at any level on its way down: the state at the end is the same in every
detail, the positions of free variables and the cursor of the decision queue included. For the trail
this is how its levels nest. The cursor follows the undone literals one by one from the latest, and
those above the upper level are the first ones of those above the lower level.

For the cursor even more is true: releases in any order leave it at the same place.
-/

set_option autoImplicit false

namespace ClauseLearning

/-- Releases come one after the other. -/
theorem Heuristic.release_append (h : Heuristic) (ls ks : List Literal) :
    h.release (ls ++ ks) = (h.release ls).release ks := by
  unfold release
  rw [List.foldl_append]

namespace Solver

variable {s mid start : Solver} {ops : List Operation}

/-- Levels can be undone in steps or at once, and undoing none of them changes nothing; nor does it
matter in which order the decision queue hears of the undone variables. -/
structure BacktracksInSteps (s : Solver) : Prop where
  composes : ∀ level lower, lower ≤ level → level ≤ s.currentLevel → ∃ mid next,
    (s.backtrack level).result = .ok mid ∧ (mid.backtrack lower).result = .ok next ∧
      (s.backtrack lower).result = .ok next
  stays : (s.backtrack s.currentLevel).result = .ok s
  releases : s.heuristic.queue.ReleasesInAnyOrder

/-- The levels up to the one undone to are still reached. -/
theorem le_currentLevel_of_undo {level lower : Nat} (hle : lower ≤ level)
    (hundo : s.undo level = .ok mid) : lower ≤ mid.currentLevel := by
  obtain ⟨hlevel, rfl⟩ := undo_eq_ok hundo
  show lower ≤ (s.trail.cut level).currentLevel
  rw [Trail.currentLevel_cut]
  exact Nat.le_min.2 ⟨hle, Nat.le_trans hle hlevel⟩

/-- The levels between two levels are undone first. -/
theorem Coherent.undo_undo (h : s.Coherent) {level lower : Nat} (hle : lower ≤ level)
    (hundo : s.undo level = .ok mid) : mid.undo lower = s.undo lower := by
  have hlower := le_currentLevel_of_undo hle hundo
  have hmid := h.undo hundo
  obtain ⟨hlevel, rfl⟩ := undo_eq_ok hundo
  rw [undo_eq hmid.trail hmid.serves hlower,
    undo_eq h.trail h.serves (Nat.le_trans hle hlevel)]
  show Except.ok ({ s with trail := _, heuristic := _ } : Solver) =
    .ok { s with trail := _, heuristic := _ }
  rw [h.trail.cut_cut hle, ← Heuristic.release_append, ← h.trail.above_eq_append hle]

/-- Nothing is above the current level. -/
theorem Coherent.undo_currentLevel (h : s.Coherent) : s.undo s.currentLevel = .ok s := by
  rw [undo_eq h.trail h.serves (Nat.le_refl _)]
  show Except.ok ({ s with
    trail := s.trail.cut s.trail.currentLevel
    heuristic := s.heuristic.release (s.trail.above s.trail.currentLevel) } : Solver) = .ok s
  rw [Trail.cut_currentLevel, Trail.above_currentLevel]
  rfl

/-- A backtrack to a level that was reached does what undoing does; the audit passes. -/
theorem Coherent.result_backtrack (h : s.Coherent) {level : Nat} (hle : level ≤ s.currentLevel) :
    (s.backtrack level).result = s.undo level := by
  obtain ⟨next, hok, hundo⟩ := backtrack_yields h hle
  exact hok.trans hundo.symm

/-- In a coherent solver levels can be undone in steps. -/
theorem Coherent.backtracksInSteps (h : s.Coherent) : s.BacktracksInSteps where
  composes := by
    intro level lower hle hlevel
    obtain ⟨mid, hmid, hundo⟩ := backtrack_yields h hlevel
    obtain ⟨next, hnext, hundo'⟩ :=
      backtrack_yields (h.undo hundo) (le_currentLevel_of_undo hle hundo)
    refine ⟨mid, next, hmid, hnext, ?_⟩
    rw [h.result_backtrack (Nat.le_trans hle hlevel), ← h.undo_undo hle hundo]
    exact hundo'
  stays := (h.result_backtrack (Nat.le_refl _)).trans h.undo_currentLevel
  releases := h.serves.ordered.releasesInAnyOrder

/-- In every state that operations lead to from a new solver levels can be undone in steps; and
every decision queue that its operations lead to hears of released variables in any order. -/
theorem Run.backtrack_composes {o : Options} {audit : AuditLevel} {proof : ProofLog}
    (hnew : Solver.new o audit proof = .ok start) (hrun : Run unrestricted start ops s)
    {requests : List QueueOperation} {q : DecisionQueue}
    (hqueue : DecisionQueue.Run requests q) : s.BacktracksInSteps ∧ q.ReleasesInAnyOrder := by
  obtain rfl := eq_empty_of_new hnew
  have h := hrun.coherent (grounded_empty o audit proof).toCoherent
  exact ⟨h.backtracksInSteps, hqueue.represents.releasesInAnyOrder⟩

/-- Three levels, of which the second has an implied literal, while the cursor stays behind and a
variable left the queue. -/
def descendingRun : List Operation :=
  [.newVariable, .newVariable, .newVariable, .newVariable, .newVariable,
    .addClause [⟨3, false⟩, ⟨1, true⟩], .nextDecision, .decide ⟨4, false⟩, .decide ⟨3, true⟩,
    .assign ⟨1, true⟩ (some 0), .nextDecision, .removeFromQueue 3, .decide ⟨2, false⟩,
    .nextDecision]

/-- After the run three levels can be undone in steps. -/
theorem descendingRun_backtrack_composes : ∃ s q,
    runBy unrestricted (Solver.empty {} .full ⟨some {}⟩) descendingRun = some s ∧
      DecisionQueue.runFrom {} DecisionQueue.shufflingRun = some q ∧
      s.BacktracksInSteps ∧ q.ReleasesInAnyOrder ∧ s.currentLevel = 3 := by
  have hnew : Solver.new {} .full ⟨some {}⟩ = .ok (Solver.empty {} .full ⟨some {}⟩) := rfl
  have hend : ((runBy unrestricted (Solver.empty {} .full ⟨some {}⟩) descendingRun).map
      currentLevel) = some 3 := by decide +kernel
  obtain ⟨s, hrun, hlevel⟩ := Option.map_eq_some_iff.1 hend
  obtain ⟨q, hqueue⟩ := Option.isSome_iff_exists.1 (by decide +kernel :
    (DecisionQueue.runFrom {} DecisionQueue.shufflingRun).isSome = true)
  obtain ⟨hsteps, hreleases⟩ := Run.backtrack_composes hnew (Run.start.of_runBy hrun)
    (DecisionQueue.Run.start.of_runFrom hqueue)
  exact ⟨s, q, hrun, hqueue, hsteps, hreleases, hlevel⟩

end Solver

end ClauseLearning
