import ClauseLearning.Decision.Heuristic
import ClauseLearning.Proofs.Decision.Choice
import ClauseLearning.Proofs.Trail.Operations
import ClauseLearning.Proofs.Yields

/-!
# The heuristic and the trail

The heuristic *serves* a trail if its queue is in order, has a place and a score for every variable
of the trail, and the queued variables in front of the cursor are assigned. Every operation keeps
this up, and only the removal of a variable takes one out of the queue.
-/

set_option autoImplicit false

namespace ClauseLearning

namespace DecisionQueue

variable {q : DecisionQueue} {vs : List Variable}

/-- A new variable has a place in the queue afterwards. -/
theorem size_grow (q : DecisionQueue) (v : Variable) :
    (q.grow v).links.size = max q.links.size (v + 1) := by
  show ((({ q with links := _, stamps := _ } : DecisionQueue).enqueue v).links).size = _
  rw [Chains.size_enqueue]
  exact Arena.size_accommodate _ _ _

/-- Taking a variable out keeps its place. -/
theorem size_remove (q : DecisionQueue) (v : Variable) :
    (q.remove v).links.size = q.links.size := by
  unfold remove
  split
  · rw [Chains.size_dequeue, links_leaveCursor]
  · rfl

/-- A bump takes no place. -/
theorem size_bump (q : DecisionQueue) (v : Variable) (assigned : Bool) :
    (q.bump v assigned).links.size = q.links.size := by
  have hmoved : ((q.leaveCursor v).moveToFront v).links.size = q.links.size := by
    rw [Chains.size_moveToFront, links_leaveCursor]
  unfold bump
  split
  · cases assigned <;> exact hmoved
  · rfl

/-- Releases move the cursor only. -/
theorem foldl_release_eq (ls : List Literal) (q : DecisionQueue) :
    ls.foldl (fun p l => p.release l.var) q =
      { q with cursor := (ls.foldl (fun p l => p.release l.var) q).cursor } := by
  induction ls generalizing q with
  | nil => rfl
  | cons l ls ih =>
    rw [List.foldl_cons]
    refine (ih _).trans ?_
    rw [release_eq]

/-- What holds of the variables in front of the cursor may be weakened. -/
theorem Passed.mono {P Q : Variable → Prop} (h : q.Passed vs P) (hPQ : ∀ v, P v → Q v) :
    q.Passed vs Q := fun v hv hfront => hPQ v (h v hv hfront)

end DecisionQueue

namespace Heuristic

/-- The queue is in order and knows the variables of the trail. -/
structure Serves (h : Heuristic) (t : Trail) : Prop where
  ordered : h.queue.Represents h.queue.toList
  passed : h.queue.Passed h.queue.toList fun v => t.isAssigned v = true
  places : h.queue.links.size = t.numVariables
  scored : h.scores.table.size = t.numVariables

namespace Serves

variable {h : Heuristic} {t : Trail}

/-- The heuristic without variables serves the empty trail. -/
theorem start (decayFactor : Binary64) : (Heuristic.start decayFactor).Serves {} where
  ordered := by
    have hrep := DecisionQueue.represents_empty
    exact hrep.toList_eq ▸ hrep
  passed := by
    intro v hv
    have hnil := DecisionQueue.represents_empty.toList_eq
    exact absurd (hnil ▸ hv : v ∈ []) List.not_mem_nil
  places := rfl
  scored := rfl

/-- A queue that represents some list is in order. -/
theorem of_represents {queue : DecisionQueue} {scores : Scores Binary64} {vs : List Variable}
    (hrep : queue.Represents vs) (hpassed : queue.Passed vs fun v => t.isAssigned v = true)
    (hplaces : queue.links.size = t.numVariables) (hscored : scores.table.size = t.numVariables) :
    Serves ⟨queue, scores⟩ t := by
  have heq : queue.toList = vs := hrep.toList_eq
  exact ⟨heq.symm ▸ hrep, heq.symm ▸ hpassed, hplaces, hscored⟩

/-- Only variables that were created are queued. -/
theorem lt_numVariables (hs : h.Serves t) {v : Variable} (hv : v ∈ h.queue.toList) :
    v < t.numVariables := hs.places ▸ hs.ordered.known v hv

/-- More may be assigned at any time. -/
theorem mono (hs : h.Serves t) {t' : Trail} (hnum : t'.numVariables = t.numVariables)
    (hassigned : ∀ v, t.isAssigned v = true → t'.isAssigned v = true) : h.Serves t' :=
  ⟨hs.ordered, hs.passed.mono hassigned, hs.places.trans hnum.symm, hs.scored.trans hnum.symm⟩

/-- An assignment keeps the service. -/
theorem push (hs : h.Serves t) {l : Literal} (hknown : l.var < t.numVariables)
    (r : Option ClauseId) : h.Serves (t.push l r) :=
  hs.mono (Trail.numVariables_push t l r) fun v hv =>
    (Trail.isAssigned_push hknown v).2 (Or.inr hv)

/-- A new level keeps the service. -/
theorem openLevel (hs : h.Serves t) : h.Serves t.openLevel := hs.mono rfl fun _ hv => hv

/-- A new variable is queued at the front, and the heuristic serves the trail that has it. -/
theorem grow (hs : h.Serves t) :
    (h.grow t.numVariables).Serves t.grow ∧
      (h.grow t.numVariables).queue.toList = t.numVariables :: h.queue.toList := by
  have hnew : t.numVariables ∉ h.queue.toList := fun hv =>
    Nat.lt_irrefl _ (hs.lt_numVariables hv)
  have hrep := hs.ordered.grow hnew
  refine ⟨of_represents hrep (hs.ordered.passed_grow hnew _) ?_ ?_, hrep.toList_eq⟩
  · rw [DecisionQueue.size_grow, hs.places, Trail.numVariables_grow]
    exact Nat.max_eq_right (Nat.le_succ _)
  · show (h.scores.table.accommodate t.numVariables 0).size = _
    rw [Arena.size_accommodate, hs.scored, Trail.numVariables_grow]
    exact Nat.max_eq_right (Nat.le_succ _)

/-- A new variable can always be queued. -/
theorem growKnown_eq (hs : h.Serves t) (v : Variable) : h.growKnown v = .ok (h.grow v) :=
  Fault.bind_eq_ok_iff.2 ⟨_, hs.ordered.growKnown_eq v, rfl⟩

/-- Taking a variable out of the queue keeps the service. -/
theorem remove (hs : h.Serves t) (v : Variable) :
    ({ h with queue := h.queue.remove v } : Heuristic).Serves t ∧
      (h.queue.remove v).toList = h.queue.toList.erase v := by
  have hrep := hs.ordered.remove v
  refine ⟨of_represents hrep (hs.ordered.passed_remove v hs.passed) ?_ hs.scored,
    hrep.toList_eq⟩
  rw [DecisionQueue.size_remove, hs.places]

/-- Undoing assignments moves the cursor in front of the variables that become free. -/
theorem release (hs : h.Serves t) (ht : t.WellFormed) (level : Nat) :
    (h.release (t.above level)).Serves (t.cut level) ∧
      (h.release (t.above level)).queue.toList = h.queue.toList := by
  obtain ⟨hrep, hpassed⟩ := hs.ordered.foldl_release (t.above level) hs.passed
  refine ⟨of_represents hrep (hpassed.mono fun v hv => ?_) ?_ ?_, hrep.toList_eq⟩
  · rw [ht.isAssigned_cut]
    refine ⟨hv.1, Nat.le_of_not_lt fun hlt => ?_⟩
    obtain ⟨l, hl, hlv⟩ := List.any_eq_true.1 (ht.any_above_iff.2 ⟨hv.1, hlt⟩)
    exact hv.2 l hl (beq_iff_eq.1 hlv).symm
  · rw [DecisionQueue.foldl_release_eq, hs.places, Trail.numVariables_cut]
  · rw [Trail.numVariables_cut]
    exact hs.scored

/-- Every variable that becomes unassigned by a cut has a place, so it can be released. -/
theorem releaseKnown_eq (hs : h.Serves t) (ht : t.WellFormed) (level : Nat) :
    h.releaseKnown (t.above level) = .ok (h.release (t.above level)) := by
  have hplaced : ∀ l ∈ t.above level, l.var < h.queue.links.size := by
    intro l hl
    rw [hs.places]
    exact ht.lt_numVariables_of_mem_above hl
  exact Fault.bind_eq_ok_iff.2 ⟨_, hs.ordered.releaseAll_eq hplaced, rfl⟩

/-- A bump succeeds and keeps the queued variables. -/
theorem bump_yields (hs : h.Serves t) {v : Variable} (hv : v < t.numVariables) :
    (h.bump v (t.isAssigned v)).Yields fun next =>
      next.Serves t ∧ ∀ x, x ∈ next.queue.toList ↔ x ∈ h.queue.toList := by
  have hscore : h.scores.require v = .ok () := Scores.require_eq_ok_iff.2 (hs.scored.symm ▸ hv)
  have hbump := hs.ordered.bumpKnown_eq (hs.places.symm ▸ hv) (t.isAssigned v)
  unfold Heuristic.bump
  refine .bind (.lift hbump (Eq.refl (h.queue.bump v (t.isAssigned v)))) ?_
  rintro _ rfl
  split
  next hcontains =>
    have hmem := hs.ordered.contains_iff.1 hcontains
    obtain ⟨hrep, -⟩ := hs.ordered.bump hmem (t.isAssigned v)
    have hpassed := hs.ordered.passed_bump hmem hs.passed fun hassigned => hassigned
    refine .bind (.lift (P := fun _ => True) hscore trivial) fun _ _ =>
      .bind (.tellAll _) fun _ _ => .pure ⟨of_represents hrep hpassed ?_ ?_, fun x => ?_⟩
    · rw [DecisionQueue.size_bump, hs.places]
    · rw [Scores.size_bump, hs.scored]
    · rw [hrep.toList_eq, List.mem_cons]
      by_cases hx : x = v
      · simp [hx, hmem]
      · simp [hx, List.mem_erase_of_ne hx]
  next => exact .pure ⟨hs, fun _ => Iff.rfl⟩

/-- A decay leaves the queue as it is. -/
theorem decay_yields (hs : h.Serves t) :
    h.decay.Yields fun next => next.Serves t ∧ next.queue = h.queue := by
  unfold Heuristic.decay
  refine .bind (.tellAll _) fun _ _ => .pure ⟨⟨hs.ordered, hs.passed, hs.places, ?_⟩, rfl⟩
  rw [Scores.size_decay, hs.scored]

/-- The search for a decision finds a queued variable that is free, or all of them are assigned. -/
theorem exists_next (hs : h.Serves t) :
    ∃ queue found, h.queue.next t = .ok (queue, found) ∧
      ({ h with queue := queue } : Heuristic).Serves t ∧ queue.toList = h.queue.toList ∧
      (∀ v, found = some v → v < t.numVariables ∧ t.isAssigned v = false) ∧
      (found = none → ∀ v ∈ h.queue.toList, t.isAssigned v = true) := by
  obtain ⟨found, hnext, hrep, hpassed, hsome, hnone⟩ :=
    hs.ordered.next_spec (fun v hv => hs.lt_numVariables hv) hs.passed
  refine ⟨_, found, hnext, of_represents hrep hpassed hs.places hs.scored, hrep.toList_eq, ?_,
    hnone⟩
  intro v hv
  obtain ⟨hmem, hfree⟩ := hsome v hv
  exact ⟨hs.lt_numVariables hmem, hfree⟩

/-- Whatever a search finds, it moves the cursor only. -/
theorem of_next (hs : h.Serves t) {queue : DecisionQueue} {found : Option Variable}
    (hok : h.queue.next t = .ok (queue, found)) :
    ({ h with queue := queue } : Heuristic).Serves t ∧ queue.toList = h.queue.toList := by
  obtain ⟨queue', found', hok', hserves, hqueue, -⟩ := hs.exists_next
  obtain ⟨rfl, rfl⟩ := Prod.mk.inj (Except.ok.inj (hok.symm.trans hok'))
  exact ⟨hserves, hqueue⟩

/-- The audit of the cursor passes for a heuristic that serves the trail. -/
theorem cursorHolds_eq (hs : h.Serves t) : h.queue.cursorHolds t = .ok true :=
  hs.ordered.cursorHolds_eq (fun _ hv => hs.lt_numVariables hv) hs.passed

end Serves

end Heuristic

end ClauseLearning
