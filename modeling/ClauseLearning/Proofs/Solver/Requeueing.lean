import ClauseLearning.Proofs.Conflict.Walk
import ClauseLearning.Proofs.Decision.Bumps
import ClauseLearning.Proofs.Solver.Cleanliness

/-!
# What an analysis does to the decision queue

The variables met by an analysis are those above the root that the clauses used mention, in the
order in which they are mentioned first. After the jump and the asserting assignment they are put in
the order of the bumps, and those that are queued are moved to the front one after the other. So the
queue afterwards is known from the trail, the clauses and the heuristic before, and from the order
asked for; whether the clause is shrunk makes no difference.
-/

set_option autoImplicit false

namespace ClauseLearning

namespace BumpOrder

variable {o : BumpOrder} {q : DecisionQueue} {scores : Scores Binary64} {t : Trail}

/-- The number by which an order sorts variables. It is the same for all of them where they stay as
they were met or are reversed. -/
def key (o : BumpOrder) (q : DecisionQueue) (scores : Scores Binary64) (t : Trail)
    (v : Variable) : Nat :=
  match o with
  | unsorted => 0
  | bumpedEarlier => q.stamp v
  | trailSmaller => t.position v
  | bumpedPlusTrail => q.stamp v + t.position v
  | scoreSmaller => (scores.score v).orderKey
  | reverse => 0

/-- The variables in the order of their bumps. -/
def sequence (o : BumpOrder) (q : DecisionQueue) (scores : Scores Binary64) (t : Trail)
    (vs : List Variable) : List Variable :=
  (o.arrange q scores t (vs.map fun v => ⟨v, true⟩)).map Literal.var

/-- Every order but the reverse sorts by its number. -/
theorem arrange_eq_sortByKey (h : o ≠ .reverse) (ls : List Literal) :
    o.arrange q scores t ls = sortByKey (fun l => o.key q scores t l.var) ls := by
  cases o with
  | unsorted => exact (sortByKey_eq_self (fun _ _ => rfl) ls).symm
  | bumpedEarlier => rfl
  | trailSmaller => rfl
  | bumpedPlusTrail => rfl
  | scoreSmaller => rfl
  | reverse => exact absurd rfl h

/-- The variables of positive literals are those they were made of. -/
theorem map_var_positive (vs : List Variable) :
    (vs.map fun v => (⟨v, true⟩ : Literal)).map Literal.var = vs := by
  rw [List.map_map]
  exact List.map_id vs

/-- But for the reverse order, variables are sorted by their keys. -/
theorem sequence_eq_sortByKey (h : o ≠ .reverse) (vs : List Variable) :
    o.sequence q scores t vs = sortByKey (o.key q scores t) vs := by
  unfold sequence
  rw [arrange_eq_sortByKey h, sortByKey_map, map_var_positive]

/-- In the reverse order the variable met first comes last. -/
theorem sequence_reverse (vs : List Variable) :
    reverse.sequence q scores t vs = vs.reverse := by
  show ((vs.map _).reverse).map Literal.var = _
  rw [List.map_reverse, map_var_positive]

/-- The order does not depend on the signs of the literals. -/
theorem sequence_map_var (o : BumpOrder) (ls : List Literal) :
    o.sequence q scores t (ls.map Literal.var) = (o.arrange q scores t ls).map Literal.var := by
  by_cases h : o = .reverse
  · subst h
    rw [sequence_reverse]
    exact List.map_reverse.symm
  · rw [sequence_eq_sortByKey h, arrange_eq_sortByKey h, sortByKey_map]

/-- The order of the bumps lists all variables met. -/
theorem sequence_perm (o : BumpOrder) (vs : List Variable) :
    (o.sequence q scores t vs).Perm vs := by
  have hperm := (o.arrange_perm q scores t (vs.map fun v => ⟨v, true⟩)).map Literal.var
  rwa [map_var_positive] at hperm

end BumpOrder

namespace Heuristic

/-- A bump that succeeds moves the variable in the queue. -/
theorem queue_of_bump {h next : Heuristic} {v : Variable} {assigned : Bool}
    (hok : (h.bump v assigned).result = .ok next) : next.queue = h.queue.bump v assigned := by
  unfold bump at hok
  obtain ⟨queue, hqueue, hok⟩ := Traced.result_bind_eq_ok_iff.1 hok
  obtain ⟨-, rfl⟩ := DecisionQueue.bumpKnown_eq_ok hqueue
  split at hok
  next =>
    obtain ⟨_, -, hok⟩ := Traced.result_bind_eq_ok_iff.1 hok
    obtain ⟨_, -, hok⟩ := Traced.result_bind_eq_ok_iff.1 hok
    obtain rfl := Except.ok.inj hok
    rfl
  next hout =>
    obtain rfl := Except.ok.inj hok
    exact (DecisionQueue.bump_eq_self (Bool.eq_false_iff.2 hout) assigned).symm

end Heuristic

namespace Solver

variable {s next : Solver} {c : ClauseId} {learned : Learned}

/-- The variables of the literals are bumped one after the other. -/
theorem queue_of_bumpAll {ls : List Literal} (hok : (s.bumpAll ls).result = .ok next) :
    next.heuristic.queue = (ls.map Literal.var).foldl
      (fun q v => q.bump v (s.trail.isAssigned v)) s.heuristic.queue := by
  induction ls generalizing s with
  | nil =>
    obtain rfl := Except.ok.inj hok
    rfl
  | cons l ls ih =>
    obtain ⟨_, hbump, hok⟩ := exists_of_bumpAll_cons hok
    rw [ih hok, List.map_cons, List.foldl_cons, ← Heuristic.queue_of_bump hbump]

/-- The variables met are moved one after the other, in the order of the bumps. -/
theorem queue_of_bumpSeen (hok : s.bumpSeen.result = .ok next) :
    next.heuristic.queue = (s.seenInOrder.map Literal.var).foldl
      (fun q v => q.bump v (s.trail.isAssigned v)) s.heuristic.queue := by
  obtain ⟨_, bumped, _, hsequence, hbump, hdecay, rfl⟩ := exists_of_bumpSeen hok
  obtain rfl := bumpSequence_eq_ok hsequence
  unfold Heuristic.decay at hdecay
  obtain ⟨_, -, hdecay⟩ := Traced.result_bind_eq_ok_iff.1 hdecay
  obtain rfl := Except.ok.inj hdecay
  show bumped.heuristic.queue = _
  exact queue_of_bumpAll hbump

/-- The variables met by an analysis, as the clauses that it used tell. -/
def met (s : Solver) (c : ClauseId) (learned : Learned) : List Variable :=
  s.view.met (s.view.resolvedClauses c learned.asserting.negate)

/-- The trail and the heuristic after the jump and the asserting assignment. -/
def jumped (s : Solver) (learned : Learned) : Solver :=
  { s with
    trail := (s.trail.cut learned.jump).push learned.asserting learned.clause
    heuristic := s.heuristic.release (s.trail.above learned.jump) }

/-- The variables met in the order of their bumps, which is read off the state after the jump and
the asserting assignment. -/
def bumped (s : Solver) (c : ClauseId) (learned : Learned) : List Variable :=
  s.options.bumpOrder.sequence (s.jumped learned).heuristic.queue
    (s.jumped learned).heuristic.scores (s.jumped learned).trail (s.met c learned)

/-- The number by which an analysis sorts variables. -/
def bumpKey (s : Solver) (learned : Learned) : Variable → Nat :=
  s.options.bumpOrder.key (s.jumped learned).heuristic.queue (s.jumped learned).heuristic.scores
    (s.jumped learned).trail

/-- The queued variables among those bumped, in the order of their bumps. -/
def requeued (s : Solver) (c : ClauseId) (learned : Learned) : List Variable :=
  (s.bumped c learned).filter s.heuristic.queue.contains

/-- No variable is met twice. -/
theorem nodup_met (s : Solver) (c : ClauseId) (learned : Learned) : (s.met c learned).Nodup :=
  nodup_eraseDups _

/-- What is bumped is what was met. -/
theorem bumped_perm (s : Solver) (c : ClauseId) (learned : Learned) :
    (s.bumped c learned).Perm (s.met c learned) := BumpOrder.sequence_perm _ _

/-- The variables met are those of the literals met on the way to the implication point. -/
theorem Coherent.met_eq {w : Workspace} {uip : Literal} (hs : s.Coherent)
    (hfirst : (s.workspace.firstUip s.view c).result = .ok (w, uip))
    (hasserting : learned.asserting = uip.negate) : s.met c learned = w.seen.map Literal.var := by
  have hused := Workspace.firstUip_used (v := s.view) hs.trail (hs.rests.used hs.marks) c _ hfirst
  unfold met
  rw [hasserting, Literal.negate_negate, hused.met_eq]

/-- An analysis bumps what it met, after it jumped and assigned the asserting literal. -/
theorem Phases.bumps (h : s.Phases c next learned) (hs : s.Coherent) :
    next.trail = (s.jumped learned).trail ∧
      next.heuristic.queue = (s.bumped c learned).foldl
        (fun q v => q.bump v (next.trail.isAssigned v)) (s.jumped learned).heuristic.queue := by
  cases h with
  | @intro derived stamped recorded shrunk installed undone asserted bumped asserting jump clause
    hderive hstamp hrecord hshrink hinstall hundo himply hbump =>
  obtain ⟨w, uip, activity, store, hfirst, rfl, hw, -, -, rfl⟩ :=
    hs.recorded hderive hstamp hrecord
  obtain ⟨kept, counters, hshrunk⟩ := workspace_of_shrinkClause hshrink hs.trail hw rfl
  obtain ⟨proof, store', hinstalled⟩ := next_of_installClause hinstall
  obtain ⟨-, hundone⟩ := undo_eq_ok hundo
  obtain ⟨iterating, counters', hasserted⟩ := (pushes_of_imply himply).next_eq
  -- the jump and the assignment leave what was met and the order of the bumps alone
  have hsame : asserted.trail = (s.trail.cut jump).push uip.negate clause ∧
      asserted.heuristic = s.heuristic.release (s.trail.above jump) ∧
      asserted.options = s.options ∧ asserted.workspace.seen = w.seen := by
    rw [hasserted, hundone, hinstalled, hshrunk]
    exact ⟨rfl, rfl, rfl, rfl⟩
  obtain ⟨htrail, hheuristic, hoptions, hseen⟩ := hsame
  have hqueue := queue_of_bumpSeen hbump
  obtain ⟨heuristic, workspace, rfl⟩ := next_of_bumpSeen hbump
  refine ⟨htrail, hqueue.trans ?_⟩
  unfold seenInOrder bumped
  rw [hs.met_eq hfirst rfl, ← BumpOrder.sequence_map_var, hheuristic, htrail, hoptions, hseen]
  rfl

/-- The jump and the asserting assignment move only the cursor of the queue. -/
theorem queue_jumped (s : Solver) (learned : Learned) :
    ∃ cursor, (s.jumped learned).heuristic.queue = { s.heuristic.queue with cursor := cursor } :=
  ⟨_, DecisionQueue.foldl_release_eq _ _⟩

/-- Those requeued are the queued variables among those met. -/
theorem mem_requeued (hs : s.Coherent) {v : Variable} :
    v ∈ s.requeued c learned ↔ v ∈ s.heuristic.queue.toList ∧ v ∈ s.met c learned := by
  unfold requeued
  rw [List.mem_filter, hs.serves.ordered.contains_iff, (bumped_perm s c learned).mem_iff, and_comm]

/-- No variable is requeued twice. -/
theorem nodup_requeued (s : Solver) (c : ClauseId) (learned : Learned) :
    (s.requeued c learned).Nodup :=
  ((bumped_perm s c learned).nodup_iff.2 (nodup_met s c learned)).filter _

/-- Of the queue, those requeued are left out if those met are. -/
theorem filter_not_mem_requeued (hs : s.Coherent) :
    (s.heuristic.queue.toList.filter fun v => v ∉ s.requeued c learned) =
      s.heuristic.queue.toList.filter fun v => v ∉ s.met c learned :=
  List.filter_congr fun v hv => by simp [mem_requeued hs, hv]

/-- What an analysis did to the decision queue. The variables bumped are those met, in stable order
by a number that is read off the state after the jump and the asserting assignment, or in reverse.
Those of them that are queued were moved to the front one after the other. By the stamps this keeps
their order in the queue, and in reverse the queued variable met first ends up frontmost. -/
structure Requeues (s : Solver) (c : ClauseId) (learned : Learned) (next : Solver) : Prop where
  trail_eq : next.trail = (s.jumped learned).trail
  perm : (s.bumped c learned).Perm (s.met c learned)
  ascending : s.options.bumpOrder ≠ .reverse →
    (s.bumped c learned).Pairwise fun v w => s.bumpKey learned v ≤ s.bumpKey learned w
  stable : s.options.bumpOrder ≠ .reverse → ∀ n,
    ((s.bumped c learned).filter fun v => s.bumpKey learned v == n) =
      (s.met c learned).filter fun v => s.bumpKey learned v == n
  reversed : s.options.bumpOrder = .reverse → s.bumped c learned = (s.met c learned).reverse
  moves : s.heuristic.queue.MovesToFront (s.requeued c learned) next.heuristic.queue
  keeps_order : s.options.bumpOrder = .bumpedEarlier → next.heuristic.queue.toList =
    (s.heuristic.queue.toList.filter fun v => v ∈ s.met c learned) ++
      s.heuristic.queue.toList.filter fun v => v ∉ s.met c learned
  frontmost : s.options.bumpOrder = .reverse → ∀ v,
    (s.met c learned).find? s.heuristic.queue.contains = some v →
      next.heuristic.queue.toList.head? = some v

/-- Sorted by their stamps, the queued variables met come in the order of the queue. -/
theorem reverse_requeued (hs : s.Coherent) (horder : s.options.bumpOrder = .bumpedEarlier) :
    (s.requeued c learned).reverse =
      s.heuristic.queue.toList.filter fun v => v ∈ s.met c learned := by
  have hserves := hs.serves
  have hmem : ∀ v, v ∈ (s.requeued c learned).reverse ↔
      v ∈ s.heuristic.queue.toList.filter fun v => v ∈ s.met c learned := by
    intro v
    rw [List.mem_reverse, mem_requeued hs, List.mem_filter, decide_eq_true_eq]
  have hperm := (List.perm_ext_iff_of_nodup (List.nodup_reverse.2 (nodup_requeued s c learned))
    (hserves.ordered.nodup.filter _)).2 hmem
  have hsorted : (s.requeued c learned).reverse.Pairwise fun v w =>
      s.heuristic.queue.stamp w ≤ s.heuristic.queue.stamp v := by
    obtain ⟨cursor, hqueue⟩ := s.queue_jumped learned
    rw [List.pairwise_reverse]
    unfold requeued bumped
    rw [horder, BumpOrder.sequence_eq_sortByKey (by simp), hqueue]
    exact (pairwise_sortByKey _ _).filter _
  have hqueued := (hserves.ordered.descending.filter fun v => v ∈ s.met c learned).imp Nat.le_of_lt
  refine List.Perm.eq_of_pairwise (fun v w hv hw hle hge => ?_) hsorted hqueued hperm
  exact hserves.ordered.eq_of_stamp_eq (List.mem_filter.1 ((hmem v).1 hv)).1
    (List.mem_filter.1 hw).1 (Nat.le_antisymm hge hle)

/-- An analysis that learns moves the queued variables among those met to the front. -/
theorem Phases.requeues (h : s.Phases c next learned) (hs : s.Coherent) :
    s.Requeues c learned next := by
  obtain ⟨htrail, hfold⟩ := h.bumps hs
  have hmoves : s.heuristic.queue.MovesToFront (s.requeued c learned) next.heuristic.queue := by
    have hordered := (hs.serves.release hs.trail learned.jump).1.ordered
    have hdistinct := (bumped_perm s c learned).nodup_iff.2 (nodup_met s c learned)
    obtain ⟨-, hmoved⟩ := hordered.foldl_bump next.trail.isAssigned hdistinct
    rw [hfold]
    obtain ⟨cursor, hqueue⟩ := s.queue_jumped learned
    have hreleased : s.heuristic.release (s.trail.above learned.jump) =
        (s.jumped learned).heuristic := rfl
    rw [hreleased, hqueue] at hmoved
    rw [hqueue]
    exact ⟨hmoved.toList_eq, hmoved.numBumps_eq, hmoved.stamp_eq, hmoved.others⟩
  refine ⟨htrail, bumped_perm s c learned, fun horder => ?_, fun horder n => ?_, fun horder => ?_,
    hmoves, fun horder => ?_, fun horder v hv => ?_⟩
  · unfold bumped
    rw [BumpOrder.sequence_eq_sortByKey horder]
    exact pairwise_sortByKey _ _
  · unfold bumped
    rw [BumpOrder.sequence_eq_sortByKey horder]
    exact filter_sortByKey _ n _
  · unfold bumped
    rw [horder, BumpOrder.sequence_reverse]
  · rw [hmoves.toList_eq, reverse_requeued hs horder, filter_not_mem_requeued hs]
  · rw [hmoves.toList_eq]
    unfold requeued bumped
    rw [horder, BumpOrder.sequence_reverse, List.filter_reverse, List.reverse_reverse,
      List.head?_append, List.head?_filter, hv]
    rfl

/-- In a state of a legal run, an analysis that learns puts the queued variables among those it met
to the front of the decision queue, in the reverse order of their bumps. They get the next stamps,
and no other variable changes its stamp or its place among the others. -/
theorem LegalRun.analyse_requeues {o : Options} {audit : AuditLevel} {proof : ProofLog}
    {start : Solver} {F : Formula} (hnew : Solver.new o audit proof = .ok start)
    (hrun : LegalRun start F s) (hok : s.analyse.result = .ok (next, .learned learned)) :
    ∃ c, s.status = .conflict c ∧ s.Requeues c learned next := by
  have hs := hrun.grounded hnew
  cases course_of_analyse hok with
  | @learned c mid _ hstatus _ hlearn =>
    have hcounted : s.countConflict.Coherent := hs.toCoherent.congr rfl hs.serves rfl
    exact ⟨c, hstatus, { (phases_of_learn hlearn).requeues hcounted with }⟩

/-- A conflict mentions the decision of its level, whose variable was taken out of the queue, the
literal implied by it and the decision of the level below. -/
def requeueingRun : List Operation :=
  [.newVariable, .newVariable, .newVariable, .newVariable, .newVariable,
    .addClause [⟨1, false⟩, ⟨3, false⟩, ⟨2, true⟩], .addClause [⟨2, false⟩, ⟨1, false⟩, ⟨3, false⟩],
    .removeFromQueue 1, .decide ⟨3, true⟩, .decide ⟨1, true⟩, .assign ⟨2, true⟩ (some 0),
    .declareConflict 1]

/-- The variable met first is not queued, and the second one ends up frontmost. -/
theorem requeueingRun_analyse_requeues : ∃ F s learned next,
    runLegal [] (Solver.empty { bumpOrder := .reverse } .full ⟨some {}⟩) requeueingRun =
        some (F, s) ∧
      s.analyse.result = .ok (next, .learned learned) ∧ s.Requeues 1 learned next ∧
      s.met 1 learned = [1, 2, 3] ∧ s.heuristic.queue.toList = [4, 3, 2, 0] ∧
      next.heuristic.queue.toList = [2, 3, 4, 0] := by
  have hnew : Solver.new { bumpOrder := .reverse } .full ⟨some {}⟩ =
      .ok (Solver.empty { bumpOrder := .reverse } .full ⟨some {}⟩) := rfl
  have hend : ((runLegal [] (Solver.empty { bumpOrder := .reverse } .full ⟨some {}⟩)
      requeueingRun).bind fun p => p.2.analyse.result.toOption.map fun q =>
        ((q.2, p.2.status), p.2.met 1 ⟨⟨1, false⟩, 1, 2, 2, some 2⟩, p.2.heuristic.queue.toList,
          q.1.heuristic.queue.toList)) =
      some ((.learned ⟨⟨1, false⟩, 1, 2, 2, some 2⟩, .conflict 1), [1, 2, 3], [4, 3, 2, 0],
        [2, 3, 4, 0]) := by decide +kernel
  obtain ⟨⟨F, s⟩, hrun, hend⟩ := Option.bind_eq_some_iff.1 hend
  obtain ⟨⟨next, outcome⟩, hanalyse, hend⟩ := Option.map_eq_some_iff.1 hend
  simp only [Prod.mk.injEq] at hend
  obtain ⟨⟨rfl, hstatus⟩, hmet, hqueue, hnext⟩ := hend
  have hok := toOption_eq_some_iff.1 hanalyse
  obtain ⟨c, hpending, hrequeues⟩ :=
    LegalRun.analyse_requeues hnew (LegalRun.start.of_runLegal hrun) hok
  obtain rfl : c = 1 := Status.conflict.inj (hpending.symm.trans hstatus)
  exact ⟨F, s, _, next, hrun, hok, hrequeues, hmet, hqueue, hnext⟩

end Solver

end ClauseLearning
