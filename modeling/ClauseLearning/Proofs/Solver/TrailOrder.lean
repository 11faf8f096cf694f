import ClauseLearning.Proofs.Solver.Requeueing
import ClauseLearning.Proofs.Solver.Shrinking

/-!
# Bumps in the order of the trail

The variables met are put in the order of the bumps after the jump, when some of them are free again
and one has a new place. Ordered by their positions they are bumped in the order of the trail at the
conflict nevertheless. Variables that were undone keep the position that they had. The variable of
the asserting literal gets the place at which its new level ends; before that place are all met
variables of lower levels, as none of them is above the level jumped to, and after it the others of
its old level, as the first unique implication point is the first of them on the trail.
-/

set_option autoImplicit false

namespace ClauseLearning

namespace Trail

variable {t : Trail} {jump : Nat} {a : Literal} {vs : List Variable}

/-- Assigned variables around a jump: one is above the level jumped to, and every other one either
belongs to a level that is kept or stands after it. -/
structure Straddles (t : Trail) (jump : Nat) (x : Variable) (vs : List Variable) : Prop where
  assigned : ∀ v ∈ vs, t.isAssigned v = true
  mem : x ∈ vs
  jump_lt : jump < t.level x
  apart : ∀ v ∈ vs, v ≠ x → t.level v ≤ jump ∨ t.position x < t.position v

namespace Straddles

/-- The asserted variable exists after the jump. -/
theorem lt_numVariables_cut (h : t.Straddles jump a.var vs) :
    a.var < (t.cut jump).numVariables := by
  rw [numVariables_cut]
  exact lt_numVariables_of_isAssigned (h.assigned _ h.mem)

variable (ht : t.WellFormed) (h : t.Straddles jump a.var vs) (r : Option ClauseId)

include ht h

/-- Only the variable that is assigned anew changes its position. -/
theorem position_eq (v : Variable) : ((t.cut jump).push a r).position v =
    if a.var = v then t.lengthAt jump else t.position v := by
  rw [position_push h.lt_numVariables_cut, length_cut, ht.position_cut,
    Nat.min_eq_left (ht.lengthAt_le jump)]

/-- The jump and the assignment do not change the order of the positions. -/
theorem position_lt_iff {v w : Variable} (hv : v ∈ vs) (hw : w ∈ vs) :
    ((t.cut jump).push a r).position v < ((t.cut jump).push a r).position w ↔
      t.position v < t.position w := by
  have hplace : t.lengthAt jump ≤ t.position a.var := by
    rw [← Nat.not_lt, ← ht.level_le_iff (h.assigned _ h.mem)]
    exact Nat.not_le.2 h.jump_lt
  -- the old and the new place of the variable are at the same side of every other one
  have hside : ∀ x ∈ vs, a.var ≠ x →
      t.position x < t.lengthAt jump ∨ t.position a.var < t.position x := by
    intro x hx hne
    rw [← ht.level_le_iff (h.assigned x hx)]
    exact h.apart x hx hne.symm
  rw [h.position_eq ht, h.position_eq ht]
  by_cases hav : a.var = v
  · by_cases haw : a.var = w
    · rw [if_pos hav, if_pos haw, ← hav, ← haw]
      exact iff_of_false (Nat.lt_irrefl _) (Nat.lt_irrefl _)
    · rw [if_pos hav, if_neg haw, ← hav]
      have := hside w hw haw
      omega
  · by_cases haw : a.var = w
    · rw [if_neg hav, if_pos haw, ← haw]
      have := hside v hv hav
      omega
    · rw [if_neg hav, if_neg haw]

/-- After the jump the asserted variable is assigned, and those of the levels kept. -/
theorem isAssigned_iff {v : Variable} (hv : v ∈ vs) :
    ((t.cut jump).push a r).isAssigned v = true ↔ v = a.var ∨ t.level v ≤ jump := by
  rw [isAssigned_push h.lt_numVariables_cut, ht.isAssigned_cut, eq_comm,
    and_iff_right (h.assigned v hv)]

end Straddles

/-- Different assigned variables that are sorted by their positions have ascending ones. -/
theorem WellFormed.ascending_sortByKey (ht : t.WellFormed) (hdistinct : vs.Nodup)
    (hassigned : ∀ v ∈ vs, t.isAssigned v = true) :
    (sortByKey t.position vs).Pairwise fun v w => t.position v < t.position w := by
  have hmem : ∀ v ∈ sortByKey t.position vs, t.isAssigned v = true := fun v hv =>
    hassigned v (mem_stableSort.1 hv)
  have hnodup : (sortByKey t.position vs).Nodup := (stableSort_perm _ vs).nodup_iff.2 hdistinct
  refine ((pairwise_sortByKey t.position vs).and hnodup).imp_of_mem ?_
  rintro v w hv hw ⟨hle, hne⟩
  exact Nat.lt_of_le_of_ne hle fun heq => hne (ht.eq_of_position_eq (hmem v hv) (hmem w hw) heq)

/-- The positions after the jump sort as those before. -/
theorem Straddles.sortByKey_eq (ht : t.WellFormed) (h : t.Straddles jump a.var vs)
    (r : Option ClauseId) :
    sortByKey ((t.cut jump).push a r).position vs = sortByKey t.position vs := by
  have hperm : (sortByKey ((t.cut jump).push a r).position vs).Perm (sortByKey t.position vs) :=
    (stableSort_perm _ vs).trans (stableSort_perm _ vs).symm
  have hsorted : (sortByKey ((t.cut jump).push a r).position vs).Pairwise fun v w =>
      t.position v ≤ t.position w := by
    refine (pairwise_sortByKey _ vs).imp_of_mem fun hv hw hle => ?_
    rw [← Nat.not_lt] at hle ⊢
    rwa [h.position_lt_iff ht r (mem_stableSort.1 hw) (mem_stableSort.1 hv)] at hle
  refine List.Perm.eq_of_pairwise (fun v w hv hw hle hge => ?_) hsorted
    (pairwise_sortByKey _ vs) hperm
  exact ht.eq_of_position_eq (h.assigned v (mem_stableSort.1 hv))
    (h.assigned w (mem_stableSort.1 hw)) (Nat.le_antisymm hle hge)

end Trail

namespace Solver

variable {s next : Solver} {c : ClauseId} {learned : Learned}

/-- Of the variables met, those of lower levels are not above the level jumped to. -/
theorem Coherent.level_le_jump {w : Workspace} {uip : Literal} {kept : List Literal}
    (hs : s.Coherent) (hfirst : (s.workspace.firstUip s.view c).result = .ok (w, uip))
    (hw : Workspace.Tracks s.trail w)
    (hreports : Reports s.trail uip (w.learned ++ [uip.negate]) kept learned) {v : Variable}
    (hv : v ∈ s.met c learned) (hlt : s.trail.level v < s.currentLevel) :
    s.trail.level v ≤ learned.jump := by
  rw [hs.met_eq hfirst hreports.asserting_eq] at hv
  obtain ⟨l, hl, rfl⟩ := List.mem_map.1 hv
  have hlearned : l ∈ w.learned := by
    rw [hw.learned_eq]
    exact List.mem_filter.2 ⟨hl, decide_eq_true hlt⟩
  rw [hreports.jump_eq]
  exact Trail.level_le_secondLevel (List.mem_append_left _ hlearned) hlt

/-- The first unique implication point is the first met variable of the conflict level, and it is
above the level jumped to. -/
theorem Grounded.straddles {conflict : Clause} {w : Workspace} {uip : Literal}
    {kept : List Literal} (hs : s.Grounded) (hpos : 0 < s.currentLevel)
    (hfirst : (s.workspace.firstUip s.view c).result = .ok (w, uip))
    (hfinds : Workspace.FindsUip s.view conflict w uip)
    (hreports : Reports s.trail uip (w.learned ++ [uip.negate]) kept learned) :
    s.trail.Straddles learned.jump uip.var (s.met c learned) := by
  have hmet := hs.toCoherent.met_eq hfirst hreports.asserting_eq
  refine ⟨fun v hv => ?_, ?_, ?_, fun v hv hne => ?_⟩
  · rw [hmet] at hv
    obtain ⟨l, hl, rfl⟩ := List.mem_map.1 hv
    exact hfinds.tracks.isAssigned hs.trail hl
  · rw [hmet, List.mem_map]
    exact (hfinds.tracks.isSeen_iff uip.var).1 hfinds.uip_seen
  · have hlevel : s.trail.level uip.var = s.currentLevel := hfinds.uip_level
    rw [hlevel, hreports.jump_eq]
    exact Trail.secondLevel_lt hpos _
  · rcases Nat.lt_or_eq_of_le (hs.trail.level_le v) with hlt | hlevel
    · exact Or.inl (hs.toCoherent.level_le_jump hfirst hfinds.tracks hreports hv hlt)
    · rw [hmet] at hv
      obtain ⟨l, hl, rfl⟩ := List.mem_map.1 hv
      exact Or.inr (hfinds.resolved l hl hlevel hne).1

/-- An analysis bumped the variables met in the order in which they stand on the trail at the
conflict. At the time of the bumps the trail is already the one after the analysis: those of lower
levels are still assigned, and of the conflict level only the first unique implication point is. The
positions that the trail records then are in the order of those at the conflict, where no two are
the same. So the queued variables among those met end up at the front of the queue, the latest
assigned first. -/
structure FollowsTrail (s : Solver) (c : ClauseId) (learned : Learned) (next : Solver) : Prop where
  trail_eq : next.trail = (s.jumped learned).trail
  first_uip : ∃ w, (s.workspace.firstUip s.view c).result = .ok (w, learned.asserting.negate)
  uip_met : learned.asserting.var ∈ s.met c learned
  uip_level : s.trail.level learned.asserting.var = s.currentLevel
  kept : ∀ v ∈ s.met c learned, s.trail.level v < s.currentLevel →
    next.trail.isAssigned v = true
  undone : ∀ v ∈ s.met c learned, s.trail.level v = s.currentLevel →
    (next.trail.isAssigned v = true ↔ v = learned.asserting.var)
  position_lt_iff : ∀ v ∈ s.met c learned, ∀ w ∈ s.met c learned,
    (next.trail.position v < next.trail.position w ↔ s.trail.position v < s.trail.position w)
  bumped_eq : s.bumped c learned = sortByKey s.trail.position (s.met c learned)
  ascending : (s.bumped c learned).Pairwise fun v w => s.trail.position v < s.trail.position w
  mem_requeued : ∀ v, v ∈ s.requeued c learned ↔
    v ∈ s.heuristic.queue.toList ∧ v ∈ s.met c learned
  toList_eq : next.heuristic.queue.toList = (s.requeued c learned).reverse ++
    s.heuristic.queue.toList.filter fun v => v ∉ s.met c learned
  descending : (s.requeued c learned).reverse.Pairwise fun v w =>
    s.trail.position w < s.trail.position v

/-- From a false clause above the root, an analysis in the order of the trail bumps in the order of
the trail at the conflict. -/
theorem Grounded.followsTrail (hs : s.Grounded) (hpos : 0 < s.currentLevel)
    (hfalsified : s.Falsified c) (horder : s.options.bumpOrder = .trailSmaller)
    (hok : (s.learn c).result = .ok (next, learned)) : s.FollowsTrail c learned next := by
  obtain ⟨conflict, hc, hfalse⟩ := hfalsified
  have hphases := phases_of_learn hok
  have hcurrent : ∃ l ∈ conflict.literals, s.trail.level l.var = s.currentLevel := by
    obtain ⟨hderive⟩ := hphases
    obtain ⟨w, uip, hfirst, -⟩ := next_of_deriveClause hderive
    exact Workspace.exists_current_of_firstUip (v := s.view) hs.trail hs.stampable
      (hs.rests.tracks hs.marks) hs.pending hc hfirst
  obtain ⟨uip, _, kept, ⟨w, -, -, hfirst, -, rfl, -⟩, -, hreports⟩ :=
    hs.reports_of_learn hpos hc hfalse hcurrent hok
  have hfinds : Workspace.FindsUip s.view conflict w uip :=
    (hs.firstUip_yields hpos hc hfalse hcurrent).of_result hfirst
  have hvar : learned.asserting.var = uip.var := by
    rw [hreports.asserting_eq]
    rfl
  have hlevel : s.trail.level learned.asserting.var = s.currentLevel :=
    hvar ▸ hfinds.uip_level
  -- what was met stays assigned or stands behind the implication point, which keeps the order
  have hstraddles : s.trail.Straddles learned.jump learned.asserting.var (s.met c learned) :=
    hvar ▸ hs.straddles hpos hfirst hfinds hreports
  have hrequeues := hphases.requeues hs.toCoherent
  have hbumped : s.bumped c learned = sortByKey s.trail.position (s.met c learned) := by
    unfold bumped
    rw [horder, BumpOrder.sequence_eq_sortByKey (by simp)]
    exact hstraddles.sortByKey_eq hs.trail learned.clause
  have hascending := hs.trail.ascending_sortByKey (nodup_met s c learned) hstraddles.assigned
  rw [← hbumped] at hascending
  have htrail : next.trail = (s.trail.cut learned.jump).push learned.asserting learned.clause :=
    hrequeues.trail_eq
  refine ⟨hrequeues.trail_eq, ?_, hstraddles.mem, hlevel, fun v hv hlt => ?_, fun v hv heq => ?_,
    fun v hv w hw => ?_, hbumped, hascending, fun v => mem_requeued hs.toCoherent, ?_, ?_⟩
  · rw [hreports.asserting_eq, Literal.negate_negate]
    exact ⟨w, hfirst⟩
  · rw [htrail, hstraddles.isAssigned_iff hs.trail learned.clause hv]
    exact Or.inr (hs.toCoherent.level_le_jump hfirst hfinds.tracks hreports hv hlt)
  · rw [htrail, hstraddles.isAssigned_iff hs.trail learned.clause hv, heq, ← hlevel,
      or_iff_left (Nat.not_le.2 hstraddles.jump_lt)]
  · rw [htrail]
    exact hstraddles.position_lt_iff hs.trail learned.clause hv hw
  · rw [hrequeues.moves.toList_eq, filter_not_mem_requeued hs.toCoherent]
  · exact List.pairwise_reverse.2 (hascending.filter _)

/-- In a state of a legal run let the variables met be ordered by their positions. An analysis of a
false clause that learns bumps them in the order of the trail at the conflict, whether or not the
clause is shrunk. -/
theorem LegalRun.analyse_follows_trail {o : Options} {audit : AuditLevel} {proof : ProofLog}
    {start : Solver} {F : Formula} (hnew : Solver.new o audit proof = .ok start)
    (hrun : LegalRun start F s) (hpermits : s.permits .analyse = true)
    (horder : s.options.bumpOrder = .trailSmaller)
    (hok : s.analyse.result = .ok (next, .learned learned)) :
    ∃ c, s.status = .conflict c ∧ s.FollowsTrail c learned next := by
  have hs := hrun.grounded hnew
  cases course_of_analyse hok with
  | @learned c mid _ hstatus hpos hlearn =>
    have hcounted : s.countConflict.Grounded := hs.congr rfl rfl hs.serves rfl rfl
    have hfollows :=
      hcounted.followsTrail hpos (falsified_of_permits hpermits hstatus) horder hlearn
    exact ⟨c, hstatus, { hfollows with }⟩

/-- Between the levels of a conflict is another one, so the implication point gets an earlier place.
Its variable was taken out of the queue. -/
def skippedLevelRun : List Operation :=
  [.newVariable, .newVariable, .newVariable, .newVariable, .newVariable,
    .addClause [⟨1, false⟩, ⟨3, false⟩, ⟨2, true⟩], .addClause [⟨1, false⟩, ⟨2, false⟩, ⟨3, false⟩],
    .removeFromQueue 1, .decide ⟨3, true⟩, .decide ⟨0, true⟩, .decide ⟨1, true⟩,
    .assign ⟨2, true⟩ (some 0), .declareConflict 1]

/-- The position of the variable undone is that at the conflict. -/
theorem skippedLevelRun_analyse_follows_trail : ∃ F s learned next,
    runLegal [] (Solver.empty { bumpOrder := .trailSmaller } .full ⟨some {}⟩) skippedLevelRun =
        some (F, s) ∧
      s.permits .analyse = true ∧ s.options.bumpOrder = .trailSmaller ∧
      s.analyse.result = .ok (next, .learned learned) ∧ s.FollowsTrail 1 learned next ∧
      s.met 1 learned = [1, 2, 3] ∧ [1, 2, 3].map s.trail.position = [2, 3, 0] ∧
      [1, 2, 3].map next.trail.position = [1, 3, 0] ∧
      s.heuristic.queue.toList = [4, 3, 2, 0] ∧ next.heuristic.queue.toList = [2, 3, 4, 0] := by
  have hnew : Solver.new { bumpOrder := .trailSmaller } .full ⟨some {}⟩ =
      .ok (Solver.empty { bumpOrder := .trailSmaller } .full ⟨some {}⟩) := rfl
  have hend : ((runLegal [] (Solver.empty { bumpOrder := .trailSmaller } .full ⟨some {}⟩)
      skippedLevelRun).bind fun p => p.2.analyse.result.toOption.map fun q =>
        ((p.2.permits .analyse, p.2.options.bumpOrder, p.2.status, q.2),
          [p.2.met 1 ⟨⟨1, false⟩, 1, 2, 2, some 2⟩, [1, 2, 3].map p.2.trail.position,
            [1, 2, 3].map q.1.trail.position, p.2.heuristic.queue.toList,
            q.1.heuristic.queue.toList])) =
      some ((true, .trailSmaller, .conflict 1, .learned ⟨⟨1, false⟩, 1, 2, 2, some 2⟩),
        [[1, 2, 3], [2, 3, 0], [1, 3, 0], [4, 3, 2, 0], [2, 3, 4, 0]]) := by
    decide +kernel
  obtain ⟨⟨F, s⟩, hrun, hend⟩ := Option.bind_eq_some_iff.1 hend
  obtain ⟨⟨next, outcome⟩, hanalyse, hend⟩ := Option.map_eq_some_iff.1 hend
  simp only [Prod.mk.injEq, List.cons.injEq, and_true] at hend
  obtain ⟨⟨hpermits, horder, hstatus, rfl⟩, hmet, hbefore, hafter, hqueue, hnext⟩ := hend
  have hok := toOption_eq_some_iff.1 hanalyse
  obtain ⟨c, hpending, hfollows⟩ := LegalRun.analyse_follows_trail hnew
    (LegalRun.start.of_runLegal hrun) hpermits horder hok
  obtain rfl : c = 1 := Status.conflict.inj (hpending.symm.trans hstatus)
  exact ⟨F, s, _, next, hrun, hpermits, horder, hok, hfollows, hmet, hbefore, hafter, hqueue, hnext⟩

end Solver

end ClauseLearning
