import ClauseLearning.Proofs.Conflict.Tracking
import ClauseLearning.Proofs.Decision.Service
import ClauseLearning.Solver.Analysis

/-!
# The end of an analysis

After the backjump the variables met are bumped, each of them once, and lose their marks; then the
records of their levels are given back. As marks and records are exactly those of the literals met,
this leaves the workspace at rest.
-/

set_option autoImplicit false

namespace ClauseLearning

/-- The order of the bumps is an order of all literals met. -/
theorem BumpOrder.arrange_perm (o : BumpOrder) (q : DecisionQueue) (scores : Scores Binary64)
    (t : Trail) (ls : List Literal) : (o.arrange q scores t ls).Perm ls := by
  cases o
  · exact List.Perm.refl ls
  · exact stableSort_perm _ ls
  · exact stableSort_perm _ ls
  · exact stableSort_perm _ ls
  · exact stableSort_perm _ ls
  · exact List.reverse_perm ls

/-- The variables of the trail have all keys. -/
theorem Heuristic.Serves.requireKey_eq {h : Heuristic} {t : Trail} (hs : h.Serves t)
    (o : BumpOrder) {v : Variable} (hv : v < t.numVariables) :
    o.requireKey h.queue h.scores t v = .ok () := by
  have hstamp := hs.ordered.requireStamp_eq (hs.places.symm ▸ hv)
  have htrail : t.require v = .ok () := Trail.require_eq_ok_iff.2 hv
  cases o with
  | unsorted => rfl
  | bumpedEarlier => exact hstamp
  | trailSmaller => exact htrail
  | bumpedPlusTrail => exact Fault.bind_eq_ok_iff.2 ⟨(), hstamp, htrail⟩
  | scoreSmaller => exact Scores.require_eq_ok_iff.2 (hs.scored.symm ▸ hv)
  | reverse => rfl

/-- Literals of the trail's variables can be put in the order of the bumps. -/
theorem Heuristic.Serves.arrangeKnown_eq {h : Heuristic} {t : Trail} (hs : h.Serves t)
    (o : BumpOrder) {ls : List Literal} (hls : ∀ l ∈ ls, l.var < t.numVariables) :
    o.arrangeKnown h.queue h.scores t ls = .ok (o.arrange h.queue h.scores t ls) := by
  refine BumpOrder.arrangeKnown_eq_ok_iff.2 ⟨?_, rfl⟩
  unfold BumpOrder.requireKeys
  split
  · exact Fault.forM_eq_ok_iff.2 fun l hl => hs.requireKey_eq o (hls l hl)
  · rfl

namespace LevelRecords

/-- Giving back the records of a list of levels. -/
theorem get_foldl_reset (levels : List Nat) (r : LevelRecords) (k : Nat) :
    (levels.foldl reset r).get k = if k ∈ levels then {} else r.get k := by
  induction levels generalizing r with
  | nil => simp
  | cons level levels ih =>
    rw [List.foldl_cons, ih, get_reset]
    by_cases h : level = k
    · simp [h]
    · have hne : k ≠ level := fun heq => h heq.symm
      simp [h, hne]

end LevelRecords

namespace Workspace

/-- What was met has been unmarked: the marks are those of a workspace that met nothing. -/
structure Unmarks (w : Workspace) (xs : List Variable) (next : Workspace) : Prop where
  next_eq : next = { w with marks := next.marks }
  size_eq : next.marks.size = w.marks.size
  marks_eq : ∀ x, next.marksOf x =
    if x ∈ xs then { w.marksOf x with seen := false } else w.marksOf x

/-- Unmarking nothing changes nothing. -/
theorem Unmarks.nil (w : Workspace) : w.Unmarks [] w := ⟨rfl, rfl, fun _ => by simp⟩

/-- Marks are taken away one after the other. -/
theorem Unmarks.cons {w next : Workspace} {v : Variable} {xs : List Variable}
    (hv : v < w.marks.size) (h : (w.unmarkSeen v).Unmarks xs next) : w.Unmarks (v :: xs) next := by
  have hmarks : ∀ x, (w.unmarkSeen v).marksOf x =
      if v = x then { w.marksOf x with seen := false } else w.marksOf x :=
    fun x => marksOf_modify hv _ x
  refine ⟨h.next_eq, h.size_eq.trans (Arena.size_modify _ _ _), fun x => ?_⟩
  rw [h.marks_eq, hmarks]
  by_cases hx : v = x
  · simp [hx]
  · have hne : x ≠ v := fun heq => hx heq.symm
    simp [hx, hne]

/-- Without the marks of what it met, a workspace can be brought to rest. -/
theorem Tracks.rests {t : Trail} {w next : Workspace} {activity : Activity} {kept : List Literal}
    (h : Tracks t w) (hpending : activity.pending = [])
    (hunmarks : ({ w with activity := activity, learned := kept } : Workspace).Unmarks
      (w.seen.map Literal.var) next) :
    ({ next with seen := [], learned := [] } : Workspace).clearLevels.Rests := by
  have hnext := hunmarks.next_eq
  have hmarks := hunmarks.marks_eq
  refine ⟨isClear_iff.2 ⟨rfl, rfl, rfl, ?_, fun k => ?_, fun x => ?_⟩, ?_⟩
  · rw [hnext]
    exact hpending
  · -- of a level that is not listed nothing was met, so its record is the default one
    show (next.levels.foldl LevelRecords.reset next.records).get k = {}
    rw [LevelRecords.get_foldl_reset, hnext]
    split
    next => rfl
    next hk =>
      show w.records.get k = {}
      rw [h.records_eq]
      unfold LevelRecord.ofSeen
      rw [List.filter_eq_nil_iff.2 ?_]
      · rfl
      · intro l hl hlevel
        exact hk ((h.mem_levels_iff k).2 ⟨l, hl, beq_iff_eq.1 hlevel⟩)
  · show next.marksOf x = {}
    have hverdict := h.no_verdict x
    have hseen := h.isSeen_iff x
    have hsame : ({ w with activity := activity, learned := kept } : Workspace).marksOf x =
        w.marksOf x := rfl
    rw [hmarks, hsame]
    unfold isSeen at hseen
    generalize w.marksOf x = m at *
    obtain ⟨seen, poison, removable⟩ := m
    obtain ⟨rfl, rfl⟩ := hverdict
    split
    next => rfl
    next hx =>
      cases seen with
      | false => rfl
      | true => exact absurd (List.mem_map.2 (hseen.1 rfl)) hx
  · rw [hnext]
    exact h.minimised_eq

end Workspace

namespace Solver

variable {s : Solver}

/-- The literals met, in the order of the bumps. -/
def seenInOrder (s : Solver) : List Literal :=
  s.options.bumpOrder.arrange s.heuristic.queue s.heuristic.scores s.trail s.workspace.seen

/-- All literals met are bumped, each of them once. -/
theorem seenInOrder_perm (s : Solver) : s.seenInOrder.Perm s.workspace.seen :=
  BumpOrder.arrange_perm _ _ _ _ _

/-- The bumps follow the order that the options ask for. -/
theorem bumpSequence_eq_ok {ls : List Literal} (hok : s.bumpSequence = .ok ls) :
    ls = s.seenInOrder := (BumpOrder.arrangeKnown_eq_ok_iff.1 hok).2

/-- The variables of literals that are marked are bumped and lose their marks. -/
theorem bumpAll_yields (hserves : s.heuristic.Serves s.trail)
    (hsize : s.workspace.marks.size = s.numVariables) {ls : List Literal}
    (hdistinct : (ls.map Literal.var).Nodup)
    (hls : ∀ l ∈ ls, l.var < s.numVariables ∧ s.workspace.isSeen l.var = true) :
    (s.bumpAll ls).Yields fun next =>
      next = { s with heuristic := next.heuristic, workspace := next.workspace } ∧
        s.workspace.Unmarks (ls.map Literal.var) next.workspace ∧
        next.heuristic.Serves s.trail ∧
        ∀ v, v ∈ next.heuristic.queue.toList ↔ v ∈ s.heuristic.queue.toList := by
  induction ls generalizing s with
  | nil => exact .pure ⟨rfl, .nil _, hserves, fun _ => Iff.rfl⟩
  | cons l ls ih =>
    obtain ⟨hknown, hseen⟩ := hls l List.mem_cons_self
    rw [List.map_cons, List.nodup_cons] at hdistinct
    rw [bumpAll]
    have hmarked : s.workspace.require l.var = .ok () :=
      Workspace.require_eq_ok_iff.2 (hsize.symm ▸ hknown)
    have hrequire : s.trail.require l.var = .ok () := Trail.require_eq_ok_iff.2 hknown
    refine .bind (.lift (P := fun _ => True) hmarked trivial) fun _ _ => ?_
    refine .bind (.check hseen) fun _ _ => ?_
    refine .bind (.lift (P := fun _ => True) hrequire trivial) fun _ _ => ?_
    refine .bind (hserves.bump_yields hknown) ?_
    rintro heuristic ⟨hheuristic, hqueue⟩
    have hmarks :=
      Workspace.Unmarks.cons (hsize.symm ▸ hknown) (.nil (s.workspace.unmarkSeen l.var))
    refine (ih (s := { s with
      heuristic := heuristic, workspace := s.workspace.unmarkSeen l.var }) hheuristic ?_
      hdistinct.2 ?_).mono ?_
    · exact hmarks.size_eq.trans hsize
    · intro k hk
      obtain ⟨hkknown, hkseen⟩ := hls k (List.mem_cons_of_mem _ hk)
      refine ⟨hkknown, ?_⟩
      -- the variables are distinct, so the others are still marked
      have hne : k.var ∉ [l.var] := by
        rw [List.mem_singleton]
        intro heq
        exact hdistinct.1 (heq ▸ List.mem_map_of_mem hk)
      show ((s.workspace.unmarkSeen l.var).marksOf k.var).seen = true
      rw [hmarks.marks_eq, if_neg hne]
      exact hkseen
    · rintro next ⟨hnext, hunmarks, hserves', hqueue'⟩
      refine ⟨hnext, .cons (hsize.symm ▸ hknown) hunmarks, hserves', fun v => ?_⟩
      exact (hqueue' v).trans (hqueue v)

/-- The variables met are bumped, and the list of them is emptied. -/
theorem bumpSeen_yields (hserves : s.heuristic.Serves s.trail)
    (hsize : s.workspace.marks.size = s.numVariables)
    (hdistinct : (s.workspace.seen.map Literal.var).Nodup)
    (hseen : ∀ l ∈ s.workspace.seen,
      l.var < s.numVariables ∧ s.workspace.isSeen l.var = true) :
    s.bumpSeen.Yields fun next =>
      (∃ unmarked, s.workspace.Unmarks (s.workspace.seen.map Literal.var) unmarked ∧
        next = { s with
          heuristic := next.heuristic, workspace := { unmarked with seen := [] } }) ∧
      next.heuristic.Serves s.trail ∧
      ∀ v, v ∈ next.heuristic.queue.toList ↔ v ∈ s.heuristic.queue.toList := by
  have hsequence : s.bumpSequence = .ok s.seenInOrder :=
    hserves.arrangeKnown_eq _ fun l hl => (hseen l hl).1
  have hperm := s.seenInOrder_perm
  unfold bumpSeen
  refine .bind (.lift hsequence (Eq.refl s.seenInOrder)) ?_
  rintro _ rfl
  refine .bind (bumpAll_yields hserves hsize ((hperm.map _).nodup_iff.2 hdistinct)
    fun l hl => hseen l (hperm.mem_iff.1 hl)) ?_
  rintro bumped ⟨hbumped, hunmarks, hserves', hqueue⟩
  refine .bind hserves'.decay_yields ?_
  rintro heuristic ⟨hheuristic, hsame⟩
  refine .pure ⟨⟨bumped.workspace, ⟨hunmarks.next_eq, hunmarks.size_eq, fun x => ?_⟩, ?_⟩,
    hheuristic, fun v => ?_⟩
  · rw [hunmarks.marks_eq]
    simp only [(hperm.map Literal.var).mem_iff]
  · rw [hbumped]
  · rw [hsame]
    exact hqueue v

end Solver

end ClauseLearning
