import ClauseLearning.Proofs.Conflict.Redundancy
import ClauseLearning.Proofs.Conflict.Resolution
import Mathlib.Data.Finset.Max

/-!
# What minimisation cannot remove

A variable above the root is *anchored* if it belongs to the current level or no variable met of its
level was assigned before it. Whatever the reasons are, an anchored variable is needed at every
depth of the search, so its reason is never looked through and it is not found to be implied.

Every level of which a variable was met has an anchored one. The clause under construction holds it,
or it is the first unique implication point, whose negation the clause gets at its end. Hence
minimisation never empties the clause.
-/

set_option autoImplicit false

namespace ClauseLearning

namespace LevelRecord

/-- Noting a position keeps a bound that lies at or below it, and no other. -/
theorem startsAtOrAfter_note (r : LevelRecord) (p position : Nat) :
    (r.note position).startsAtOrAfter p = true ↔
      r.startsAtOrAfter p = true ∧ p ≤ position := by
  unfold startsAtOrAfter note
  cases r.lowest with
  | none => simp
  | some m => simp

/-- Noting the positions of literals keeps the bounds that lie at or below all of them. -/
theorem startsAtOrAfter_foldl (t : Trail) (p : Nat) (ls : List Literal) (r : LevelRecord) :
    (ls.foldl (fun r l => r.note (t.position l.var)) r).startsAtOrAfter p = true ↔
      r.startsAtOrAfter p = true ∧ ∀ l ∈ ls, p ≤ t.position l.var := by
  induction ls generalizing r with
  | nil => simp
  | cons l ls ih =>
    rw [List.foldl_cons, ih, startsAtOrAfter_note, List.forall_mem_cons, and_assoc]

/-- A record tells whether a position is at or before those met of its level. -/
theorem startsAtOrAfter_ofSeen (t : Trail) (seen : List Literal) (level p : Nat) :
    (ofSeen t seen level).startsAtOrAfter p = true ↔
      ∀ l ∈ seen, t.level l.var = level → p ≤ t.position l.var := by
  unfold ofSeen
  rw [startsAtOrAfter_foldl]
  simp [startsAtOrAfter]

end LevelRecord

namespace Workspace

variable {v : View} {t : Trail} {w next : Workspace} {x : Variable}

/-- A variable above the root belongs to the current level, or comes first among those met of its
level. -/
structure Anchored (t : Trail) (w : Workspace) (x : Variable) : Prop where
  above_root : 0 < t.level x
  first : t.level x = t.currentLevel ∨
    (w.records.get (t.level x)).startsAtOrAfter (t.position x) = true

/-- An anchored variable was not found to be implied. -/
structure Spares (t : Trail) (x : Variable) (w : Workspace) : Prop extends Anchored t w x where
  not_removed : w.isRemoved x = false

/-- A variable that anchors its level is needed, at every depth. -/
theorem Anchored.isNeeded (h : Anchored t w x) (depth : Nat) : w.isNeeded t depth x = true := by
  unfold Workspace.isNeeded
  rcases h.first with hlevel | hfirst
  · simp [hlevel]
  · simp [hfirst]

/-- Every level of which a variable was met has an anchored one, which is among those of the clause
under construction if the level is not the current one. -/
theorem Tracks.exists_anchored (h : Tracks t w) (ht : t.WellFormed) (hx : w.isSeen x = true) :
    ∃ y, Anchored t w y ∧ (y = x ∨ ∃ l ∈ w.learned, l.var = y) := by
  obtain ⟨k, hk, rfl⟩ := (h.isSeen_iff x).1 hx
  by_cases hlevel : t.level k.var = t.currentLevel
  · exact ⟨k.var, ⟨h.above_root k hk, Or.inl hlevel⟩, Or.inl rfl⟩
  · -- the one with the smallest position
    obtain ⟨l, hl, hleast⟩ := Finset.exists_min_image
      (w.seen.filter fun l => t.level l.var == t.level k.var).toFinset
      (fun l => t.position l.var) ⟨k, by simp [hk]⟩
    simp only [List.mem_toFinset, List.mem_filter, beq_iff_eq] at hl hleast
    obtain ⟨hl, hsame⟩ := hl
    refine ⟨l.var, ⟨h.above_root l hl, Or.inr ?_⟩, Or.inr ⟨l, ?_, rfl⟩⟩
    · rw [h.records_eq, LevelRecord.startsAtOrAfter_ofSeen]
      exact fun j hj hjl => hleast j ⟨hj, hjl.trans hsame⟩
    · have hle := ht.level_le l.var
      rw [h.learned_eq, List.mem_filter, decide_eq_true_eq]
      exact ⟨hl, by omega⟩

namespace Spares

/-- About an anchored variable the verdict is known at once, and a literal of the clause stays. -/
theorem settled (h : Spares v.trail x w) {depth : Nat} {l : Literal} (hl : l.var = x)
    {verdict : Verdict} (hok : w.verdict v depth l = .ok verdict) :
    ∃ removable, verdict = .settled removable ∧ (depth = 0 → removable = false) := by
  subst hl
  obtain ⟨-, -, hok⟩ := assess_of_verdict hok
  unfold assess at hok
  split at hok
  next himplied =>
    refine ⟨true, (Except.ok.inj hok).symm, ?_⟩
    rintro rfl
    rcases isImplied_iff.1 himplied with hroot | hremoved | ⟨hdepth, -⟩
    · exact absurd hroot (Nat.ne_of_gt h.above_root)
    · rw [h.not_removed] at hremoved
      cases hremoved
    · exact absurd hdepth (Nat.lt_irrefl 0)
  next =>
    refine ⟨false, ?_, fun _ => rfl⟩
    split at hok
    next => exact (Except.ok.inj hok).symm
    next =>
      obtain ⟨clause, -, hok⟩ := Fault.bind_eq_ok_iff.1 hok
      rw [h.isNeeded, if_pos rfl] at hok
      exact (Except.ok.inj hok).symm

/-- A reason is looked through for other variables only. -/
theorem ne_of_undecided (h : Spares v.trail x w) {depth : Nat} {l : Literal} {reason : Clause}
    (hok : w.verdict v depth l = .ok (.undecided reason)) : l.var ≠ x := by
  intro hl
  obtain ⟨_, heq, -⟩ := h.settled hl hok
  cases heq

/-- A verdict on another variable changes nothing for an anchored one. -/
theorem conclude (h : Spares t x w) {y : Variable} (hy : y ≠ x) (removable : Bool) :
    Spares t x (w.conclude y removable) := by
  refine ⟨⟨h.above_root, h.first⟩, ?_⟩
  have hmarks : (w.conclude y removable).marksOf x = w.marksOf x := by
    unfold marksOf Workspace.conclude
    rw [Arena.get?_modify, if_neg hy]
  unfold isRemoved
  rw [hmarks]
  exact h.not_removed

end Spares

/-- A variable that is spared is never found removable, whatever the search asks first. -/
theorem isRemovable_spares (budget depth : Nat) (l : Literal) (h : Spares v.trail x w) :
    (isRemovable v budget depth w l).Ensures fun (next, removable) =>
      Spares v.trail x next ∧ (l.var = x → depth = 0 → removable = false) := by
  rintro ⟨next, removable⟩ hok
  have hkeeps := isRemovable_keeps (I := Spares v.trail x)
    (fun hw hverdict hnext => hnext.conclude (hw.ne_of_undecided hverdict)) budget depth l h
  refine ⟨hkeeps _ hok, fun hl hdepth => ?_⟩
  obtain ⟨verdict, hverdict, hanswer⟩ := exists_verdict_of_isRemovable hok
  obtain ⟨settled, hsettled, hzero⟩ := h.settled hl hverdict
  rw [hanswer settled hsettled, hzero hdepth]

/-- A literal of an anchored variable is kept. -/
theorem keepNeeded_spares (maxDepth : Nat) (ls : List Literal) (h : Spares v.trail x w) :
    (keepNeeded v maxDepth w ls).Ensures fun (_, kept) =>
      (∃ l ∈ ls, l.var = x) → ∃ l ∈ kept, l.var = x := by
  induction ls generalizing w with
  | nil => exact .pure id
  | cons l ls ih =>
    rw [keepNeeded]
    refine .bind (isRemovable_spares (maxDepth + 1) 0 l.negate h) ?_
    rintro ⟨w₁, removable⟩ ⟨h₁, hkept⟩
    refine .bind (ih h₁) ?_
    rintro ⟨next, rest⟩ hrest
    refine .pure ?_
    rintro ⟨k, hk, hkx⟩
    rcases List.mem_cons.1 hk with rfl | hk
    · refine ⟨k, ?_, hkx⟩
      rw [hkept hkx rfl]
      exact List.mem_cons_self
    · obtain ⟨j, hj, hjx⟩ := hrest ⟨k, hk, hkx⟩
      refine ⟨j, ?_, hjx⟩
      cases removable
      · exact List.mem_cons_of_mem _ hj
      · exact hj

/-- Minimisation leaves a literal over if one of them belongs to an anchored variable. -/
theorem minimise_ne_nil (maxDepth : Nat) {ls : List Literal} (h : Spares v.trail x w)
    (hx : ∃ l ∈ ls, l.var = x) :
    (w.minimise v maxDepth ls).Ensures fun (_, kept) => kept ≠ [] := by
  unfold minimise
  refine .bind (keepNeeded_spares maxDepth ls h) ?_
  rintro ⟨next, kept⟩ hkept
  obtain ⟨l, hl, -⟩ := hkept hx
  exact .bind .any fun _ _ => .pure (List.ne_nil_of_mem hl)

/-- The first unique implication point was met. -/
theorem firstUip_isSeen (c : ClauseId) :
    (w.firstUip v c).Ensures fun (next, uip) => next.isSeen uip.var = true := by
  unfold firstUip
  refine .bind .any fun _ _ => .bind .any fun _ _ => .bind .any fun _ _ => ?_
  exact descend_ensures (fun _ _ => trivial) (fun _ _ _ _ => .any) (fun _ hseen => hseen)
    trivial _

end Workspace

end ClauseLearning
