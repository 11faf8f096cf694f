import ClauseLearning.Proofs.Conflict.Anchors
import ClauseLearning.Proofs.Conflict.Asserting
import Mathlib.Data.Finset.Lattice.Fold
import Mathlib.Order.Lattice.Nat

/-!
# The levels of a shrunk clause

A part of a clause *keeps the levels* if it has the literals in their order and, of each level that
the clause has, the literal that was assigned first. The glue and the level to jump back to depend
on the set of levels only, so they are those of the whole clause, and if the clause is asserting,
the part still has the asserting literal: it is the only one of its level.

Minimisation keeps the levels, whatever the reasons, the depth at which it gives up and the verdicts
that it has reached so far: the first literal of a level is anchored, so about it the verdict is
known at once.
-/

set_option autoImplicit false

namespace ClauseLearning

namespace Trail

variable {t : Trail} {clause kept : List Literal} {a : Literal}

/-- A part of a clause, in order, with the first assigned literal of each of its levels. -/
structure KeepsLevels (t : Trail) (clause kept : List Literal) : Prop where
  sublist : kept.Sublist clause
  first_kept : ∀ l ∈ clause,
    (∀ k ∈ clause, t.level k.var = t.level l.var → t.position l.var ≤ t.position k.var) → l ∈ kept

/-- The highest level below the current one among the literals, or the root without any. -/
def secondLevel (t : Trail) (ls : List Literal) : Nat :=
  (ls.toFinset.filter fun l => t.level l.var < t.currentLevel).sup fun l => t.level l.var

/-- No lower level of the literals is above the second level. -/
theorem level_le_secondLevel {ls : List Literal} {l : Literal} (hl : l ∈ ls)
    (hlower : t.level l.var < t.currentLevel) : t.level l.var ≤ t.secondLevel ls :=
  Finset.le_sup (f := fun l : Literal => t.level l.var)
    (Finset.mem_filter.2 ⟨List.mem_toFinset.2 hl, hlower⟩)

/-- The second highest level lies below the current one. -/
theorem secondLevel_lt (hpos : 0 < t.currentLevel) (ls : List Literal) :
    t.secondLevel ls < t.currentLevel :=
  (Finset.sup_lt_iff hpos).2 fun _ hl => (Finset.mem_filter.1 hl).2

/-- The second level is a bound that is reached, unless it is the root. -/
theorem secondLevel_eq {ls : List Literal} {level : Nat}
    (hle : ∀ l ∈ ls, t.level l.var < t.currentLevel → t.level l.var ≤ level)
    (hreached : level = 0 ∨ ∃ l ∈ ls, t.level l.var < t.currentLevel ∧ t.level l.var = level) :
    t.secondLevel ls = level := by
  refine Nat.le_antisymm (Finset.sup_le fun l hl => ?_) ?_
  · obtain ⟨hl, hlower⟩ := Finset.mem_filter.1 hl
    exact hle l (List.mem_toFinset.1 hl) hlower
  · rcases hreached with rfl | ⟨l, hl, hlower, rfl⟩
    · exact Nat.zero_le _
    · exact level_le_secondLevel hl hlower

/-- A clause has no more levels than literals. -/
theorem glue_le_length (t : Trail) (ls : List Literal) : t.glue ls ≤ ls.length := by
  have hsub : (((ls.filter fun l => t.isAssigned l.var).map fun l => t.level l.var).filter
      (0 < ·)).eraseDups ⊆ ls.map fun l => t.level l.var := by
    intro level hlevel
    have hmem := (List.mem_filter.1 (List.mem_eraseDups.1 hlevel)).1
    exact List.map_subset _ (List.filter_subset_self _) hmem
  have hle := ((nodup_eraseDups _).subperm hsub).length_le
  rwa [List.length_map] at hle

/-- A clause with an assigned literal above the root has a positive glue. -/
theorem glue_pos {ls : List Literal} {l : Literal} (hl : l ∈ ls)
    (hassigned : t.isAssigned l.var = true) (hlevel : 0 < t.level l.var) : 0 < t.glue ls := by
  refine List.length_pos_of_mem (a := t.level l.var) (List.mem_eraseDups.2 ?_)
  rw [List.mem_filter, List.mem_map, decide_eq_true_eq]
  exact ⟨⟨l, List.mem_filter.2 ⟨hl, hassigned⟩, rfl⟩, hlevel⟩

namespace KeepsLevels

/-- A clause keeps its own levels. -/
theorem refl (t : Trail) (clause : List Literal) : t.KeepsLevels clause clause :=
  ⟨.refl clause, fun _ hl _ => hl⟩

/-- Of every level of the clause a literal is left. -/
theorem exists_of_level (h : t.KeepsLevels clause kept) {l : Literal} (hl : l ∈ clause) :
    ∃ k ∈ kept, t.level k.var = t.level l.var := by
  obtain ⟨k, hk, hfirst⟩ := Finset.exists_min_image
    (clause.toFinset.filter fun k => t.level k.var = t.level l.var) (fun k => t.position k.var)
    ⟨l, by simp [hl]⟩
  simp only [Finset.mem_filter, List.mem_toFinset] at hk hfirst
  obtain ⟨hk, hlevel⟩ := hk
  exact ⟨k, h.first_kept k hk fun j hj hjk => hfirst j ⟨hj, hjk.trans hlevel⟩, hlevel⟩

/-- What keeps the levels has literals of the same levels. -/
theorem levels_iff (h : t.KeepsLevels clause kept) (level : Nat) :
    (∃ l ∈ kept, t.level l.var = level) ↔ ∃ l ∈ clause, t.level l.var = level := by
  constructor
  · rintro ⟨l, hl, hlevel⟩
    exact ⟨l, h.sublist.subset hl, hlevel⟩
  · rintro ⟨l, hl, rfl⟩
    exact h.exists_of_level hl

/-- The asserting literal is the only one of its level, hence the first. -/
theorem asserting_mem (h : t.KeepsLevels clause kept) (ha : t.Asserting clause a) : a ∈ kept := by
  refine h.first_kept a ha.mem fun k hk hlevel => ?_
  rw [(ha.level_eq_iff hk).1 (hlevel.trans ha.current)]

/-- What keeps the levels of an asserting clause has the same glue. -/
theorem glue_eq (h : t.KeepsLevels clause kept) (ha : t.Asserting clause a) :
    t.glue kept = t.glue clause := by
  have hassigned : ∀ ls : List Literal, ls ⊆ clause →
      ls.filter (fun l => t.isAssigned l.var) = ls := fun ls hsub =>
    List.filter_eq_self.2 fun l hl => isAssigned_of_isFalse (ha.falsified l (hsub hl))
  unfold glue
  rw [hassigned kept h.sublist.subset, hassigned clause (List.Subset.refl _)]
  refine length_eraseDups_eq (nodup_eraseDups _) fun level => ?_
  simp only [List.mem_eraseDups, List.mem_filter, List.mem_map]
  rw [h.levels_iff]

/-- What keeps the levels leads to the same jump. -/
theorem secondLevel_eq (h : t.KeepsLevels clause kept) :
    t.secondLevel kept = t.secondLevel clause := by
  symm
  refine Trail.secondLevel_eq (fun l hl hlower => ?_) ?_
  · obtain ⟨k, hk, hlevel⟩ := h.exists_of_level hl
    rw [← hlevel] at hlower ⊢
    exact level_le_secondLevel hk hlower
  · rcases (kept.toFinset.filter fun l => t.level l.var < t.currentLevel).eq_empty_or_nonempty
      with hnone | hsome
    · left
      unfold secondLevel
      rw [hnone]
      exact Finset.sup_empty
    · obtain ⟨l, hl, hsup⟩ := Finset.exists_mem_eq_sup _ hsome fun l => t.level l.var
      obtain ⟨hl, hlower⟩ := Finset.mem_filter.1 hl
      exact Or.inr ⟨l, h.sublist.subset (List.mem_toFinset.1 hl), hlower, hsup.symm⟩

/-- If one literal is left, it was the only one. -/
theorem eq_of_length (h : t.KeepsLevels clause kept) (ha : t.Asserting clause a)
    (hunit : kept.length = 1) : clause = kept := by
  obtain ⟨b, rfl⟩ := List.length_eq_one_iff.1 hunit
  obtain rfl : a = b := List.mem_singleton.1 (h.asserting_mem ha)
  have hall : clause ⊆ [a] := by
    intro l hl
    obtain ⟨k, hk, hlevel⟩ := h.exists_of_level hl
    obtain rfl := List.mem_singleton.1 hk
    rw [List.mem_singleton]
    exact (ha.level_eq_iff hl).1 (hlevel.symm.trans ha.current)
  have hnodup : clause.Nodup := List.Nodup.of_map _ ha.distinct
  exact (h.sublist.eq_of_length_le (hnodup.subperm hall).length_le).symm

end KeepsLevels

end Trail

namespace Workspace

variable {v : View} {w : Workspace} {clause : List Literal} {a : Literal}

/-- The literals that are needed keep their order. -/
theorem keepNeeded_sublist (maxDepth : Nat) (ls : List Literal) :
    (keepNeeded v maxDepth w ls).Ensures fun (_, kept) => kept.Sublist ls := by
  induction ls generalizing w with
  | nil => exact .pure (.refl [])
  | cons l ls ih =>
    rw [keepNeeded]
    refine .bind .any ?_
    rintro ⟨w₁, removable⟩ -
    refine .bind ih ?_
    rintro ⟨next, rest⟩ hrest
    refine .pure ?_
    cases removable
    · exact hrest.cons_cons l
    · exact hrest.cons l

/-- The first literal of each level of the clause is anchored, so minimisation does not remove
it. -/
theorem Tracks.minimise_keepsLevels {ls : List Literal} (h : Tracks v.trail w)
    (ha : v.trail.Asserting clause a) (hlearned : w.learned ⊆ clause)
    (habove : ∀ l ∈ clause, 0 < v.trail.level l.var) (maxDepth : Nat) :
    ({ w with learned := ls }.minimise v maxDepth clause).Ensures fun (_, kept) =>
      v.trail.KeepsLevels clause kept := by
  have hfirst : ∀ l ∈ clause, (∀ k ∈ clause, v.trail.level k.var = v.trail.level l.var →
      v.trail.position l.var ≤ v.trail.position k.var) →
      Spares v.trail l.var { w with learned := ls } := by
    intro l hl hfirst
    refine ⟨⟨habove l hl, ?_⟩, (h.no_verdict l.var).2⟩
    by_cases hla : l = a
    · exact Or.inl (hla ▸ ha.current)
    · -- what was met of a lower level belongs to the clause
      right
      show (w.records.get _).startsAtOrAfter _ = true
      rw [h.records_eq, LevelRecord.startsAtOrAfter_ofSeen]
      intro k hk hlevel
      have hlower := (ha.lower l hl hla).2
      rw [← hlevel] at hlower
      exact hfirst k (hlearned (h.mem_learned_iff.2 ⟨hk, hlower⟩)) hlevel
  unfold minimise
  intro result hok
  obtain ⟨⟨next, kept⟩, hkeep, hok⟩ := Traced.result_bind_eq_ok_iff.1 hok
  obtain ⟨_, -, hok⟩ := Traced.result_bind_eq_ok_iff.1 hok
  obtain ⟨_, -, hok⟩ := Traced.result_bind_eq_ok_iff.1 hok
  obtain rfl := Except.ok.inj hok
  have hsub := keepNeeded_sublist maxDepth clause _ hkeep
  refine ⟨hsub, fun l hl hleast => ?_⟩
  obtain ⟨k, hk, hkl⟩ :=
    keepNeeded_spares maxDepth clause (hfirst l hl hleast) _ hkeep ⟨l, hl, rfl⟩
  rwa [← List.inj_on_of_nodup_map ha.distinct (hsub.subset hk) hl hkl]

end Workspace

end ClauseLearning
