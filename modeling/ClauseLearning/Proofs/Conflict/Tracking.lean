import ClauseLearning.Conflict.FirstUip
import ClauseLearning.Proofs.Trail.WellFormed

/-!
# What an analysis keeps track of

While clauses are resolved, the workspace *tracks* the literals met so far: the marks and the level
records are exactly those of the list of literals met, every variable is met once and belongs to a
level above the root, and the clause under construction consists of the literals below the current
level. Meeting a clause keeps this up and adds to the list what was not met before. A workspace at
rest tracks the empty list.
-/

set_option autoImplicit false

namespace ClauseLearning

/-- The record of a level of which the given literals were met. -/
def LevelRecord.ofSeen (t : Trail) (seen : List Literal) (level : Nat) : LevelRecord :=
  (seen.filter fun l => t.level l.var == level).foldl (fun r l => r.note (t.position l.var)) {}

namespace LevelRecord

/-- One more literal met is noted in the record of its level. -/
theorem ofSeen_append (t : Trail) (seen : List Literal) (l : Literal) (level : Nat) :
    ofSeen t (seen ++ [l]) level =
      if t.level l.var = level then (ofSeen t seen level).note (t.position l.var)
      else ofSeen t seen level := by
  unfold ofSeen
  rw [List.filter_append, List.foldl_append]
  by_cases h : t.level l.var = level <;> simp [h]

/-- Every literal noted counts once. -/
theorem seenCount_foldl (t : Trail) (ls : List Literal) (r : LevelRecord) :
    (ls.foldl (fun r l => r.note (t.position l.var)) r).seenCount = r.seenCount + ls.length := by
  induction ls generalizing r with
  | nil => rfl
  | cons l ls ih =>
    rw [List.foldl_cons, ih, List.length_cons]
    show r.seenCount + 1 + ls.length = _
    omega

/-- A record counts the literals met of its level. -/
theorem seenCount_ofSeen (t : Trail) (seen : List Literal) (level : Nat) :
    (ofSeen t seen level).seenCount = seen.countP fun l => t.level l.var == level := by
  unfold ofSeen
  rw [seenCount_foldl, List.countP_eq_length_filter]
  exact Nat.zero_add _

end LevelRecord

namespace Workspace

/-- The marks and records are those of the literals met, which are of different variables above the
root; those of lower levels form the clause under construction, and no verdict is left over. -/
structure Tracks (t : Trail) (w : Workspace) : Prop where
  distinct : (w.seen.map Literal.var).Nodup
  isSeen_iff : ∀ v, w.isSeen v = true ↔ ∃ l ∈ w.seen, l.var = v
  above_root : ∀ l ∈ w.seen, 0 < t.level l.var
  levels_nodup : w.levels.Nodup
  mem_levels_iff : ∀ k, k ∈ w.levels ↔ ∃ l ∈ w.seen, t.level l.var = k
  records_eq : ∀ k, w.records.get k = LevelRecord.ofSeen t w.seen k
  learned_eq : w.learned = w.seen.filter fun l => decide (t.level l.var < t.currentLevel)
  no_verdict : ∀ v, (w.marksOf v).poison = false ∧ (w.marksOf v).removable = false
  minimised_eq : w.minimised = []
  size_marks : w.marks.size = t.numVariables

/-- A workspace between two analyses. -/
structure Rests (w : Workspace) : Prop where
  clear : w.isClear = true
  minimised_eq : w.minimised = []

/-- A change of marks shows at its variable only. -/
theorem marksOf_modify {w : Workspace} {v : Variable} (hv : v < w.marks.size) (f : Marks → Marks)
    (x : Variable) : ((w.marks.modify v f).get? x).getD {} =
      if v = x then f (w.marksOf x) else w.marksOf x := by
  unfold marksOf
  rw [Arena.get?_modify]
  by_cases h : v = x
  · subst h
    cases hm : w.marks.get? v with
    | none => exact absurd ((Arena.get?_eq_none_iff _ _).1 hm) (Nat.not_le.2 hv)
    | some m => simp
  · simp [h]

/-- All values of an arena pass a test exactly if every look-up with a default does. -/
theorem all_toList_iff {α : Type} [DecidableEq α] (a : Arena α) (d : α) :
    a.toList.all (· == d) = true ↔ ∀ k, (a.get? k).getD d = d := by
  rw [List.all_eq_true]
  constructor
  · intro h k
    cases hk : a.get? k with
    | none => rfl
    | some x =>
      have hmem : x ∈ a.toList := by
        rw [Arena.toList, Array.mem_toList_iff]
        exact Array.mem_of_getElem? hk
      simpa using h x hmem
  · intro h x hx
    obtain ⟨k, hk⟩ := List.mem_iff_getElem?.1 hx
    have hget : a.get? k = some x := by
      rw [Arena.toList, Array.getElem?_toList] at hk
      exact hk
    have hd := h k
    rw [hget] at hd
    simpa using hd

/-- A workspace is clear if its lists are empty and all records and marks are the default ones. -/
theorem isClear_iff {w : Workspace} : w.isClear = true ↔
    w.seen = [] ∧ w.levels = [] ∧ w.learned = [] ∧ w.activity.pending = [] ∧
      (∀ k, w.records.get k = {}) ∧ ∀ v, w.marksOf v = {} := by
  unfold isClear LevelRecords.isClear
  simp only [Bool.and_eq_true, List.isEmpty_iff, all_toList_iff, and_assoc]
  exact Iff.rfl

/-- A workspace at rest tracks the empty list. -/
theorem Rests.tracks {w : Workspace} (h : w.Rests) {t : Trail}
    (hsize : w.marks.size = t.numVariables) : Tracks t w := by
  obtain ⟨hseen, hlevels, hlearned, -, hrecords, hmarks⟩ := isClear_iff.1 h.clear
  refine ⟨?_, ?_, ?_, ?_, ?_, ?_, ?_, ?_, h.minimised_eq, hsize⟩
  · simp [hseen]
  · intro v
    simp [isSeen, hmarks, hseen]
  · simp [hseen]
  · simp [hlevels]
  · simp [hlevels, hseen]
  · intro k
    rw [hrecords, hseen]
    rfl
  · simp [hlearned, hseen]
  · intro v
    simp [hmarks]

namespace Tracks

variable {t : Trail} {w : Workspace}

/-- What is tracked does not include the clauses that wait for a stamp. -/
theorem withActivity (h : Tracks t w) (a : Activity) : Tracks t { w with activity := a } :=
  ⟨h.distinct, h.isSeen_iff, h.above_root, h.levels_nodup, h.mem_levels_iff, h.records_eq,
    h.learned_eq, h.no_verdict, h.minimised_eq, h.size_marks⟩

/-- Only existing variables were met: they are assigned above the root. -/
theorem lt_numVariables (h : Tracks t w) (ht : t.WellFormed) {x : Variable}
    (hx : w.isSeen x = true) : x < t.numVariables := by
  obtain ⟨l, hl, rfl⟩ := (h.isSeen_iff x).1 hx
  exact Trail.lt_numVariables_of_isAssigned (ht.isAssigned_of_level (h.above_root l hl))

/-- A level is new exactly if it is not listed. -/
theorem isNewLevel_iff (h : Tracks t w) (k : Nat) : w.isNewLevel k = true ↔ k ∉ w.levels := by
  unfold isNewLevel
  rw [h.records_eq, LevelRecord.seenCount_ofSeen, beq_iff_eq, List.countP_eq_zero,
    h.mem_levels_iff]
  simp

/-- The levels stay distinct when that of a literal is listed. -/
theorem nodup_levels_absorb (h : Tracks t w) (l : Literal) : (w.absorb t l).levels.Nodup := by
  show (if w.isNewLevel (t.level l.var) then w.levels ++ [t.level l.var] else w.levels).Nodup
  split
  next hnew =>
    rw [h.isNewLevel_iff] at hnew
    rw [List.nodup_append]
    refine ⟨h.levels_nodup, by simp, fun a ha b hb => ?_⟩
    rw [List.mem_singleton.1 hb]
    exact fun heq => hnew (heq ▸ ha)
  next => exact h.levels_nodup

/-- Taking in a literal adds its level to the levels met. -/
theorem mem_levels_absorb (h : Tracks t w) (l : Literal) (k : Nat) :
    k ∈ (w.absorb t l).levels ↔ k ∈ w.levels ∨ t.level l.var = k := by
  show k ∈ (if w.isNewLevel (t.level l.var) then w.levels ++ [t.level l.var] else w.levels) ↔ _
  split
  next => simp [eq_comm]
  next hold =>
    have hmem : t.level l.var ∈ w.levels := by
      by_contra hno
      exact hold ((h.isNewLevel_iff _).2 hno)
    constructor
    · exact Or.inl
    · rintro (hk | rfl)
      · exact hk
      · exact hmem

/-- A literal that is not passed over is met for the first time, and above the root. -/
theorem of_passesOver (h : Tracks t w) {l : Literal} (hl : w.passesOver t l = false) :
    (∀ k ∈ w.seen, k.var ≠ l.var) ∧ 0 < t.level l.var := by
  unfold passesOver at hl
  rw [Bool.or_eq_false_iff, beq_eq_false_iff_ne] at hl
  obtain ⟨hunseen, hlevel⟩ := hl
  refine ⟨fun k hk hkl => ?_, Nat.pos_of_ne_zero hlevel⟩
  rw [(h.isSeen_iff l.var).2 ⟨k, hk, hkl⟩] at hunseen
  cases hunseen

/-- A literal that is not passed over is added to what is tracked. -/
theorem absorb (ht : t.WellFormed) (h : Tracks t w) {l : Literal}
    (hl : w.passesOver t l = false) : Tracks t (w.absorb t l) := by
  obtain ⟨hfresh, hpos⟩ := h.of_passesOver hl
  have hv : l.var < w.marks.size := by
    rw [h.size_marks]
    exact Trail.lt_numVariables_of_isAssigned (ht.isAssigned_of_level hpos)
  have hmarks : ∀ x, (w.absorb t l).marksOf x =
      if l.var = x then { w.marksOf x with seen := true } else w.marksOf x :=
    fun x => marksOf_modify hv _ x
  -- the literals met are those from before and the new one
  have hexists : ∀ P : Literal → Prop,
      (∃ k ∈ (w.absorb t l).seen, P k) ↔ (∃ k ∈ w.seen, P k) ∨ P l := by
    intro P
    show (∃ k ∈ w.seen ++ [l], P k) ↔ _
    simp [or_and_right, exists_or]
  refine ⟨?_, fun x => ?_, fun k hk => ?_, h.nodup_levels_absorb l, fun k => ?_, fun k => ?_, ?_,
    fun x => ?_, h.minimised_eq, ?_⟩
  · show ((w.seen ++ [l]).map Literal.var).Nodup
    rw [List.map_append, List.nodup_append]
    refine ⟨h.distinct, by simp, ?_⟩
    intro a ha b hb
    obtain ⟨k, hk, rfl⟩ := List.mem_map.1 ha
    rw [List.map_singleton, List.mem_singleton] at hb
    exact hb ▸ hfresh k hk
  · show ((w.absorb t l).marksOf x).seen = true ↔ _
    rw [hmarks, hexists, ← h.isSeen_iff]
    by_cases hx : l.var = x
    · rw [if_pos hx]
      exact iff_of_true rfl (Or.inr hx)
    · rw [if_neg hx]
      exact (or_iff_left hx).symm
  · rcases List.mem_append.1 hk with hk | hk
    · exact h.above_root k hk
    · rw [List.mem_singleton.1 hk]
      exact hpos
  · rw [h.mem_levels_absorb, hexists, ← h.mem_levels_iff]
  · show (w.records.note (t.level l.var) (t.position l.var)).get k =
      LevelRecord.ofSeen t (w.seen ++ [l]) k
    rw [LevelRecords.get_note, LevelRecord.ofSeen_append, h.records_eq, h.records_eq]
    by_cases hk : t.level l.var = k
    · rw [if_pos hk, if_pos hk, hk]
    · rw [if_neg hk, if_neg hk]
  · show (if t.level l.var < t.currentLevel then w.learned ++ [l] else w.learned) =
      (w.seen ++ [l]).filter _
    rw [List.filter_append, ← h.learned_eq]
    by_cases hlt : t.level l.var < t.currentLevel <;> simp [hlt]
  · rw [hmarks]
    split
    · exact h.no_verdict x
    · exact h.no_verdict x
  · show (w.marks.modify l.var _).size = _
    rw [Arena.size_modify, h.size_marks]

end Tracks

end Workspace

end ClauseLearning
