import ClauseLearning.Trail
import ClauseLearning.Proofs.Entailment
import Mathlib.Data.List.Perm.Subperm

/-!
# The shape of the trail

A trail is *well formed* if its cells say what its entries and delimiters say: the cell of an entry
has the value that makes the entry true, the position of the entry, and as level the number of
delimiters at or before it; variables without an entry are free. The delimiters ascend, lie below
the end of the trail, and stand in front of assignments without a reason.

Every operation of the trail keeps this shape. The consequences are the facts about levels and
positions on which the analysis of conflicts rests: along the trail levels never fall, and the
entries of the levels up to a level are exactly those in front of its end.
-/

set_option autoImplicit false

namespace ClauseLearning

namespace Trail

/-- The decision level of a place of the trail. -/
def levelAt (t : Trail) (i : Nat) : Nat := t.delimiters.countP fun d => decide (d ≤ i)

/-- The cells say what the entries and the delimiters say. -/
structure WellFormed (t : Trail) : Prop where
  entry : ∀ i l, t.entries[i]? = some l →
    (t.cell l.var).value = some l.positive ∧ t.level l.var = t.levelAt i ∧ t.position l.var = i
  free : ∀ v, (∀ l ∈ t.entries, l.var ≠ v) →
    (t.cell v).value = none ∧ t.level v = 0 ∧ t.reason v = none
  ascending : t.delimiters.Pairwise (· < ·)
  bounded : ∀ d ∈ t.delimiters, d < t.length
  decision : ∀ d ∈ t.delimiters, ∀ l, t.entries[d]? = some l → t.reason l.var = none

/-- A literal is true if the value of its variable is its sign. -/
theorem isTrue_iff {t : Trail} {l : Literal} :
    t.isTrue l = true ↔ (t.cell l.var).value = some l.positive := by
  unfold isTrue value
  cases h : (t.cell l.var).value <;> simp

/-- A literal is false if the value of its variable is the opposite of its sign. -/
theorem isFalse_iff {t : Trail} {l : Literal} :
    t.isFalse l = true ↔ (t.cell l.var).value = some (!l.positive) := by
  unfold isFalse value
  cases h : (t.cell l.var).value with
  | none => simp
  | some b => cases b <;> cases l.positive <;> simp

/-- A literal is false exactly if its negation is true. -/
theorem isTrue_negate {t : Trail} {l : Literal} : t.isTrue l.negate = t.isFalse l := by
  rw [Bool.eq_iff_iff, isTrue_iff, isFalse_iff]
  rfl

/-- A variable is assigned if it has a value. -/
theorem isAssigned_iff {t : Trail} {v : Variable} :
    t.isAssigned v = true ↔ ∃ b, (t.cell v).value = some b := by
  unfold isAssigned
  rw [Option.isSome_iff_exists]

/-- True literals are assigned. -/
theorem isAssigned_of_isTrue {t : Trail} {l : Literal} (h : t.isTrue l = true) :
    t.isAssigned l.var = true := isAssigned_iff.2 ⟨_, isTrue_iff.1 h⟩

/-- False literals are assigned. -/
theorem isAssigned_of_isFalse {t : Trail} {l : Literal} (h : t.isFalse l = true) :
    t.isAssigned l.var = true := isAssigned_iff.2 ⟨_, isFalse_iff.1 h⟩

/-- No literal is both true and false. -/
theorem isFalse_eq_false_of_isTrue {t : Trail} {l : Literal} (h : t.isTrue l = true) :
    t.isFalse l = false := by
  rw [Bool.eq_false_iff]
  intro hf
  rw [isTrue_iff] at h
  rw [isFalse_iff, h] at hf
  cases hl : l.positive <;> simp [hl] at hf

/-- Literals of one variable that are both true are equal. -/
theorem eq_of_isTrue {t : Trail} {l k : Literal} (hl : t.isTrue l = true) (hk : t.isTrue k = true)
    (hvar : l.var = k.var) : l = k := by
  rcases Literal.eq_or_eq_negate hvar with h | h
  · exact h
  · rw [h, isTrue_negate, isFalse_eq_false_of_isTrue hk] at hl
    cases hl

/-- A literal of an assigned variable is true or false. -/
theorem isTrue_or_isFalse {t : Trail} {l : Literal} (h : t.isAssigned l.var = true) :
    t.isTrue l = true ∨ t.isFalse l = true := by
  obtain ⟨b, hb⟩ := isAssigned_iff.1 h
  rw [isTrue_iff, isFalse_iff, hb]
  cases b <;> cases l.positive <;> simp

/-- Assigned variables were created. -/
theorem lt_numVariables_of_isAssigned {t : Trail} {v : Variable} (h : t.isAssigned v = true) :
    v < t.numVariables := by
  by_contra hge
  obtain ⟨b, hb⟩ := isAssigned_iff.1 h
  have hnone : t.cells.get? v = none := (Arena.get?_eq_none_iff _ _).2 (Nat.le_of_not_lt hge)
  rw [cell, hnone] at hb
  simp at hb

/-- In an ascending list few elements are at or below a bound exactly if the next one is above. -/
theorem countP_le_iff {ds : List Nat} (h : ds.Pairwise (· < ·)) (i k : Nat) :
    ds.countP (fun d => decide (d ≤ i)) ≤ k ↔ ∀ d, ds[k]? = some d → i < d := by
  induction ds generalizing k with
  | nil => simp
  | cons e ds ih =>
    rw [List.pairwise_cons] at h
    obtain ⟨hhead, htail⟩ := h
    rw [List.countP_cons]
    by_cases hei : e ≤ i
    · simp only [hei, decide_true, if_true]
      cases k with
      | zero =>
        constructor
        · intro hcount
          omega
        · intro hall
          have := hall e rfl
          omega
      | succ k =>
        rw [List.getElem?_cons_succ, ← ih htail k]
        omega
    · -- all further elements lie above `e`, hence above the bound
      have habove : ∀ d ∈ ds, ¬ d ≤ i := fun d hd => by
        have := hhead d hd
        omega
      have hzero : ds.countP (fun d => decide (d ≤ i)) = 0 := by
        rw [List.countP_eq_zero]
        intro d hd
        simpa using habove d hd
      simp only [hzero, hei, decide_false, Bool.false_eq_true, if_false, Nat.add_zero, Nat.zero_le,
        true_iff]
      intro d hd
      rcases List.mem_cons.1 (List.mem_of_getElem? hd) with rfl | hmem
      · omega
      · have := habove d hmem
        omega

namespace WellFormed

variable {t : Trail}

/-- The entries are true. -/
theorem isTrue_of_getElem? (h : t.WellFormed) {i : Nat} {l : Literal}
    (hi : t.entries[i]? = some l) : t.isTrue l = true := isTrue_iff.2 (h.entry i l hi).1

/-- The entries are of existing variables. -/
theorem lt_numVariables_of_getElem? (h : t.WellFormed) {i : Nat} {l : Literal}
    (hi : t.entries[i]? = some l) : l.var < t.numVariables :=
  lt_numVariables_of_isAssigned (isAssigned_of_isTrue (h.isTrue_of_getElem? hi))

/-- The true literals are the entries of the trail. -/
theorem isTrue_iff_mem (h : t.WellFormed) {l : Literal} : t.isTrue l = true ↔ l ∈ t.entries := by
  constructor
  · intro htrue
    by_contra hmem
    have hvar : ¬ ∀ k ∈ t.entries, k.var ≠ l.var := by
      intro hno
      rw [isTrue_iff, (h.free l.var hno).1] at htrue
      cases htrue
    push Not at hvar
    obtain ⟨k, hk, hkl⟩ := hvar
    obtain ⟨i, hi⟩ := List.mem_iff_getElem?.1 hk
    exact hmem (eq_of_isTrue htrue (h.isTrue_of_getElem? hi) hkl.symm ▸ hk)
  · intro hmem
    obtain ⟨i, hi⟩ := List.mem_iff_getElem?.1 hmem
    exact h.isTrue_of_getElem? hi

/-- A true literal stands at the position of its variable. -/
theorem getElem?_position (h : t.WellFormed) {l : Literal} (hl : t.isTrue l = true) :
    t.entries[t.position l.var]? = some l := by
  obtain ⟨i, hi⟩ := List.mem_iff_getElem?.1 (h.isTrue_iff_mem.1 hl)
  rw [(h.entry i l hi).2.2]
  exact hi

/-- The level of a true literal is that of its place. -/
theorem level_eq_levelAt (h : t.WellFormed) {l : Literal} (hl : t.isTrue l = true) :
    t.level l.var = t.levelAt (t.position l.var) :=
  (h.entry _ l (h.getElem?_position hl)).2.1

/-- Every assigned variable has a true literal. -/
theorem exists_isTrue {v : Variable} (hv : t.isAssigned v = true) :
    ∃ l : Literal, l.var = v ∧ t.isTrue l = true := by
  obtain ⟨b, hb⟩ := isAssigned_iff.1 hv
  exact ⟨⟨v, b⟩, rfl, isTrue_iff.2 hb⟩

/-- An assigned variable stands on the trail. -/
theorem position_lt (h : t.WellFormed) {v : Variable} (hv : t.isAssigned v = true) :
    t.position v < t.length := by
  obtain ⟨l, rfl, hl⟩ := exists_isTrue hv
  exact (List.getElem?_eq_some_iff.1 (h.getElem?_position hl)).1

/-- Assigned variables with one position are equal. -/
theorem eq_of_position_eq (h : t.WellFormed) {v w : Variable} (hv : t.isAssigned v = true)
    (hw : t.isAssigned w = true) (heq : t.position v = t.position w) : v = w := by
  obtain ⟨l, rfl, hl⟩ := exists_isTrue hv
  obtain ⟨k, rfl, hk⟩ := exists_isTrue hw
  have hli := h.getElem?_position hl
  rw [heq, h.getElem?_position hk] at hli
  rw [Option.some.inj hli]

/-- Unassigned variables have level zero. -/
theorem level_eq_zero (h : t.WellFormed) {v : Variable} (hv : t.isAssigned v = false) :
    t.level v = 0 := by
  refine (h.free v fun l hl hlv => ?_).2.1
  rw [← h.isTrue_iff_mem] at hl
  rw [← hlv, isAssigned_of_isTrue hl] at hv
  cases hv

/-- Variables of a level above the root are assigned. -/
theorem isAssigned_of_level (h : t.WellFormed) {v : Variable} (hv : 0 < t.level v) :
    t.isAssigned v = true := by
  by_contra hno
  rw [h.level_eq_zero (Bool.eq_false_iff.2 hno)] at hv
  omega

/-- Unassigned variables have no reason. -/
theorem reason_eq_none (h : t.WellFormed) {v : Variable} (hv : t.isAssigned v = false) :
    t.reason v = none := by
  refine (h.free v fun l hl hlv => ?_).2.2
  rw [← h.isTrue_iff_mem] at hl
  rw [← hlv, isAssigned_of_isTrue hl] at hv
  cases hv

/-- Only assigned variables have a reason. -/
theorem isAssigned_of_reason (h : t.WellFormed) {v : Variable} {c : ClauseId}
    (hr : t.reason v = some c) : t.isAssigned v = true := by
  by_contra hno
  rw [h.reason_eq_none (Bool.eq_false_iff.2 hno)] at hr
  cases hr

/-- Along the trail levels never fall. -/
theorem level_mono (h : t.WellFormed) {v w : Variable} (hv : t.isAssigned v = true)
    (hw : t.isAssigned w = true) (hle : t.position v ≤ t.position w) : t.level v ≤ t.level w := by
  obtain ⟨l, rfl, hl⟩ := exists_isTrue hv
  obtain ⟨k, rfl, hk⟩ := exists_isTrue hw
  rw [h.level_eq_levelAt hl, h.level_eq_levelAt hk]
  refine List.countP_mono_left fun d _ hd => ?_
  simp only [decide_eq_true_eq] at hd ⊢
  omega

/-- A variable of a lower level stands before one of a higher level. -/
theorem position_lt_of_level_lt (h : t.WellFormed) {v w : Variable} (hv : t.isAssigned v = true)
    (hw : t.isAssigned w = true) (hlt : t.level v < t.level w) : t.position v < t.position w := by
  by_contra hge
  have := h.level_mono hw hv (Nat.le_of_not_lt hge)
  omega

/-- No level is above the current one. -/
theorem level_le (h : t.WellFormed) (v : Variable) : t.level v ≤ t.currentLevel := by
  by_cases hv : t.isAssigned v = true
  · obtain ⟨l, rfl, hl⟩ := exists_isTrue hv
    rw [h.level_eq_levelAt hl, ← length_delimiters]
    exact List.countP_le_length
  · rw [h.level_eq_zero (Bool.eq_false_iff.2 hv)]
    exact Nat.zero_le _

/-- A place is on a level or below exactly if it lies before the end of the level. -/
theorem levelAt_le_iff (h : t.WellFormed) {i level : Nat} (hi : i < t.length) :
    t.levelAt i ≤ level ↔ i < t.lengthAt level := by
  rw [levelAt, countP_le_iff h.ascending, lengthAt_eq, List.getD_eq_getElem?_getD]
  cases t.delimiters[level]? <;> simp [hi]

/-- Every level ends on the trail. -/
theorem lengthAt_le (h : t.WellFormed) (level : Nat) : t.lengthAt level ≤ t.length := by
  rw [lengthAt_eq, List.getD_eq_getElem?_getD]
  cases hd : t.delimiters[level]? with
  | none => exact Nat.le_refl _
  | some d => exact Nat.le_of_lt (h.bounded d (List.mem_of_getElem? hd))

/-- The root level ends on the trail. -/
theorem numRoot_le_length (h : t.WellFormed) : t.numRoot ≤ t.length := h.lengthAt_le 0

/-- A higher level ends later. -/
theorem lengthAt_mono (h : t.WellFormed) {lower level : Nat} (hle : lower ≤ level) :
    t.lengthAt lower ≤ t.lengthAt level := by
  by_contra hlt
  rw [Nat.not_le] at hlt
  -- the place at the end of the higher level would belong to the lower one
  have hplace : t.lengthAt level < t.length := Nat.lt_of_lt_of_le hlt (h.lengthAt_le lower)
  have hlower : t.levelAt (t.lengthAt level) ≤ lower := (h.levelAt_le_iff hplace).2 hlt
  exact Nat.lt_irrefl _ ((h.levelAt_le_iff hplace).1 (Nat.le_trans hlower hle))

/-- The entries of the levels up to a level are those in front of its end. -/
theorem level_le_iff (h : t.WellFormed) {v : Variable} (hv : t.isAssigned v = true)
    {level : Nat} : t.level v ≤ level ↔ t.position v < t.lengthAt level := by
  obtain ⟨l, rfl, hl⟩ := exists_isTrue hv
  rw [h.level_eq_levelAt hl]
  exact h.levelAt_le_iff (h.position_lt hv)

/-- An entry that follows an entry of its own level does not open the level. -/
theorem not_mem_delimiters (h : t.WellFormed) {v w : Variable} (hv : t.isAssigned v = true)
    (hw : t.isAssigned w = true) (hlevel : t.level v = t.level w)
    (hlt : t.position v < t.position w) : t.position w ∉ t.delimiters := by
  intro hmem
  obtain ⟨l, rfl, hl⟩ := exists_isTrue hv
  obtain ⟨k, rfl, hk⟩ := exists_isTrue hw
  rw [h.level_eq_levelAt hl, h.level_eq_levelAt hk] at hlevel
  -- the delimiter in front of the later entry is counted there and not before
  have hsplit := List.countP_eq_countP_filter_add t.delimiters
    (fun d => decide (d ≤ t.position k.var)) (fun d => decide (d ≤ t.position l.var))
  rw [List.countP_filter, List.countP_filter] at hsplit
  have hfirst : t.delimiters.countP (fun d => decide (d ≤ t.position k.var) &&
      decide (d ≤ t.position l.var)) = t.levelAt (t.position l.var) := by
    refine List.countP_congr fun d _ => ?_
    simp only [Bool.and_eq_true, decide_eq_true_eq]
    omega
  have hrest : 0 < t.delimiters.countP (fun d => decide (d ≤ t.position k.var) &&
      !decide (d ≤ t.position l.var)) := by
    refine List.countP_pos_iff.2 ⟨_, hmem, ?_⟩
    simp
    omega
  unfold levelAt at hlevel hfirst
  omega

/-- The variables above a level are those undone by a cut to it. -/
theorem any_above_iff (h : t.WellFormed) {level : Nat} {v : Variable} :
    (t.above level).any (·.var == v) = true ↔ t.isAssigned v = true ∧ level < t.level v := by
  rw [List.any_eq_true, above_eq]
  simp only [List.mem_reverse, beq_iff_eq]
  constructor
  · rintro ⟨l, hl, rfl⟩
    obtain ⟨i, hi⟩ := List.mem_iff_getElem?.1 hl
    rw [List.getElem?_drop] at hi
    have htrue := h.isTrue_of_getElem? hi
    have hassigned := isAssigned_of_isTrue htrue
    refine ⟨hassigned, ?_⟩
    by_contra hle
    rw [Nat.not_lt, h.level_le_iff hassigned, (h.entry _ l hi).2.2] at hle
    omega
  · rintro ⟨hv, hlt⟩
    obtain ⟨l, rfl, hl⟩ := exists_isTrue hv
    refine ⟨l, List.mem_iff_getElem?.2 ⟨t.position l.var - t.lengthAt level, ?_⟩, rfl⟩
    have hge : ¬ t.position l.var < t.lengthAt level := by
      rw [← h.level_le_iff hv]
      omega
    rw [List.getElem?_drop, show t.lengthAt level + (t.position l.var - t.lengthAt level) =
      t.position l.var by omega]
    exact h.getElem?_position hl

/-- The variables above a level exist. -/
theorem lt_numVariables_of_mem_above (h : t.WellFormed) {level : Nat} {l : Literal}
    (hl : l ∈ t.above level) : l.var < t.numVariables := by
  rw [above_eq, List.mem_reverse] at hl
  have htrue := h.isTrue_iff_mem.2 (List.mem_of_mem_drop hl)
  exact lt_numVariables_of_isAssigned (isAssigned_of_isTrue htrue)

/-- Undoing succeeds for the levels that were reached: they begin on the trail, and all assigned
variables exist. -/
theorem backtrack_eq (h : t.WellFormed) {level : Nat} (hle : level ≤ t.currentLevel) :
    t.backtrack level = .ok (t.cut level, t.above level) := by
  have hrequire : t.requireAll (t.above level) = .ok () :=
    requireAll_eq_ok_iff.2 fun l hl => h.lt_numVariables_of_mem_above hl
  unfold backtrack
  rw [if_neg (Nat.not_lt.2 hle), if_neg (Nat.not_lt.2 (h.lengthAt_le level)), hrequire]
  rfl

/-- A cut releases the variables above the level and keeps all others. -/
theorem cell_cut_eq (h : t.WellFormed) (level : Nat) (v : Variable) :
    (t.cut level).cell v =
      if t.isAssigned v = true ∧ level < t.level v then (t.cell v).release else t.cell v := by
  rw [cell_cut]
  simp only [h.any_above_iff]

/-- No variable has two entries. -/
theorem nodup_map_var (h : t.WellFormed) : (t.entries.map Literal.var).Nodup := by
  rw [List.nodup_iff_pairwise_ne, List.pairwise_map, List.pairwise_iff_getElem]
  intro i j hi hj hij hvar
  have hposition_i := (h.entry i _ (List.getElem?_eq_getElem hi)).2.2
  have hposition_j := (h.entry j _ (List.getElem?_eq_getElem hj)).2.2
  rw [hvar] at hposition_i
  omega

/-- Read from its end, the trail has no variable twice, either. -/
theorem nodup_reverse_map_var (h : t.WellFormed) :
    (t.entries.reverse.map Literal.var).Nodup :=
  ((List.reverse_perm t.entries).map Literal.var).nodup_iff.2 h.nodup_map_var

/-- Assigned variables are different existing ones, so there are no more of them. -/
theorem length_le_numVariables (h : t.WellFormed) :
    t.length ≤ t.numVariables := by
  have hsub : t.entries.map Literal.var ⊆ List.range t.numVariables := by
    intro v hv
    obtain ⟨l, hl, rfl⟩ := List.mem_map.1 hv
    rw [List.mem_range]
    exact lt_numVariables_of_isAssigned (isAssigned_of_isTrue (h.isTrue_iff_mem.2 hl))
  have hle := (List.subperm_of_subset h.nodup_map_var hsub).length_le
  rw [List.length_map, length_entries, List.length_range] at hle
  exact hle

end WellFormed

end Trail

end ClauseLearning
