import ClauseLearning.Proofs.Trail.Operations

/-!
# Undoing what was done above a level

Below the end of a level the trail is a prefix, and what is assigned or decided beyond it does not
show there: after a cut to the level there is the same assignment, whether or not a literal was put
on a higher level before or a level was opened for it. The one trace that stays is the position in
the cell of a variable that became free. Cuts alone leave no trace at all: levels may be undone one
after the other or all at once.
-/

set_option autoImplicit false

namespace ClauseLearning

namespace Trail

/-- Two trails with the same entries and delimiters, and with the same value, level and reason of
every variable. -/
structure SameAssignment (t u : Trail) : Prop where
  numVariables_eq : u.numVariables = t.numVariables
  entries_eq : u.entries = t.entries
  delimiters_eq : u.delimiters = t.delimiters
  cells : ∀ v, (u.cell v).value = (t.cell v).value ∧ u.level v = t.level v ∧
    u.reason v = t.reason v

namespace SameAssignment

variable {t u w : Trail}

/-- A trail has its own assignment. -/
theorem refl (t : Trail) : t.SameAssignment t := ⟨rfl, rfl, rfl, fun _ => ⟨rfl, rfl, rfl⟩⟩

/-- Having the same assignment goes both ways. -/
theorem symm (h : t.SameAssignment u) : u.SameAssignment t where
  numVariables_eq := h.numVariables_eq.symm
  entries_eq := h.entries_eq.symm
  delimiters_eq := h.delimiters_eq.symm
  cells v := ⟨(h.cells v).1.symm, (h.cells v).2.1.symm, (h.cells v).2.2.symm⟩

/-- What has the assignment of a trail that has the one of another has that one. -/
theorem trans (h : t.SameAssignment u) (h' : u.SameAssignment w) : t.SameAssignment w where
  numVariables_eq := h'.numVariables_eq.trans h.numVariables_eq
  entries_eq := h'.entries_eq.trans h.entries_eq
  delimiters_eq := h'.delimiters_eq.trans h.delimiters_eq
  cells v := by
    obtain ⟨hvalue, hlevel, hreason⟩ := h.cells v
    obtain ⟨hvalue', hlevel', hreason'⟩ := h'.cells v
    exact ⟨hvalue'.trans hvalue, hlevel'.trans hlevel, hreason'.trans hreason⟩

/-- The same assignment assigns the same variables. -/
theorem isAssigned_eq (h : t.SameAssignment u) (v : Variable) :
    u.isAssigned v = t.isAssigned v := congrArg Option.isSome (h.cells v).1

end SameAssignment

variable {t : Trail}

/-- A free variable has no value, the level of the root and no reason. -/
theorem WellFormed.cell_of_free (h : t.WellFormed) {v : Variable}
    (hfree : t.isAssigned v = false) :
    (t.cell v).value = none ∧ t.level v = 0 ∧ t.reason v = none :=
  ⟨Option.not_isSome_iff_eq_none.1 (Bool.eq_false_iff.1 hfree), h.level_eq_zero hfree,
    h.reason_eq_none hfree⟩

/-- The entries that a cut keeps are those of the levels up to the level. -/
theorem WellFormed.getElem?_cut_iff (h : t.WellFormed) {level i : Nat} {l : Literal} :
    (t.cut level).entries[i]? = some l ↔ t.entries[i]? = some l ∧ t.level l.var ≤ level := by
  have hkept : t.entries[i]? = some l → (i < t.lengthAt level ↔ t.level l.var ≤ level) := by
    intro hi
    rw [h.level_le_iff (isAssigned_of_isTrue (h.isTrue_of_getElem? hi)), (h.entry i l hi).2.2]
  constructor
  · intro hi
    obtain ⟨hi, hlt⟩ := getElem?_cut t hi
    exact ⟨hi, (hkept hi).1 hlt⟩
  · rintro ⟨hi, hle⟩
    rw [entries_cut, List.getElem?_take, if_pos ((hkept hi).2 hle)]
    exact hi

/-- A literal that is put on a level above does not show after a cut, and neither does the level
that is opened for it. -/
theorem Opens.cut_push {u : Trail} {r : Option ClauseId} {l : Literal} {level : Nat}
    (h : t.Opens u r) (ht : t.WellFormed) (hl : l.var < t.numVariables)
    (hfree : t.isAssigned l.var = false) (hle : level ≤ t.currentLevel)
    (hlevel : level < u.currentLevel) :
    (t.cut level).SameAssignment ((u.push l r).cut level) where
  numVariables_eq := by
    rw [numVariables_cut, numVariables_cut, numVariables_push, h.numVariables_eq]
  entries_eq := by
    have hpushed := h.push ht hl hfree
    refine List.ext_getElem? fun i => Option.ext fun k => ?_
    rw [hpushed.getElem?_cut_iff, ht.getElem?_cut_iff]
    constructor
    · rintro ⟨hi, hk⟩
      rcases h.getElem?_push hi with hi | ⟨-, rfl⟩
      · unfold Trail.level at hk
        rw [h.cell_push hl (ht.var_ne_of_getElem? hfree hi)] at hk
        exact ⟨hi, hk⟩
      · unfold Trail.level at hk
        rw [h.cell_push_self hl] at hk
        exact absurd hlevel (Nat.not_lt.2 hk)
    · rintro ⟨hi, hk⟩
      unfold Trail.level
      rw [h.cell_push hl (ht.var_ne_of_getElem? hfree hi), entries_push, h.entries_eq,
        List.getElem?_append_left (List.getElem?_eq_some_iff.1 hi).1]
      exact ⟨hi, hk⟩
  delimiters_eq := by
    rw [delimiters_cut, delimiters_cut, delimiters_push]
    rcases h.delimiters_eq with hds | ⟨hds, -⟩
    · rw [hds]
    · have hle' : level ≤ t.delimiters.length := hle
      rw [hds, List.take_append_of_le_length hle']
  cells := by
    intro v
    have hpushed := h.push ht hl hfree
    unfold Trail.level reason
    rw [hpushed.cell_cut_eq, ht.cell_cut_eq]
    -- the variable of the literal was free, and the cut frees it again
    by_cases hv : l.var = v
    · subst hv
      have hassigned : (u.push l r).isAssigned l.var = true :=
        isAssigned_iff.2 ⟨l.positive, by rw [h.cell_push_self hl]⟩
      have hfar : level < (u.push l r).level l.var := by
        unfold Trail.level
        rw [h.cell_push_self hl]
        exact hlevel
      obtain ⟨hvalue, hzero, hreason⟩ := ht.cell_of_free hfree
      rw [if_pos ⟨hassigned, hfar⟩, if_neg fun hno => by simp [hfree] at hno]
      exact ⟨hvalue.symm, hzero.symm, hreason.symm⟩
    · have hcell := h.cell_push hl hv
      unfold isAssigned Trail.level
      rw [hcell]
      exact ⟨rfl, rfl, rfl⟩

/-! ## Cuts -/

/-- A trail is its cells, entries and delimiters. -/
theorem eq_of_lists {u : Trail} (hcells : t.cells = u.cells) (hentries : t.entries = u.entries)
    (hdelimiters : t.delimiters = u.delimiters) : t = u := by
  obtain ⟨cells, stack, starts⟩ := t
  obtain ⟨cells', stack', starts'⟩ := u
  obtain rfl : cells = cells' := hcells
  obtain rfl : stack = stack' := Array.toList_inj.1 hentries
  obtain rfl : starts = starts' := Array.toList_inj.1 hdelimiters
  rfl

/-- The current level ends at the end of the trail. -/
theorem lengthAt_currentLevel (t : Trail) : t.lengthAt t.currentLevel = t.length := by
  unfold lengthAt currentLevel
  rw [Array.getElem?_size, Option.getD_none]

/-- Nothing is above the current level. -/
theorem above_currentLevel (t : Trail) : t.above t.currentLevel = [] := by
  rw [above_eq, lengthAt_currentLevel, ← length_entries, List.drop_length, List.reverse_nil]

/-- A cut to the current level undoes nothing. -/
theorem cut_currentLevel (t : Trail) : t.cut t.currentLevel = t := by
  refine eq_of_lists ?_ ?_ ?_
  · unfold cut
    rw [above_currentLevel, List.foldl_nil]
  · rw [entries_cut, lengthAt_currentLevel, ← length_entries, List.take_length]
  · rw [delimiters_cut, ← length_delimiters, List.take_length]

namespace WellFormed

/-- Undoing down to a level undoes first what is above any level in between. -/
theorem above_eq_append (h : t.WellFormed) {level lower : Nat} (hle : lower ≤ level) :
    t.above lower = t.above level ++ (t.cut level).above lower := by
  have hlength : t.lengthAt lower ≤ (t.entries.take (t.lengthAt level)).length := by
    rw [List.length_take, length_entries, Nat.min_eq_left (h.lengthAt_le level)]
    exact h.lengthAt_mono hle
  rw [above_eq, above_eq, above_eq, h.lengthAt_cut hle, entries_cut, ← List.reverse_append,
    ← List.drop_append_of_le_length hlength, List.take_append_drop]

/-- Of two cuts the lower one decides. -/
theorem cut_cut (h : t.WellFormed) {level lower : Nat} (hle : lower ≤ level) :
    (t.cut level).cut lower = t.cut lower := by
  refine eq_of_lists ?_ ?_ ?_
  · show ((t.cut level).above lower).foldl _ ((t.above level).foldl _ t.cells) =
      (t.above lower).foldl _ t.cells
    rw [h.above_eq_append hle, List.foldl_append]
  · rw [entries_cut, entries_cut, entries_cut, h.lengthAt_cut hle, List.take_take,
      Nat.min_eq_left (h.lengthAt_mono hle)]
  · rw [delimiters_cut, delimiters_cut, delimiters_cut, List.take_take, Nat.min_eq_left hle]

end WellFormed

end Trail

end ClauseLearning
