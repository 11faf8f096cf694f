import ClauseLearning.Proofs.Trail.Operations

/-!
# How a trail evolves

A trail *evolves* by steps of four kinds: a variable is created, a literal of a free variable is put
at the end, a level is opened for a decision, and the levels above a level are cut off.

No step touches the root entries: an assignment goes behind them, and a cut keeps at least the root
level. So along an evolution the root entries only become more, in the same order and with the same
cells. Levels are opened by decisions only, so the entry at a delimiter is one of them.
-/

set_option autoImplicit false

namespace ClauseLearning

namespace Trail

variable {t u : Trail} {D : Literal → Prop}

/-- The trails that steps lead to, where the literals decided have a property. -/
inductive Evolves (D : Literal → Prop) (t : Trail) : Trail → Prop where
  | refl : Evolves D t t
  | grow {u : Trail} : Evolves D t u → Evolves D t u.grow
  | push {u : Trail} {l : Literal} (r : Option ClauseId) : Evolves D t u →
      l.var < u.numVariables → u.isAssigned l.var = false → Evolves D t (u.push l r)
  | decide {u : Trail} {l : Literal} : Evolves D t u → l.var < u.numVariables →
      u.isAssigned l.var = false → D l → Evolves D t (u.openLevel.push l none)
  | cut {u : Trail} (level : Nat) : Evolves D t u → Evolves D t (u.cut level)

/-- The root entries of a trail are the first root entries of another one, and what is recorded of
their variables is the same. -/
structure KeepsRoot (t u : Trail) : Prop where
  numRoot_le : t.numRoot ≤ u.numRoot
  entries_eq : u.entries.take t.numRoot = t.entries.take t.numRoot
  cell_eq : ∀ l ∈ t.entries.take t.numRoot, u.cell l.var = t.cell l.var

/-- The entries at the delimiters have a property. -/
def Decided (D : Literal → Prop) (t : Trail) : Prop :=
  ∀ d ∈ t.delimiters, ∃ l, t.entries[d]? = some l ∧ D l

/-! ## The root level -/

namespace WellFormed

/-- Every level ends behind the root level. -/
theorem numRoot_le_lengthAt (h : t.WellFormed) (level : Nat) : t.numRoot ≤ t.lengthAt level :=
  h.lengthAt_mono (Nat.zero_le level)

/-- The entries of the root level are true. -/
theorem isTrue_of_mem_root (h : t.WellFormed) {l : Literal} (hl : l ∈ t.entries.take t.numRoot) :
    t.isTrue l = true := h.isTrue_iff_mem.2 (List.mem_of_mem_take hl)

/-- The entries of the root level have level zero. -/
theorem level_of_mem_root (h : t.WellFormed) {l : Literal} (hl : l ∈ t.entries.take t.numRoot) :
    t.level l.var = 0 := by
  have htrue := h.isTrue_of_mem_root hl
  obtain ⟨i, hi⟩ := List.mem_iff_getElem?.1 hl
  rw [List.getElem?_take] at hi
  split at hi
  next hlt =>
    apply Nat.eq_zero_of_le_zero
    rw [h.level_le_iff (isAssigned_of_isTrue htrue), (h.entry i l hi).2.2, lengthAt_eq,
      List.getD_eq_getElem?_getD, ← List.head?_eq_getElem?, ← List.headD_eq_head?_getD,
      ← numRoot_eq]
    exact hlt
  next => cases hi

/-- A cut leaves the root level. -/
theorem numRoot_cut (h : t.WellFormed) (level : Nat) : (t.cut level).numRoot = t.numRoot :=
  h.lengthAt_cut (Nat.zero_le level)

end WellFormed

namespace KeepsRoot

/-- A trail keeps its own root level. -/
theorem refl (t : Trail) : t.KeepsRoot t := ⟨Nat.le_refl _, rfl, fun _ _ => rfl⟩

/-- What is kept twice is kept. -/
theorem trans {t' : Trail} (h : t.KeepsRoot u) (h' : u.KeepsRoot t') : t.KeepsRoot t' := by
  have hsub : t.entries.take t.numRoot ⊆ u.entries.take u.numRoot := by
    rw [← h.entries_eq]
    exact List.take_subset_take_left _ h.numRoot_le
  refine ⟨Nat.le_trans h.numRoot_le h'.numRoot_le, ?_, fun l hl => ?_⟩
  · rw [← h.entries_eq, ← Nat.min_eq_left h.numRoot_le, ← List.take_take, ← List.take_take,
      h'.entries_eq]
  · exact (h'.cell_eq l (hsub hl)).trans (h.cell_eq l hl)

/-- A new variable leaves the root level. -/
theorem grow (t : Trail) : t.KeepsRoot t.grow := ⟨Nat.le_refl _, rfl, fun l _ => cell_grow t l.var⟩

/-- A literal is put behind the root entries, whether or not it opens a level. -/
theorem push_of_opens (ht : t.WellFormed) {l : Literal} {r : Option ClauseId}
    (hopens : t.Opens u r) (hl : l.var < t.numVariables) (hfree : t.isAssigned l.var = false) :
    t.KeepsRoot (u.push l r) where
  numRoot_le := by
    rw [numRoot_eq, numRoot_eq, delimiters_push, length_push, hopens.length_eq]
    rcases hopens.delimiters_eq with hds | ⟨hds, -⟩
    · rw [hds]
      cases t.delimiters <;> simp
    · rw [hds]
      cases t.delimiters <;> simp
  entries_eq := by
    rw [entries_push, hopens.entries_eq]
    exact List.take_append_of_le_length ht.numRoot_le_length
  cell_eq := by
    intro k hk
    refine hopens.cell_push hl fun hvar => ?_
    rw [hvar, isAssigned_of_isTrue (ht.isTrue_of_mem_root hk)] at hfree
    cases hfree

/-- A cut keeps the root level. -/
theorem cut (ht : t.WellFormed) (level : Nat) : t.KeepsRoot (t.cut level) where
  numRoot_le := Nat.le_of_eq (ht.numRoot_cut level).symm
  entries_eq := by
    rw [entries_cut, List.take_take, Nat.min_eq_left (ht.numRoot_le_lengthAt level)]
  cell_eq := by
    intro l hl
    rw [ht.cell_cut_eq, ht.level_of_mem_root hl, if_neg fun h => Nat.not_lt_zero _ h.2]

end KeepsRoot

/-! ## Decisions -/

namespace Decided

/-- What was decided may be described more loosely. -/
theorem mono {D' : Literal → Prop} (h : t.Decided D) (hD : ∀ l, D l → D' l) : t.Decided D' := by
  intro d hd
  obtain ⟨l, hl, hdecided⟩ := h d hd
  exact ⟨l, hl, hD l hdecided⟩

/-- A literal that opens a level has to have the property. -/
theorem push_of_opens (ht : t.WellFormed) (h : t.Decided D) {l : Literal} {r : Option ClauseId}
    (hopens : t.Opens u r) (hdecided : u.delimiters = t.delimiters ∨ D l) :
    (u.push l r).Decided D := by
  have hold : ∀ d ∈ t.delimiters, ∃ k, (u.push l r).entries[d]? = some k ∧ D k := by
    intro d hd
    obtain ⟨k, hk, hDk⟩ := h d hd
    have hlt : d < t.entries.length := ht.bounded d hd
    refine ⟨k, ?_, hDk⟩
    rw [entries_push, hopens.entries_eq, List.getElem?_append_left hlt]
    exact hk
  intro d hd
  rw [delimiters_push] at hd
  rcases hdecided with heq | hDl
  · exact hold d (heq ▸ hd)
  · rcases hopens.mem_delimiters hd with hd | ⟨rfl, -⟩
    · exact hold d hd
    · refine ⟨l, ?_, hDl⟩
      rw [entries_push, hopens.entries_eq, ← length_entries, List.getElem?_concat_length]

/-- The levels that a cut leaves were decided. -/
theorem cut (ht : t.WellFormed) (h : t.Decided D) (level : Nat) : (t.cut level).Decided D := by
  intro d hd
  have hlt := ht.lt_length_cut hd
  rw [delimiters_cut] at hd
  obtain ⟨l, hl, hDl⟩ := h d (List.mem_of_mem_take hd)
  refine ⟨l, ?_, hDl⟩
  rw [length_cut] at hlt
  rw [entries_cut, List.getElem?_take, if_pos (Nat.lt_of_lt_of_le hlt (Nat.min_le_left _ _))]
  exact hl

end Decided

/-! ## Evolutions -/

namespace Evolves

/-- An evolution goes on from where another one stopped. -/
theorem trans {t' : Trail} (h : Evolves D t u) (h' : Evolves D u t') : Evolves D t t' := by
  induction h' with
  | refl => exact h
  | grow _ ih => exact ih.grow
  | push r _ hl hfree ih => exact ih.push r hl hfree
  | decide _ hl hfree hD ih => exact ih.decide hl hfree hD
  | cut level _ ih => exact ih.cut level

/-- What was decided in an evolution may be described more loosely. -/
theorem mono {D' : Literal → Prop} (h : Evolves D t u) (hD : ∀ l, D l → D' l) :
    Evolves D' t u := by
  induction h with
  | refl => exact .refl
  | grow _ ih => exact ih.grow
  | push r _ hl hfree ih => exact ih.push r hl hfree
  | decide _ hl hfree hDl ih => exact ih.decide hl hfree (hD _ hDl)
  | cut level _ ih => exact ih.cut level

/-- An evolution keeps the trail well formed. -/
theorem wellFormed (h : Evolves D t u) (ht : t.WellFormed) : u.WellFormed := by
  induction h with
  | refl => exact ht
  | grow _ ih => exact ih.grow
  | push r _ hl hfree ih => exact ih.push r hl hfree
  | decide _ hl hfree _ ih => exact ih.push_openLevel hl hfree
  | cut level _ ih => exact ih.cut level

/-- No evolution removes, reorders or changes a root entry. -/
theorem keepsRoot (h : Evolves D t u) (ht : t.WellFormed) : t.KeepsRoot u := by
  induction h with
  | refl => exact .refl t
  | grow _ ih => exact ih.trans (.grow _)
  | push r hu hl hfree ih =>
    exact ih.trans (.push_of_opens (hu.wellFormed ht) (Opens.refl _ r) hl hfree)
  | decide hu hl hfree _ ih =>
    exact ih.trans (.push_of_opens (hu.wellFormed ht) (Opens.openLevel _) hl hfree)
  | cut level hu ih => exact ih.trans (.cut (hu.wellFormed ht) level)

/-- Levels are opened for the literals decided. -/
theorem decided (h : Evolves D t u) (ht : t.WellFormed) (hstart : t.Decided D) : u.Decided D := by
  induction h with
  | refl => exact hstart
  | grow _ ih => exact ih
  | push r hu _ _ ih => exact ih.push_of_opens (hu.wellFormed ht) (Opens.refl _ r) (Or.inl rfl)
  | decide hu _ _ hD ih => exact ih.push_of_opens (hu.wellFormed ht) (Opens.openLevel _) (Or.inr hD)
  | cut level hu ih => exact ih.cut (hu.wellFormed ht) level

end Evolves

/-- Entries, delimiters and cells describe the same assignments: no variable has two entries; the
cell of an entry has its position, the value that makes it true, and as level the number of
delimiters at or before it; the delimiters ascend and lie in front of literals without a reason,
which have a property; and what has no entry is free. -/
structure Represents (D : Literal → Prop) (t : Trail) : Prop where
  distinct : (t.entries.map Literal.var).Nodup
  entry : ∀ i l, t.entries[i]? = some l → t.position l.var = i ∧
    (t.cell l.var).value = some l.positive ∧
    t.level l.var = t.delimiters.countP fun d => decide (d ≤ i)
  ascending : t.delimiters.Pairwise (· < ·)
  bounded : ∀ d ∈ t.delimiters, d < t.length
  decision : ∀ d ∈ t.delimiters, ∃ l, t.entries[d]? = some l ∧ t.reason l.var = none ∧ D l
  free : ∀ v, (∀ l ∈ t.entries, l.var ≠ v) →
    (t.cell v).value = none ∧ t.level v = 0 ∧ t.reason v = none

/-- A well-formed trail whose levels were decided represents an assignment. -/
theorem WellFormed.represents (ht : t.WellFormed) (hD : t.Decided D) : t.Represents D where
  distinct := ht.nodup_map_var
  entry := by
    intro i l hi
    obtain ⟨hvalue, hlevel, hposition⟩ := ht.entry i l hi
    exact ⟨hposition, hvalue, hlevel⟩
  ascending := ht.ascending
  bounded := ht.bounded
  decision := by
    intro d hd
    obtain ⟨l, hl, hDl⟩ := hD d hd
    exact ⟨l, hl, ht.decision d hd l hl, hDl⟩
  free := ht.free

end Trail

end ClauseLearning
