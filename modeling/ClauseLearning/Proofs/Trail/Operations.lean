import ClauseLearning.Proofs.Trail.WellFormed

/-!
# What the operations do to the trail

Creating a variable, assigning a literal, deciding and cutting keep the trail well formed. For each
of them this module says which literals are true and false afterwards, and on which level.
-/

set_option autoImplicit false

namespace ClauseLearning

namespace Trail

variable {t : Trail}

/-- The empty trail is well formed. -/
theorem wellFormed_empty : ({} : Trail).WellFormed where
  entry := by
    intro i l h
    simp [entries] at h
  free := fun _ _ => ⟨rfl, rfl, rfl⟩
  ascending := List.Pairwise.nil
  bounded := by
    intro d h
    simp [delimiters] at h
  decision := by
    intro d h
    simp [delimiters] at h

/-- A new variable is counted. -/
@[simp] theorem numVariables_grow (t : Trail) : t.grow.numVariables = t.numVariables + 1 := by
  simp [grow, numVariables]

/-- A new variable is unassigned, like every variable that was never created. -/
@[simp] theorem cell_grow (t : Trail) (v : Variable) : t.grow.cell v = t.cell v := by
  unfold grow cell
  rw [Arena.get?_push]
  by_cases h : v = t.cells.size
  · have hnone : t.cells.get? v = none := (Arena.get?_eq_none_iff _ _).2 (Nat.le_of_eq h.symm)
    rw [if_pos h, hnone]
    rfl
  · rw [if_neg h]

/-- A new variable makes no literal true. -/
@[simp] theorem isTrue_grow (t : Trail) (l : Literal) : t.grow.isTrue l = t.isTrue l := by
  unfold isTrue value
  rw [cell_grow]

/-- A new variable makes no literal false. -/
@[simp] theorem isFalse_grow (t : Trail) (l : Literal) : t.grow.isFalse l = t.isFalse l := by
  unfold isFalse value
  rw [cell_grow]

/-- A new variable is on no level. -/
@[simp] theorem level_grow (t : Trail) (v : Variable) : t.grow.level v = t.level v := by
  unfold level
  rw [cell_grow]

/-- A new variable has no reason. -/
@[simp] theorem reason_grow (t : Trail) (v : Variable) : t.grow.reason v = t.reason v := by
  unfold reason
  rw [cell_grow]

/-- A new variable has no position yet. -/
@[simp] theorem position_grow (t : Trail) (v : Variable) : t.grow.position v = t.position v := by
  unfold position
  rw [cell_grow]

/-- Opening a level creates no variable. -/
@[simp] theorem numVariables_openLevel (t : Trail) :
    t.openLevel.numVariables = t.numVariables := rfl

/-- Opening a level makes it the current one. -/
@[simp] theorem currentLevel_openLevel (t : Trail) :
    t.openLevel.currentLevel = t.currentLevel + 1 := by
  simp [openLevel, currentLevel]

/-- An assignment makes the trail longer by one. -/
@[simp] theorem length_push (t : Trail) (l : Literal) (r : Option ClauseId) :
    (t.push l r).length = t.length + 1 := by
  simp [push, length]

/-- An assignment stays on the current level. -/
@[simp] theorem currentLevel_push (t : Trail) (l : Literal) (r : Option ClauseId) :
    (t.push l r).currentLevel = t.currentLevel := rfl

/-- A cut leaves the levels up to the one cut at. -/
@[simp] theorem currentLevel_cut (t : Trail) (level : Nat) :
    (t.cut level).currentLevel = min level t.currentLevel := by
  simp [cut, currentLevel]

/-- A cut leaves the trail up to the end of the level. -/
@[simp] theorem length_cut (t : Trail) (level : Nat) :
    (t.cut level).length = min (t.lengthAt level) t.length := by
  simp [cut, length]

/-- A cut keeps the variables. -/
theorem numVariables_cut (t : Trail) (level : Nat) :
    (t.cut level).numVariables = t.numVariables := by
  have hsize : ∀ (ls : List Literal) (a : Arena Cell),
      (ls.foldl (fun cs l => cs.modify l.var Cell.release) a).size = a.size := by
    intro ls
    induction ls with
    | nil => exact fun _ => rfl
    | cons l ls ih =>
      intro a
      rw [List.foldl_cons, ih, Arena.size_modify]
  exact hsize _ _

/-! ## Truth after an operation -/

/-- An assignment makes its literal true, and no other. -/
theorem isTrue_push {l : Literal} {r : Option ClauseId} (hl : l.var < t.numVariables)
    (hfree : t.isAssigned l.var = false) (k : Literal) :
    (t.push l r).isTrue k = true ↔ k = l ∨ t.isTrue k = true := by
  rw [isTrue_iff, isTrue_iff, cell_push r hl]
  by_cases hvar : l.var = k.var
  · have hnone : (t.cell k.var).value = none := by
      rw [← hvar, ← Option.not_isSome_iff_eq_none]
      simpa [isAssigned] using hfree
    simp only [if_pos hvar, hnone, Option.some.injEq, reduceCtorEq, or_false]
    constructor
    · intro hpos
      cases k
      cases l
      simp_all
    · rintro rfl
      rfl
  · rw [if_neg hvar]
    constructor
    · exact Or.inr
    · rintro (rfl | h)
      · exact absurd rfl hvar
      · exact h

/-- The variable assigned is on the current level. -/
theorem level_push {l : Literal} {r : Option ClauseId} (hl : l.var < t.numVariables)
    (v : Variable) : (t.push l r).level v = if l.var = v then t.currentLevel else t.level v := by
  unfold level
  rw [cell_push r hl]
  split <;> rfl

/-- The variable assigned stands at the end. -/
theorem position_push {l : Literal} {r : Option ClauseId} (hl : l.var < t.numVariables)
    (v : Variable) : (t.push l r).position v = if l.var = v then t.length else t.position v := by
  unfold position
  rw [cell_push r hl]
  split <;> rfl

/-- An assignment assigns its variable, and no other. -/
theorem isAssigned_push {l : Literal} {r : Option ClauseId} (hl : l.var < t.numVariables)
    (v : Variable) :
    (t.push l r).isAssigned v = true ↔ l.var = v ∨ t.isAssigned v = true := by
  unfold isAssigned
  rw [cell_push r hl]
  by_cases h : l.var = v <;> simp [h]

namespace WellFormed

/-- A cut keeps the ends of the levels up to the level. -/
theorem lengthAt_cut (h : t.WellFormed) {level lower : Nat} (hle : lower ≤ level) :
    (t.cut level).lengthAt lower = t.lengthAt lower := by
  have hlength : (t.cut level).length = t.lengthAt level := by
    rw [length_cut, Nat.min_eq_left (h.lengthAt_le level)]
  rw [lengthAt_eq, delimiters_cut, hlength, List.getD_eq_getElem?_getD, List.getElem?_take]
  split
  next hlt =>
    rw [lengthAt_eq, lengthAt_eq, List.getD_eq_getElem?_getD, List.getD_eq_getElem?_getD]
    rcases Nat.lt_or_ge lower t.delimiters.length with hin | hout
    · rw [List.getElem?_eq_getElem hin]
      rfl
    · rw [List.getElem?_eq_none hout, List.getElem?_eq_none (Nat.le_trans hout hle)]
      rfl
  next hlt => rw [Nat.le_antisymm hle (Nat.le_of_not_lt hlt), Option.getD_none]

/-- A cut keeps the true literals of the levels up to the level. -/
theorem isTrue_cut (h : t.WellFormed) (level : Nat) (l : Literal) :
    (t.cut level).isTrue l = true ↔ t.isTrue l = true ∧ t.level l.var ≤ level := by
  rw [isTrue_iff, isTrue_iff, h.cell_cut_eq]
  split
  next hcut =>
    simp only [Cell.release, reduceCtorEq, false_iff, not_and]
    omega
  next hkeep =>
    constructor
    · intro hvalue
      refine ⟨hvalue, ?_⟩
      have hassigned := isAssigned_of_isTrue (isTrue_iff.2 hvalue)
      simp only [hassigned, true_and] at hkeep
      omega
    · exact And.left

/-- After a cut the false literals are those of the levels kept. -/
theorem isFalse_cut (h : t.WellFormed) (level : Nat) (l : Literal) :
    (t.cut level).isFalse l = true ↔ t.isFalse l = true ∧ t.level l.var ≤ level := by
  rw [← isTrue_negate, h.isTrue_cut, isTrue_negate, Literal.negate_var]

/-- After a cut the assigned variables are those of the levels kept. -/
theorem isAssigned_cut (h : t.WellFormed) (level : Nat) (v : Variable) :
    (t.cut level).isAssigned v = true ↔ t.isAssigned v = true ∧ t.level v ≤ level := by
  rw [isAssigned_iff, isAssigned_iff, h.cell_cut_eq]
  split
  next hcut =>
    simp only [Cell.release, reduceCtorEq, exists_false, false_iff, not_and]
    omega
  next hkeep =>
    constructor
    · rintro ⟨b, hb⟩
      refine ⟨⟨b, hb⟩, ?_⟩
      have hassigned := isAssigned_iff.2 ⟨b, hb⟩
      simp only [hassigned, true_and] at hkeep
      omega
    · exact And.left

/-- A cut keeps the levels of the variables kept. -/
theorem level_cut (h : t.WellFormed) (level : Nat) (v : Variable) :
    (t.cut level).level v = if t.level v ≤ level then t.level v else 0 := by
  unfold Trail.level
  rw [h.cell_cut_eq]
  by_cases hlevel : t.level v ≤ level
  · rw [if_neg (by omega)]
    exact (if_pos hlevel).symm
  · have hassigned := h.isAssigned_of_level (v := v) (by omega)
    rw [if_pos ⟨hassigned, by omega⟩]
    exact (if_neg hlevel).symm

/-- The position of a variable survives the undoing of its assignment. -/
theorem position_cut (h : t.WellFormed) (level : Nat) (v : Variable) :
    (t.cut level).position v = t.position v := by
  unfold position
  rw [h.cell_cut_eq]
  split <;> rfl

/-- A cut keeps the reasons of the variables kept. -/
theorem reason_cut (h : t.WellFormed) (level : Nat) (v : Variable) :
    (t.cut level).reason v = if t.level v ≤ level then t.reason v else none := by
  unfold reason
  rw [h.cell_cut_eq]
  by_cases hlevel : t.level v ≤ level
  · rw [if_neg (by omega), if_pos hlevel]
  · have hassigned := h.isAssigned_of_level (v := v) (by omega)
    rw [if_pos ⟨hassigned, by omega⟩, if_neg hlevel]
    rfl

/-! ## The operations keep the trail well formed -/

/-- A new variable keeps the trail well formed. -/
theorem grow (h : t.WellFormed) : t.grow.WellFormed where
  entry := by
    intro i l hi
    rw [cell_grow, level_grow, position_grow]
    exact h.entry i l hi
  free := by
    intro v hv
    rw [cell_grow, level_grow, reason_grow]
    exact h.free v hv
  ascending := h.ascending
  bounded := h.bounded
  decision := by
    intro d hd l hl
    rw [reason_grow]
    exact h.decision d hd l hl

/-- A variable with an entry is not free. -/
theorem var_ne_of_getElem? (h : t.WellFormed) {v : Variable} (hfree : t.isAssigned v = false)
    {i : Nat} {k : Literal} (hi : t.entries[i]? = some k) : v ≠ k.var := by
  rintro rfl
  rw [isAssigned_of_isTrue (h.isTrue_of_getElem? hi)] at hfree
  cases hfree

end WellFormed

/-! ### Assigning a literal, on a new level or not -/

/-- A trail with the same entries and cells, where a level may have been opened for a literal
without a reason. -/
structure Opens (t u : Trail) (r : Option ClauseId) : Prop where
  cell_eq : ∀ v, u.cell v = t.cell v
  numVariables_eq : u.numVariables = t.numVariables
  entries_eq : u.entries = t.entries
  delimiters_eq : u.delimiters = t.delimiters ∨ u.delimiters = t.delimiters ++ [t.length] ∧ r = none

namespace Opens

variable {u : Trail} {l : Literal} {r : Option ClauseId}

/-- At the same level nothing is opened. -/
theorem refl (t : Trail) (r : Option ClauseId) : t.Opens t r := ⟨fun _ => rfl, rfl, rfl, Or.inl rfl⟩

/-- A decision opens a level in front of itself. -/
theorem openLevel (t : Trail) : t.Opens t.openLevel none :=
  ⟨fun _ => rfl, rfl, rfl, Or.inr ⟨delimiters_openLevel t, rfl⟩⟩

/-- Opening a level assigns nothing. -/
theorem length_eq (h : t.Opens u r) : u.length = t.length := congrArg List.length h.entries_eq

/-- Only a literal without a reason gets a new delimiter, which stands in front of it. -/
theorem mem_delimiters (h : t.Opens u r) {d : Nat} (hd : d ∈ u.delimiters) :
    d ∈ t.delimiters ∨ d = t.length ∧ r = none := by
  rcases h.delimiters_eq with hds | ⟨hds, hr⟩
  · exact Or.inl (hds ▸ hd)
  · rw [hds, List.mem_append, List.mem_singleton] at hd
    exact hd.imp_right fun heq => ⟨heq, hr⟩

/-- Opening a level keeps the levels opened before. -/
theorem mem_delimiters_of_mem (h : t.Opens u r) {d : Nat} (hd : d ∈ t.delimiters) :
    d ∈ u.delimiters := by
  rcases h.delimiters_eq with hds | ⟨hds, -⟩
  · exact hds ▸ hd
  · exact hds ▸ List.mem_append_left _ hd

/-- The levels opened end on the trail. -/
theorem le_length (h : t.Opens u r) (ht : t.WellFormed) {d : Nat} (hd : d ∈ u.delimiters) :
    d ≤ t.length := by
  rcases h.mem_delimiters hd with hold | ⟨heq, -⟩
  · exact Nat.le_of_lt (ht.bounded d hold)
  · exact Nat.le_of_eq heq

/-- The level of an old place does not change, as a new delimiter lies beyond it. -/
theorem levelAt_of_lt (h : t.Opens u r) {i : Nat} (hi : i < t.length) :
    u.levelAt i = t.levelAt i := by
  unfold levelAt
  rcases h.delimiters_eq with hds | ⟨hds, -⟩
  · rw [hds]
  · rw [hds, List.countP_append, List.countP_singleton, if_neg (by simpa using hi), Nat.add_zero]

/-- The next place belongs to the current level. -/
theorem levelAt_length (h : t.Opens u r) (ht : t.WellFormed) :
    u.levelAt t.length = u.currentLevel := by
  rw [← length_delimiters]
  unfold levelAt
  rw [List.countP_eq_length]
  intro d hd
  exact decide_eq_true (h.le_length ht hd)

/-- The cells of other variables stay. -/
theorem cell_push (h : t.Opens u r) (hl : l.var < t.numVariables) {v : Variable}
    (hv : l.var ≠ v) : (u.push l r).cell v = t.cell v := by
  rw [Trail.cell_push r (h.numVariables_eq.symm ▸ hl), if_neg hv, h.cell_eq]

/-- The cell of the literal says what it was assigned. -/
theorem cell_push_self (h : t.Opens u r) (hl : l.var < t.numVariables) :
    (u.push l r).cell l.var = ⟨some l.positive, u.currentLevel, t.length, r⟩ := by
  rw [Trail.cell_push r (h.numVariables_eq.symm ▸ hl), if_pos rfl, h.length_eq]

/-- What is true afterwards is the literal itself, or was true before and keeps its cell. -/
theorem isTrue_push (h : t.Opens u r) (hl : l.var < t.numVariables) {k : Literal}
    (hk : (u.push l r).isTrue k = true) :
    k = l ∨ t.isTrue k = true ∧ (u.push l r).cell k.var = t.cell k.var := by
  by_cases hvar : l.var = k.var
  · have hself : (u.push l r).isTrue l = true := by
      rw [isTrue_iff, h.cell_push_self hl]
    exact Or.inl (eq_of_isTrue hk hself hvar.symm)
  · have hcell := h.cell_push hl hvar
    rw [isTrue_iff, hcell] at hk
    exact Or.inr ⟨isTrue_iff.2 hk, hcell⟩

/-- What was false before stays false, at its position. -/
theorem isFalse_push (h : t.Opens u r) (hl : l.var < t.numVariables)
    (hfree : t.isAssigned l.var = false) {k : Literal} (hk : t.isFalse k = true) :
    (u.push l r).isFalse k = true ∧ ((u.push l r).cell k.var).position = t.position k.var := by
  have hne : l.var ≠ k.var := by
    intro hvar
    rw [hvar, isAssigned_of_isFalse hk] at hfree
    cases hfree
  have hcell := h.cell_push hl hne
  rw [isFalse_iff] at hk ⊢
  rw [hcell]
  exact ⟨hk, rfl⟩

/-- An entry afterwards was one before, or is the literal at the end. -/
theorem getElem?_push (h : t.Opens u r) {i : Nat} {k : Literal}
    (hi : (u.push l r).entries[i]? = some k) :
    t.entries[i]? = some k ∨ i = t.length ∧ k = l := by
  rw [entries_push, h.entries_eq] at hi
  rcases Nat.lt_or_ge i t.entries.length with hlt | hge
  · rw [List.getElem?_append_left hlt] at hi
    exact Or.inl hi
  · rw [List.getElem?_append_right hge, List.getElem?_singleton] at hi
    split at hi
    next hzero =>
      refine Or.inr ⟨?_, (Option.some.inj hi).symm⟩
      rw [length_entries] at hge hzero
      omega
    next => cases hi

/-- A literal of a free variable is put at the end of a well-formed trail. -/
theorem push (h : t.Opens u r) (ht : t.WellFormed) (hl : l.var < t.numVariables)
    (hfree : t.isAssigned l.var = false) : (u.push l r).WellFormed where
  entry := by
    intro i k hi
    show _ ∧ ((u.push l r).cell k.var).level = u.levelAt i ∧ ((u.push l r).cell k.var).position = i
    rcases h.getElem?_push hi with hold | ⟨rfl, rfl⟩
    · rw [h.cell_push hl (ht.var_ne_of_getElem? hfree hold),
        h.levelAt_of_lt (List.getElem?_eq_some_iff.1 hold).1]
      exact ht.entry i k hold
    · rw [h.cell_push_self hl, h.levelAt_length ht]
      exact ⟨rfl, rfl, rfl⟩
  free := by
    intro v hv
    rw [entries_push, h.entries_eq] at hv
    have hne : l.var ≠ v := hv l (List.mem_append_right _ (List.mem_singleton_self _))
    unfold Trail.level reason
    rw [h.cell_push hl hne]
    exact ht.free v fun k hk => hv k (List.mem_append_left _ hk)
  ascending := by
    rw [delimiters_push]
    -- a level that is opened for the literal begins at the end of the trail
    rcases h.delimiters_eq with hds | ⟨hds, -⟩
    · exact hds ▸ ht.ascending
    · rw [hds, List.pairwise_append]
      refine ⟨ht.ascending, List.pairwise_singleton _ _, fun a ha b hb => ?_⟩
      rw [List.mem_singleton.1 hb]
      exact ht.bounded a ha
  bounded := by
    intro d hd
    rw [length_push, h.length_eq]
    exact Nat.lt_succ_of_le (h.le_length ht hd)
  decision := by
    intro d hd k hk
    unfold reason
    rcases h.getElem?_push hk with hold | ⟨rfl, rfl⟩
    · rw [h.cell_push hl (ht.var_ne_of_getElem? hfree hold)]
      have hlt : d < t.length := (List.getElem?_eq_some_iff.1 hold).1
      rcases h.mem_delimiters hd with hd | ⟨heq, -⟩
      · exact ht.decision d hd k hold
      · exact absurd heq (Nat.ne_of_lt hlt)
    · rw [h.cell_push_self hl]
      rcases h.mem_delimiters hd with hd | ⟨-, hr⟩
      · exact absurd (ht.bounded _ hd) (Nat.lt_irrefl _)
      · exact hr

end Opens

namespace WellFormed

/-- An assignment keeps the trail well formed. -/
theorem push (h : t.WellFormed) {l : Literal} (r : Option ClauseId) (hl : l.var < t.numVariables)
    (hfree : t.isAssigned l.var = false) : (t.push l r).WellFormed :=
  (Opens.refl t r).push h hl hfree

/-- A decision opens a level. -/
theorem push_openLevel (h : t.WellFormed) {l : Literal} (hl : l.var < t.numVariables)
    (hfree : t.isAssigned l.var = false) : (t.openLevel.push l none).WellFormed :=
  (Opens.openLevel t).push h hl hfree

/-! ### Undoing levels -/

/-- The places that a cut keeps are on the same levels. -/
theorem levelAt_cut (h : t.WellFormed) {level i : Nat} (hi : i < t.length)
    (hlt : i < t.lengthAt level) : (t.cut level).levelAt i = t.levelAt i := by
  unfold levelAt
  rw [delimiters_cut]
  conv_rhs => rw [← List.take_append_drop level t.delimiters]
  rw [List.countP_append, Nat.left_eq_add, List.countP_eq_zero]
  intro d hd
  obtain ⟨j, hj⟩ := List.mem_iff_getElem?.1 hd
  rw [List.getElem?_drop] at hj
  -- the dropped delimiters are not below the end of the level
  have hle : t.levelAt i ≤ level + j :=
    Nat.le_trans ((h.levelAt_le_iff hi).2 hlt) (Nat.le_add_right _ _)
  have := (countP_le_iff h.ascending i (level + j)).1 hle d hj
  simp only [decide_eq_true_eq]
  omega

/-- The entries that a cut keeps are those in front of the end of the level. -/
theorem getElem?_cut (t : Trail) {level i : Nat} {l : Literal}
    (hi : (t.cut level).entries[i]? = some l) :
    t.entries[i]? = some l ∧ i < t.lengthAt level := by
  rw [entries_cut, List.getElem?_take] at hi
  split at hi
  next hlt => exact ⟨hi, hlt⟩
  next => cases hi

/-- The variables without an entry after a cut are free or lie above the level. -/
theorem level_of_not_mem_cut (h : t.WellFormed) {level : Nat} {v : Variable}
    (hv : ∀ l ∈ (t.cut level).entries, l.var ≠ v) (hassigned : t.isAssigned v = true) :
    level < t.level v := by
  obtain ⟨l, rfl, hl⟩ := exists_isTrue hassigned
  by_contra hle
  rw [Nat.not_lt, h.level_le_iff hassigned] at hle
  refine hv l (List.mem_iff_getElem?.2 ⟨t.position l.var, ?_⟩) rfl
  rw [entries_cut, List.getElem?_take, if_pos hle]
  exact h.getElem?_position hl

/-- The delimiters that a cut keeps lie in front of the end of the level. -/
theorem lt_length_cut (h : t.WellFormed) {level d : Nat} (hd : d ∈ (t.cut level).delimiters) :
    d < (t.cut level).length := by
  rw [delimiters_cut] at hd
  obtain ⟨j, hj⟩ := List.mem_iff_getElem?.1 hd
  rw [List.getElem?_take] at hj
  split at hj
  next hlt =>
    have hd : d < t.length := h.bounded d (List.mem_of_getElem? hj)
    rw [length_cut, lengthAt_eq, List.getD_eq_getElem?_getD]
    cases he : t.delimiters[level]? with
    | none => simpa using hd
    | some e =>
      have hde : d < e := by
        obtain ⟨hj', hj⟩ := List.getElem?_eq_some_iff.1 hj
        obtain ⟨he', he⟩ := List.getElem?_eq_some_iff.1 he
        rw [← hj, ← he]
        exact List.pairwise_iff_getElem.1 h.ascending j level hj' he' hlt
      exact Nat.lt_min.2 ⟨hde, hd⟩
  next => cases hj

/-- A cut keeps the trail well formed. -/
theorem cut (h : t.WellFormed) (level : Nat) : (t.cut level).WellFormed where
  entry := by
    intro i l hi
    obtain ⟨hi, hlt⟩ := getElem?_cut t hi
    obtain ⟨hvalue, hlevel, hposition⟩ := h.entry i l hi
    have htrue := h.isTrue_of_getElem? hi
    have hle : t.level l.var ≤ level := by
      rw [h.level_le_iff (isAssigned_of_isTrue htrue), hposition]
      exact hlt
    refine ⟨isTrue_iff.1 ((h.isTrue_cut level l).2 ⟨htrue, hle⟩), ?_, ?_⟩
    · rw [h.level_cut, if_pos hle, h.levelAt_cut (List.getElem?_eq_some_iff.1 hi).1 hlt, hlevel]
    · rw [h.position_cut, hposition]
  free := by
    intro v hv
    unfold Trail.level reason
    by_cases hassigned : t.isAssigned v = true
    · rw [h.cell_cut_eq, if_pos ⟨hassigned, h.level_of_not_mem_cut hv hassigned⟩]
      exact ⟨rfl, rfl, rfl⟩
    · have hfree := Bool.eq_false_iff.2 hassigned
      rw [h.cell_cut_eq, if_neg fun hno => hassigned hno.1]
      exact ⟨Option.not_isSome_iff_eq_none.1 hassigned, h.level_eq_zero hfree,
        h.reason_eq_none hfree⟩
  ascending := by
    rw [delimiters_cut]
    exact h.ascending.sublist (List.take_sublist _ _)
  bounded := fun d hd => h.lt_length_cut hd
  decision := by
    intro d hd l hl
    rw [delimiters_cut] at hd
    rw [h.reason_cut, h.decision d (List.mem_of_mem_take hd) l (getElem?_cut t hl).1]
    split <;> rfl

end WellFormed

end Trail

end ClauseLearning
