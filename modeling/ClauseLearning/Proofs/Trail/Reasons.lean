import ClauseLearning.Audit
import ClauseLearning.Proofs.Trail.Operations

/-!
# Explained assignments

A trail is *justified* by the stored clauses if every recorded reason is a stored clause that
contains the true literal and whose other literals became false before it. Following reasons
therefore leads strictly down the trail. It is *explained* if in addition only the decisions have no
reason above the root.

An assignment keeps a trail justified if its reason, where it has one, passes the audit of reasons;
without a reason it keeps the trail explained if it is a decision or made at the root.
-/

set_option autoImplicit false

namespace ClauseLearning

/-- The clauses of a store go on to be stored under their names, with their literals. -/
def ClauseStore.KeptIn (s s' : ClauseStore) : Prop :=
  ∀ c clause, s.get? c = some clause →
    ∃ clause', s'.get? c = some clause' ∧ clause'.literals = clause.literals

namespace ClauseStore

/-- A store keeps its own clauses. -/
theorem KeptIn.refl (s : ClauseStore) : s.KeptIn s := fun _ clause h => ⟨clause, h, rfl⟩

/-- What is kept twice is kept. -/
theorem KeptIn.trans {s s' s'' : ClauseStore} (h : s.KeptIn s') (h' : s'.KeptIn s'') :
    s.KeptIn s'' := by
  intro c clause hc
  obtain ⟨clause', hc', heq⟩ := h c clause hc
  obtain ⟨clause'', hc'', heq'⟩ := h' c clause' hc'
  exact ⟨clause'', hc'', heq'.trans heq⟩

/-- Names beyond the stored clauses are free. -/
theorem lt_nextId {s : ClauseStore} {c : ClauseId} {clause : Clause} (h : s.get? c = some clause) :
    c < s.nextId := by
  by_contra hge
  have hnone : s.get? c = none := (Arena.get?_eq_none_iff _ _).2 (Nat.le_of_not_lt hge)
  rw [hnone] at h
  cases h

/-- Storing a clause keeps the others. -/
theorem keptIn_insert (s : ClauseStore) (clause : Clause) : s.KeptIn (s.insert clause) := by
  intro c old hc
  refine ⟨old, ?_, rfl⟩
  rw [get?_insert, if_neg (Nat.ne_of_lt (lt_nextId hc))]
  exact hc

end ClauseStore

namespace Trail

/-- A search for a literal that is not false finds none exactly if all literals are false. -/
theorem findUnfalsified_eq_none_iff {t : Trail} {ls : List Literal} :
    t.findUnfalsified ls = .ok none ↔ ∀ l ∈ ls, t.isFalse l = true := by
  induction ls with
  | nil => simp [findUnfalsified]
  | cons l ls ih =>
    rw [findUnfalsified, Fault.bind_eq_ok_iff, List.forall_mem_cons, ← ih]
    constructor
    · rintro ⟨_, -, hok⟩
      split at hok
      next hfalse => exact ⟨hfalse, hok⟩
      next => cases hok
    · rintro ⟨hfalse, hok⟩
      have hknown := lt_numVariables_of_isAssigned (isAssigned_of_isFalse hfalse)
      exact ⟨(), require_eq_ok_iff.2 hknown, by rw [if_pos hfalse, hok]⟩

/-- The search answers that it found nothing exactly if all literals are false. -/
theorem map_isNone_findUnfalsified_iff {t : Trail} {ls : List Literal} :
    (∃ found, t.findUnfalsified ls = .ok found ∧ found.isNone = true) ↔
      ∀ l ∈ ls, t.isFalse l = true := by
  rw [← findUnfalsified_eq_none_iff]
  simp

/-- A stored clause contains the literal, and its other literals are false. -/
def Implies (t : Trail) (s : ClauseStore) (l : Literal) (c : ClauseId) : Prop :=
  ∃ clause, s.get? c = some clause ∧ l ∈ clause.literals ∧
    ∀ k ∈ clause.literals, k ≠ l → t.isFalse k = true

/-- The audit of reasons accepts exactly the clauses that imply the literal. -/
theorem holdsReason_iff {t : Trail} {s : ClauseStore} {l : Literal} {c : ClauseId} :
    (t.holdsReason s l c).result = .ok true ↔ t.Implies s l c := by
  unfold holdsReason Implies
  rw [Traced.result_bind_eq_ok_iff]
  simp only [Traced.result_liftM, ClauseStore.get_eq_ok_iff]
  refine exists_congr fun clause => and_congr_right fun _ => ?_
  by_cases hmem : l ∈ clause.literals
  · rw [if_pos (List.contains_iff_mem.2 hmem), Traced.result_bind_eq_ok_iff]
    simp only [Traced.result_liftM, Traced.result_pure, Except.ok.injEq,
      map_isNone_findUnfalsified_iff]
    simp [hmem]
  · simp [hmem, Fault.bind_eq_ok_iff]

/-- The audit of conflicts accepts exactly the stored clauses that are false. -/
theorem holdsConflict_iff {t : Trail} {s : ClauseStore} {c : ClauseId} :
    (t.holdsConflict s c).result = .ok true ↔
      ∃ clause, s.get? c = some clause ∧ ∀ k ∈ clause.literals, t.isFalse k = true := by
  unfold holdsConflict
  rw [Traced.result_bind_eq_ok_iff]
  simp only [Traced.result_liftM, ClauseStore.get_eq_ok_iff, Traced.result_bind_eq_ok_iff,
    Traced.result_pure, Except.ok.injEq, map_isNone_findUnfalsified_iff]

/-- Every recorded reason is a stored clause that contains the true literal, and its other literals
became false before. -/
def Justified (t : Trail) (s : ClauseStore) : Prop :=
  ∀ l c, t.isTrue l = true → t.reason l.var = some c →
    ∃ clause, s.get? c = some clause ∧ l ∈ clause.literals ∧
      ∀ k ∈ clause.literals, k ≠ l →
        t.isFalse k = true ∧ t.position k.var < t.position l.var

/-- Reasons imply their literals, and above the root only decisions lack a reason. -/
structure Explained (t : Trail) (s : ClauseStore) : Prop where
  implied : ∀ l c, t.isTrue l = true → t.reason l.var = some c →
    ∃ clause, s.get? c = some clause ∧ l ∈ clause.literals ∧
      ∀ k ∈ clause.literals, k ≠ l →
        t.isFalse k = true ∧ t.position k.var < t.position l.var
  unexplained : ∀ l, t.isTrue l = true → 0 < t.level l.var → t.reason l.var = none →
    t.position l.var ∈ t.delimiters

namespace Justified

variable {t : Trail} {s : ClauseStore}

/-- On the empty trail there is nothing to justify. -/
theorem empty (s : ClauseStore) : ({} : Trail).Justified s := by
  intro l c hl
  cases hl

/-- More clauses and other stamps justify no less. -/
theorem mono (h : t.Justified s) {s' : ClauseStore} (hkept : s.KeptIn s') : t.Justified s' := by
  intro l c hl hr
  obtain ⟨clause, hc, hmem, hfalse⟩ := h l c hl hr
  obtain ⟨clause', hc', heq⟩ := hkept c clause hc
  exact ⟨clause', hc', heq ▸ hmem, heq ▸ hfalse⟩

/-- A new variable needs no justification. -/
theorem grow (h : t.Justified s) : t.grow.Justified s := by
  intro l c hl hr
  rw [isTrue_grow] at hl
  rw [reason_grow] at hr
  obtain ⟨clause, hc, hmem, hrest⟩ := h l c hl hr
  refine ⟨clause, hc, hmem, fun k hk hkl => ?_⟩
  rw [isFalse_grow, position_grow, position_grow]
  exact hrest k hk hkl

/-- A literal put at the end of the trail is justified if its reason implies it. -/
theorem push_of_opens (ht : t.WellFormed) (h : t.Justified s) {u : Trail} {l : Literal}
    {r : Option ClauseId} (hopens : t.Opens u r) (hl : l.var < t.numVariables)
    (hfree : t.isAssigned l.var = false) (himplied : ∀ c, r = some c → t.Implies s l c) :
    (u.push l r).Justified s := by
  intro k c hk hr
  unfold reason at hr
  unfold position
  rcases hopens.isTrue_push hl hk with rfl | ⟨hold, hcell⟩
  · rw [hopens.cell_push_self hl] at hr ⊢
    obtain ⟨clause, hc, hmem, hrest⟩ := himplied c hr
    refine ⟨clause, hc, hmem, fun x hx hxk => ?_⟩
    have hxf := hrest x hx hxk
    obtain ⟨hfalse, hposition⟩ := hopens.isFalse_push hl hfree hxf
    rw [hposition]
    exact ⟨hfalse, ht.position_lt (isAssigned_of_isFalse hxf)⟩
  · rw [hcell] at hr ⊢
    obtain ⟨clause, hc, hmem, hrest⟩ := h k c hold hr
    refine ⟨clause, hc, hmem, fun x hx hxk => ?_⟩
    obtain ⟨hxf, hlt⟩ := hrest x hx hxk
    obtain ⟨hfalse, hposition⟩ := hopens.isFalse_push hl hfree hxf
    rw [hposition]
    exact ⟨hfalse, hlt⟩

/-- An assignment that its reason implies keeps the trail justified. -/
theorem push (ht : t.WellFormed) (h : t.Justified s) {l : Literal} {r : Option ClauseId}
    (hl : l.var < t.numVariables) (hfree : t.isAssigned l.var = false)
    (himplied : ∀ c, r = some c → t.Implies s l c) : (t.push l r).Justified s :=
  push_of_opens ht h (Opens.refl t r) hl hfree himplied

/-- A decision keeps the trail justified. -/
theorem push_openLevel (ht : t.WellFormed) (h : t.Justified s) {l : Literal}
    (hl : l.var < t.numVariables) (hfree : t.isAssigned l.var = false) :
    (t.openLevel.push l none).Justified s :=
  push_of_opens ht h (Opens.openLevel t) hl hfree fun _ hc => nomatch hc

/-- The literals of a reason are undone after the literal that it implies. -/
theorem cut (ht : t.WellFormed) (h : t.Justified s) (level : Nat) : (t.cut level).Justified s := by
  intro l c hl hr
  rw [ht.isTrue_cut] at hl
  rw [ht.reason_cut, if_pos hl.2] at hr
  obtain ⟨clause, hc, hmem, hrest⟩ := h l c hl.1 hr
  refine ⟨clause, hc, hmem, fun k hk hkl => ?_⟩
  obtain ⟨hkf, hlt⟩ := hrest k hk hkl
  rw [ht.isFalse_cut, ht.position_cut, ht.position_cut]
  have hle := ht.level_mono (isAssigned_of_isFalse hkf) (isAssigned_of_isTrue hl.1)
    (Nat.le_of_lt hlt)
  exact ⟨⟨hkf, Nat.le_trans hle hl.2⟩, hlt⟩

/-- The clause that stands for the reason of a true literal. -/
theorem of_get? (h : t.Justified s) {l : Literal} {c : ClauseId} {clause : Clause}
    (hl : t.isTrue l = true) (hr : t.reason l.var = some c) (hc : s.get? c = some clause) :
    l ∈ clause.literals ∧ ∀ k ∈ clause.literals, k ≠ l →
      t.isFalse k = true ∧ t.position k.var < t.position l.var := by
  obtain ⟨clause', hc', hclause⟩ := h l c hl hr
  obtain rfl : clause = clause' := Option.some.inj (hc.symm.trans hc')
  exact hclause

/-- A literal of a reason other than the implied one stands at a place of its own. -/
theorem var_ne (h : t.Justified s) {l k : Literal} {c : ClauseId} {clause : Clause}
    (hl : t.isTrue l = true) (hr : t.reason l.var = some c) (hc : s.get? c = some clause)
    (hk : k ∈ clause.literals) (hkl : k ≠ l) : k.var ≠ l.var := by
  intro hvar
  have hlt := ((h.of_get? hl hr hc).2 k hk hkl).2
  rw [hvar] at hlt
  exact Nat.lt_irrefl _ hlt

end Justified

namespace Explained

variable {t : Trail} {s : ClauseStore}

/-- What is explained is justified. -/
theorem justified (h : t.Explained s) : t.Justified s := h.implied

/-- On the empty trail there is nothing to explain. -/
theorem empty (s : ClauseStore) : ({} : Trail).Explained s := by
  refine ⟨Justified.empty s, ?_⟩
  intro l hl
  cases hl

/-- What is explained stays so while clauses are kept. -/
theorem mono (h : t.Explained s) {s' : ClauseStore} (hkept : s.KeptIn s') : t.Explained s' :=
  ⟨h.justified.mono hkept, h.unexplained⟩

/-- A new variable needs no explanation. -/
theorem grow (h : t.Explained s) : t.grow.Explained s := by
  refine ⟨h.justified.grow, fun l hl hlevel hr => ?_⟩
  rw [isTrue_grow] at hl
  rw [level_grow] at hlevel
  rw [reason_grow] at hr
  rw [position_grow]
  exact h.unexplained l hl hlevel hr

/-- A literal put at the end of the trail is explained if its reason implies it or, without a
reason, if it is fixed at the root or opens a level. -/
theorem push_of_opens (ht : t.WellFormed) (h : t.Explained s) {u : Trail} {l : Literal}
    {r : Option ClauseId} (hopens : t.Opens u r) (hl : l.var < t.numVariables)
    (hfree : t.isAssigned l.var = false) (himplied : ∀ c, r = some c → t.Implies s l c)
    (hunexplained : r = none → u.currentLevel = 0 ∨ t.length ∈ u.delimiters) :
    (u.push l r).Explained s := by
  refine ⟨h.justified.push_of_opens ht hopens hl hfree himplied, fun k hk hlevel hr => ?_⟩
  unfold level at hlevel
  unfold reason at hr
  unfold position
  rw [delimiters_push]
  rcases hopens.isTrue_push hl hk with rfl | ⟨hold, hcell⟩
  · rw [hopens.cell_push_self hl] at hlevel hr ⊢
    rcases hunexplained hr with hroot | hmem
    · exact absurd hroot (Nat.ne_of_gt hlevel)
    · exact hmem
  · rw [hcell] at hlevel hr ⊢
    exact hopens.mem_delimiters_of_mem (h.unexplained k hold hlevel hr)

/-- An assignment that its reason implies, or any one at the root, keeps the trail explained. -/
theorem push (ht : t.WellFormed) (h : t.Explained s) {l : Literal} {r : Option ClauseId}
    (hl : l.var < t.numVariables) (hfree : t.isAssigned l.var = false)
    (himplied : ∀ c, r = some c → t.Implies s l c) (hroot : r = none → t.currentLevel = 0) :
    (t.push l r).Explained s :=
  push_of_opens ht h (Opens.refl t r) hl hfree himplied fun hr => Or.inl (hroot hr)

/-- A decision needs no explanation. -/
theorem push_openLevel (ht : t.WellFormed) (h : t.Explained s) {l : Literal}
    (hl : l.var < t.numVariables) (hfree : t.isAssigned l.var = false) :
    (t.openLevel.push l none).Explained s := by
  refine push_of_opens ht h (Opens.openLevel t) hl hfree (fun c hc => nomatch hc) fun _ => ?_
  rw [delimiters_openLevel]
  exact Or.inr (List.mem_append_right _ (List.mem_singleton_self _))

/-- What is left after some levels were undone was explained without them. -/
theorem cut (ht : t.WellFormed) (h : t.Explained s) (level : Nat) : (t.cut level).Explained s := by
  refine ⟨h.justified.cut ht level, fun l hl hlevel hr => ?_⟩
  rw [ht.isTrue_cut] at hl
  rw [ht.level_cut, if_pos hl.2] at hlevel
  rw [ht.reason_cut, if_pos hl.2] at hr
  rw [ht.position_cut, delimiters_cut]
  have hmem := h.unexplained l hl.1 hlevel hr
  have hlt := (ht.level_le_iff (isAssigned_of_isTrue hl.1)).1 hl.2
  -- a delimiter below the end of the level is among the first ones
  obtain ⟨j, hj⟩ := List.mem_iff_getElem?.1 hmem
  refine List.mem_iff_getElem?.2 ⟨j, ?_⟩
  rw [List.getElem?_take, if_pos ?_]
  · exact hj
  · by_contra hge
    rw [lengthAt_eq, List.getD_eq_getElem?_getD] at hlt
    obtain ⟨hjl, hj⟩ := List.getElem?_eq_some_iff.1 hj
    have hlevel_lt : level < t.delimiters.length := by omega
    rw [List.getElem?_eq_getElem hlevel_lt, Option.getD_some] at hlt
    rcases Nat.lt_or_ge level j with hlj | hlj
    · have := List.pairwise_iff_getElem.1 ht.ascending level j hlevel_lt hjl hlj
      omega
    · have hlj : level = j := by omega
      subst hlj
      omega

end Explained

end Trail

end ClauseLearning
