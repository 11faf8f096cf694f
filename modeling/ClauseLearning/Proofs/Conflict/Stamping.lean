import ClauseLearning.Proofs.Conflict.Meeting

/-!
# Stamping the clauses that took part

At the end of an analysis the waiting clauses are stamped. Each of them is stored and carries a
stamp, so stamping succeeds, and it changes nothing about the stored clauses but their stamps.
-/

set_option autoImplicit false

namespace ClauseLearning

/-- A clause that would carry a stamp by its stored glue carries one by the glue that it was learned
with. -/
theorem Options.tracks_of_stored {o : Options} {ls : List Literal} {glue : Nat} {tracked : Bool}
    (h : o.tracks (Clause.ofLearned ls glue tracked).size (Clause.ofLearned ls glue tracked).glue) :
    o.tracks ls.length glue = true := by
  unfold tracks Clause.size Clause.ofLearned at h
  unfold tracks
  simp only [Bool.and_eq_true, decide_eq_true_eq] at h ⊢
  exact ⟨h.1, Nat.lt_of_lt_of_le h.2 (Nat.min_le_left _ _)⟩

namespace ClauseStore

/-- The same clauses are stored, with other stamps. -/
structure Restamped (s s' : ClauseStore) : Prop where
  size_eq : s'.nextId = s.nextId
  get : ∀ c clause, s.get? c = some clause →
    ∃ stamp, s'.get? c = some { clause with stamp := stamp }

namespace Restamped

variable {s s' s'' : ClauseStore}

/-- Without new stamps a store is restamped, too. -/
theorem refl (s : ClauseStore) : Restamped s s := ⟨rfl, fun _ clause h => ⟨clause.stamp, h⟩⟩

/-- A store restamped twice is restamped. -/
theorem trans (h : Restamped s s') (h' : Restamped s' s'') : Restamped s s'' := by
  refine ⟨h'.size_eq.trans h.size_eq, fun c clause hc => ?_⟩
  obtain ⟨stamp, hc'⟩ := h.get c clause hc
  obtain ⟨stamp', hc''⟩ := h'.get c _ hc'
  exact ⟨stamp', hc''⟩

/-- Restamping keeps every clause but for its stamp. -/
theorem keptIn (h : Restamped s s') : s.KeptIn s' := by
  intro c clause hc
  obtain ⟨stamp, hc'⟩ := h.get c clause hc
  exact ⟨_, hc', rfl⟩

/-- Every clause afterwards is one from before. -/
theorem exists_of_get? (h : Restamped s s') {c : ClauseId} {clause' : Clause}
    (hc : s'.get? c = some clause') :
    ∃ clause stamp, s.get? c = some clause ∧ clause' = { clause with stamp := stamp } := by
  have hlt : ¬ s.nextId ≤ c := by
    rw [← h.size_eq]
    exact Nat.not_le.2 (lt_nextId hc)
  cases hs : s.get? c with
  | none => exact absurd ((Arena.get?_eq_none_iff _ _).1 hs) hlt
  | some clause =>
    obtain ⟨stamp, hstamp⟩ := h.get c clause hs
    exact ⟨clause, stamp, rfl, Option.some.inj (hc.symm.trans hstamp)⟩

end Restamped

namespace Stampable

variable {o : Options} {s s' : ClauseStore} {ls : List Literal}

/-- New stamps do not change which clauses can be stamped. -/
theorem restamped (h : s.Stampable o) (hs : Restamped s s') : s'.Stampable o := by
  intro c clause hc hlearned htracks
  obtain ⟨old, stamp, hold, rfl⟩ := hs.exists_of_get? hc
  exact h c old hold hlearned htracks

/-- A clause of the formula needs no room for a stamp. -/
theorem insertFormula (h : s.Stampable o) (ls : List Literal) :
    (s.insert (.ofFormula ls)).Stampable o := by
  intro c clause hc hlearned
  rw [get?_insert] at hc
  split at hc
  · obtain rfl := Option.some.inj hc
    cases hlearned
  · exact h c clause hc hlearned

/-- The stored glue is not above the glue that decides on the stamp. -/
theorem insertLearned (h : s.Stampable o) (ls : List Literal) (glue : Nat) :
    (s.insert (.ofLearned ls glue (o.tracks ls.length glue))).Stampable o := by
  intro c clause hc hlearned htracks
  rw [get?_insert] at hc
  split at hc
  · obtain rfl := Option.some.inj hc
    exact Options.tracks_of_stored htracks
  · exact h c clause hc hlearned htracks

end Stampable

/-- A tracked clause can be given a stamp. -/
theorem exists_setStamp {s : ClauseStore} {c : ClauseId} {clause : Clause}
    (hc : s.get? c = some clause) (htracked : clause.tracked = true) (stamp : Nat) :
    ∃ s', s.setStamp c stamp = .ok s' ∧ Restamped s s' := by
  refine ⟨{ s with clauses := s.clauses.set c { clause with stamp := stamp } }, ?_, ?_, ?_⟩
  · unfold setStamp
    rw [Fault.bind_eq_ok_iff]
    exact ⟨clause, get_eq_ok_iff.2 hc, if_pos htracked⟩
  · exact Arena.size_set _ _ _
  · intro d other hd
    show ∃ x, (s.clauses.set c _).get? d = _
    rw [Arena.get?_set]
    by_cases heq : c = d
    · subst heq
      obtain rfl : clause = other := Option.some.inj (hc.symm.trans hd)
      exact ⟨stamp, if_pos ⟨rfl, lt_nextId hc⟩⟩
    · rw [if_neg fun h => heq h.1]
      exact ⟨other.stamp, hd⟩

end ClauseStore

namespace Activity

/-- Stamping stored clauses that carry stamps succeeds and changes stamps only. -/
theorem exists_stampAll {s : ClauseStore} (stamps : Nat) {cs : List ClauseId}
    (hcs : ∀ c ∈ cs, ∃ clause, s.get? c = some clause ∧ clause.tracked = true) :
    ∃ s', stampAll s stamps cs = .ok s' ∧ s.Restamped s' := by
  induction cs generalizing s stamps with
  | nil => exact ⟨s, rfl, .refl s⟩
  | cons c cs ih =>
    obtain ⟨clause, hc, htracked⟩ := hcs c List.mem_cons_self
    obtain ⟨s₁, hset, hs₁⟩ := ClauseStore.exists_setStamp hc htracked (stamps + 1)
    have hrest : ∀ d ∈ cs, ∃ clause, s₁.get? d = some clause ∧ clause.tracked = true := by
      intro d hd
      obtain ⟨other, hother, hotracked⟩ := hcs d (List.mem_cons_of_mem _ hd)
      obtain ⟨stamp, hstamp⟩ := hs₁.get d other hother
      exact ⟨_, hstamp, hotracked⟩
    obtain ⟨s', hall, hs'⟩ := ih (stamps + 1) hrest
    exact ⟨s', Fault.bind_eq_ok_iff.2 ⟨s₁, hset, hall⟩, hs₁.trans hs'⟩

/-- The stamps of the waiting clauses can be compared. -/
theorem requireStamps_eq {s : ClauseStore} {a : Activity} (ha : a.Pending s) :
    a.requireStamps s = .ok () := by
  unfold requireStamps
  split
  · refine Fault.forM_eq_ok_iff.2 fun c hc => ?_
    obtain ⟨clause, hget, htracked⟩ := ha c hc
    have hstamp : clause.getStamp = .ok clause.stamp := if_pos htracked
    unfold requireStamp
    refine Fault.bind_eq_ok_iff.2 ⟨clause, ClauseStore.get_eq_ok_iff.2 hget, ?_⟩
    exact Fault.bind_eq_ok_iff.2 ⟨_, hstamp, rfl⟩
  · rfl

/-- The waiting clauses can be stamped; afterwards none waits. -/
theorem exists_flush {s : ClauseStore} {a : Activity} (ha : a.Pending s) :
    ∃ next s', a.flush s = .ok (next, s') ∧ next.pending = [] ∧ s.Restamped s' := by
  have hcs : ∀ c ∈ a.inStampOrder s, ∃ clause, s.get? c = some clause ∧ clause.tracked = true := by
    intro c hc
    unfold inStampOrder sortByKey at hc
    exact ha c (mem_stableSort.1 hc)
  obtain ⟨s', hall, hs'⟩ := exists_stampAll a.numStamps hcs
  refine ⟨{ numStamps := a.numStamps + a.pending.length }, s', ?_, rfl, hs'⟩
  refine Fault.bind_eq_ok_iff.2 ⟨(), requireStamps_eq ha, ?_⟩
  exact Fault.bind_eq_ok_iff.2 ⟨s', hall, rfl⟩

end Activity

end ClauseLearning
