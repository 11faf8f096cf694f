import ClauseLearning.Proofs.Decision.Checks
import ClauseLearning.Proofs.Trail.WellFormed

/-!
# The next decision

If every variable in front of the cursor is assigned, the search from the cursor finds the first
unassigned variable of the whole queue, and finds none exactly if all queued variables are
assigned. The audit of the cursor then passes.
-/

set_option autoImplicit false

namespace ClauseLearning

namespace DecisionQueue

namespace Represents

variable {q : DecisionQueue} {vs : List Variable} {t : Trail}

/-- The cursor splits the list into the variables in front of it and those that a search meets, and
the way along the latter ends. -/
theorem exists_split_cursor (h : q.Represents vs) :
    ∃ before after, vs = before ++ after ∧ walk q.links q.links.size q.cursor = .ok after ∧
      ∀ w ∈ before, q.InFront w := by
  cases hc : q.cursor with
  | none =>
    refine ⟨vs, [], by simp, ?_, fun w _ c hcw => by rw [hc] at hcw; cases hcw⟩
    cases q.links.size <;> rfl
  | some c =>
    obtain ⟨before, after, hsplit⟩ := Chains.exists_split (h.cursor_mem c hc)
    refine ⟨before, c :: after, hsplit, h.walk_size_eq hsplit, fun w hw d hd => ?_⟩
    obtain rfl : c = d := Option.some.inj (hc.symm.trans hd)
    have hdesc := h.descending
    rw [hsplit, List.pairwise_append] at hdesc
    exact hdesc.2.2 w hw c (by simp)

/-- The search finds an unassigned variable with only assigned ones in front of it, or all queued
variables are assigned. -/
theorem next_spec (h : q.Represents vs) (hknown : ∀ v ∈ vs, v < t.numVariables)
    (hpassed : q.Passed vs fun v => t.isAssigned v = true) :
    ∃ found, q.next t = .ok ({ q with cursor := found }, found) ∧
      ({ q with cursor := found } : DecisionQueue).Represents vs ∧
      ({ q with cursor := found } : DecisionQueue).Passed vs (fun v => t.isAssigned v = true) ∧
      (∀ v, found = some v → v ∈ vs ∧ t.isAssigned v = false) ∧
      (found = none → ∀ v ∈ vs, t.isAssigned v = true) := by
  obtain ⟨before, after, hsplit, hwalk, hbefore⟩ := h.exists_split_cursor
  have hafter : ∀ v ∈ after, v < t.numVariables := fun v hv => hknown v (by simp [hsplit, hv])
  have hseen : ∀ w ∈ before, t.isAssigned w = true := fun w hw =>
    hpassed w (by simp [hsplit, hw]) (hbefore w hw)
  refine ⟨after.find? fun v => !t.isAssigned v, ?_, ?_, ?_, ?_, ?_⟩
  · rw [next_eq t hwalk, Trail.firstUnassigned_eq_find? hafter]
    rfl
  · refine ⟨h.toChains.of_links_eq rfl rfl, h.stamped, h.descending, h.latest, fun c hc => ?_⟩
    rw [hsplit]
    exact List.mem_append_right _ (List.mem_of_find?_eq_some hc)
  · intro w hw hfront
    cases hfound : after.find? fun v => !t.isAssigned v with
    | none =>
      rw [hsplit, List.mem_append] at hw
      rcases hw with hw | hw
      · exact hseen w hw
      · simpa using List.find?_eq_none.1 hfound w hw
    | some v =>
      -- what is in front of the new cursor was in front of the old one, or was skipped
      have hlt : q.stamp v < q.stamp w := hfront v hfound
      obtain ⟨-, skipped, rest, hsplit', hskipped⟩ := List.find?_eq_some_iff_append.1 hfound
      have hdesc := h.descending
      rw [hsplit, hsplit', List.pairwise_append, List.pairwise_append, List.pairwise_cons] at hdesc
      rw [hsplit, hsplit', List.mem_append, List.mem_append, List.mem_cons] at hw
      rcases hw with hw | hw | rfl | hw
      · exact hseen w hw
      · simpa using hskipped w hw
      · exact absurd hlt (Nat.lt_irrefl _)
      · exact absurd hlt (Nat.lt_asymm (hdesc.2.1.2.1.1 w hw))
  · intro v hv
    have hmem := List.mem_of_find?_eq_some hv
    have hfree := List.find?_some hv
    exact ⟨by simp [hsplit, hmem], by simpa using hfree⟩
  · intro hnone v hv
    rw [hsplit, List.mem_append] at hv
    rcases hv with hv | hv
    · exact hseen v hv
    · simpa using List.find?_eq_none.1 hnone v hv

/-- The variables that a walk from the front meets before the cursor are in front of it. -/
theorem inFront_of_mem_beforeCursor (h : q.Represents vs) {v : Variable}
    (hv : v ∈ q.beforeCursor) : v ∈ vs ∧ q.InFront v := by
  unfold beforeCursor at hv
  rw [h.toList_eq] at hv
  refine ⟨(List.takeWhile_sublist _).subset hv, fun c hc => ?_⟩
  obtain ⟨before, after, hsplit⟩ := Chains.exists_split (h.cursor_mem c hc)
  have hdesc := h.descending
  rw [hsplit, List.pairwise_append] at hdesc
  refine hdesc.2.2 v ?_ c (by simp)
  -- the walk stops at the cursor, so it meets the part before it at most
  rw [hsplit, List.takeWhile_append] at hv
  split at hv
  · simpa [hc] using hv
  · exact (List.takeWhile_sublist _).subset hv

/-- The audit of the cursor passes while the variables in front of it are assigned. -/
theorem cursorHolds_eq (h : q.Represents vs) (hknown : ∀ v ∈ vs, v < t.numVariables)
    (hpassed : q.Passed vs fun v => t.isAssigned v = true) : q.cursorHolds t = .ok true := by
  unfold cursorHolds
  rw [assignedToCursor_eq t h.walk_front_eq]
  have hbefore : (vs.takeWhile fun v => some v != q.cursor) = q.beforeCursor := by
    unfold beforeCursor
    rw [h.toList_eq]
  rw [hbefore, Trail.firstUnassigned_eq_find? fun v hv =>
    hknown v (h.inFront_of_mem_beforeCursor hv).1]
  have hnone : (q.beforeCursor.find? fun v => !t.isAssigned v) = none := by
    rw [List.find?_eq_none]
    intro v hv
    obtain ⟨hmem, hfront⟩ := h.inFront_of_mem_beforeCursor hv
    simpa using hpassed v hmem hfront
  rw [hnone]
  rfl

/-- Releases in any number keep the list; afterwards no released variable is in front. -/
theorem foldl_release (ls : List Literal) (h : q.Represents vs) {P : Variable → Prop}
    (hP : q.Passed vs P) :
    (ls.foldl (fun p l => p.release l.var) q).Represents vs ∧
      (ls.foldl (fun p l => p.release l.var) q).Passed vs
        fun w => P w ∧ ∀ l ∈ ls, w ≠ l.var := by
  induction ls generalizing q P with
  | nil =>
    refine ⟨h, fun w hw hfront => ⟨hP w hw hfront, ?_⟩⟩
    simp
  | cons l ls ih =>
    obtain ⟨hrep, hpassed⟩ := ih (h.release l.var) (h.passed_release l.var hP)
    refine ⟨hrep, fun w hw hfront => ?_⟩
    obtain ⟨⟨hPw, hne⟩, hrest⟩ := hpassed w hw hfront
    refine ⟨hPw, fun k hk => ?_⟩
    rcases List.mem_cons.1 hk with rfl | hk
    · exact hne
    · exact hrest k hk

end Represents

end DecisionQueue

end ClauseLearning
