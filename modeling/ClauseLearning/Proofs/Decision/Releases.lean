import ClauseLearning.Proofs.Decision.Refinement
import Mathlib.Data.List.Induction

/-!
# Releases in any order

A release moves the cursor to a queued variable that was moved to the front after the one at the
cursor. After some releases the cursor is therefore at the latest of the places where a search could
have to start: the old cursor, and the released variables that are queued. No two queued variables
were moved at the same time, so there is one such place at most, and it does not matter in which
order the variables are released.
-/

set_option autoImplicit false

namespace ClauseLearning

namespace DecisionQueue

/-- A place where a search could have to start after some variables were released. -/
def Candidate (q : DecisionQueue) (released : List Variable) (v : Variable) : Prop :=
  q.cursor = some v ∨ v ∈ released ∧ q.contains v = true

/-- Of the variables with a property the cursor is at the one that was moved to the front last, and
it is nowhere only if there are none. -/
structure Latest (q : DecisionQueue) (P : Variable → Prop) (cursor : Option Variable) : Prop where
  holds : ∀ v, cursor = some v → P v
  latest : ∀ v w, cursor = some v → P w → w ≠ v → q.stamp w < q.stamp v
  exhausts : cursor = none → ∀ v, ¬ P v

/-- However some variables are ordered, releasing them moves nothing but the cursor, and that to the
latest candidate; it fails only where one of them has no place. -/
def ReleasesInAnyOrder (q : DecisionQueue) : Prop :=
  ∀ vs, ∃ cursor, q.Latest (q.Candidate vs) cursor ∧
    ∀ ws : List Variable, ws.Perm vs → q.runFrom (ws.map .release) =
      if ∀ v ∈ vs, v < q.links.size then some { q with cursor := cursor } else none

variable {q : DecisionQueue} {vs : List Variable}

/-- There is one latest variable at most. -/
theorem Latest.unique {P : Variable → Prop} {cursor cursor' : Option Variable}
    (h : q.Latest P cursor) (h' : q.Latest P cursor') : cursor = cursor' := by
  cases hc : cursor with
  | none =>
    cases hc' : cursor' with
    | none => rfl
    | some w => exact absurd (h'.holds w hc') (h.exhausts hc w)
  | some v =>
    cases hc' : cursor' with
    | none => exact absurd (h.holds v hc) (h'.exhausts hc' v)
    | some w =>
      by_contra hne
      have hlt := h.latest v w hc (h'.holds w hc') fun heq => hne (heq ▸ rfl)
      have hlt' := h'.latest w v hc' (h.holds v hc) fun heq => hne (heq ▸ rfl)
      omega

/-- A released variable is one candidate more if it is queued. -/
theorem candidate_concat (q : DecisionQueue) (ws : List Variable) (v w : Variable) :
    q.Candidate (ws ++ [v]) w ↔ q.Candidate ws w ∨ w = v ∧ q.contains v = true := by
  unfold Candidate
  rw [List.mem_append, List.mem_singleton]
  constructor
  · rintro (hcursor | ⟨hw | rfl, hcontains⟩)
    · exact .inl (.inl hcursor)
    · exact .inl (.inr ⟨hw, hcontains⟩)
    · exact .inr ⟨rfl, hcontains⟩
  · rintro ((hcursor | ⟨hw, hcontains⟩) | ⟨rfl, hcontains⟩)
    · exact .inl hcursor
    · exact .inr ⟨.inl hw, hcontains⟩
    · exact .inr ⟨.inr rfl, hcontains⟩

namespace Represents

/-- Every candidate is queued. -/
theorem mem_of_candidate (h : q.Represents vs) {ws : List Variable} {v : Variable}
    (hv : q.Candidate ws v) : v ∈ vs := by
  rcases hv with hcursor | ⟨-, hcontains⟩
  · exact h.cursor_mem v hcursor
  · exact h.contains_iff.1 hcontains

/-- One more release leaves the cursor at the latest candidate. -/
theorem latest_release (h : q.Represents vs) {ws : List Variable} {cursor : Option Variable}
    (hlatest : q.Latest (q.Candidate ws) cursor) (v : Variable) :
    q.Latest (q.Candidate (ws ++ [v]))
      (({ q with cursor := cursor } : DecisionQueue).release v).cursor := by
  unfold DecisionQueue.release
  split
  next hmoves =>
    rw [Bool.and_eq_true] at hmoves
    obtain ⟨hcontains, hlater⟩ := hmoves
    refine ⟨?_, ?_, fun hno => nomatch hno⟩
    · rintro _ ⟨⟩
      exact (q.candidate_concat ws v v).2 (.inr ⟨rfl, hcontains⟩)
    · rintro _ w ⟨⟩ hw hne
      rcases (q.candidate_concat ws v w).1 hw with hw | ⟨heq, -⟩
      · cases hc : cursor with
        | none => exact absurd hw (hlatest.exhausts hc w)
        | some c =>
          subst hc
          have hlt : q.stamp c < q.stamp v := of_decide_eq_true hlater
          by_cases hwc : w = c
          · exact hwc ▸ hlt
          · exact Nat.lt_trans (hlatest.latest c w rfl hw hwc) hlt
      · exact absurd heq hne
  next hstays =>
    refine ⟨?_, ?_, ?_⟩
    · intro c hc
      exact (q.candidate_concat ws v c).2 (.inl (hlatest.holds c hc))
    · intro c w hc hw hne
      rcases (q.candidate_concat ws v w).1 hw with hw | ⟨rfl, hcontains⟩
      · exact hlatest.latest c w hc hw hne
      · -- it is queued and not later than the cursor, and no two queued variables tie
        have hle : ¬ q.stamp c < q.stamp w := by
          intro hlt
          apply hstays
          obtain rfl : cursor = some c := hc
          exact Bool.and_eq_true_iff.2 ⟨hcontains, decide_eq_true hlt⟩
        have hstamps : q.stamp w ≠ q.stamp c := fun heq => hne
          (h.eq_of_stamp_eq (h.contains_iff.1 hcontains)
            (h.mem_of_candidate (hlatest.holds c hc)) heq)
        omega
    · intro hc w hw
      rcases (q.candidate_concat ws v w).1 hw with hw | ⟨rfl, hcontains⟩
      · exact hlatest.exhausts hc w hw
      · apply hstays
        obtain rfl : cursor = none := hc
        exact Bool.and_eq_true_iff.2 ⟨hcontains, rfl⟩

/-- Releases leave the cursor at the latest candidate and change nothing else. -/
theorem exists_latest (h : q.Represents vs) (ws : List Variable) :
    ∃ cursor, q.Latest (q.Candidate ws) cursor ∧
      ws.foldl DecisionQueue.release q = { q with cursor := cursor } := by
  induction ws using List.reverseRecOn with
  | nil =>
    refine ⟨q.cursor, ⟨?_, ?_, ?_⟩, rfl⟩
    · exact fun v hv => .inl hv
    · rintro v w hv (hw | ⟨hw, -⟩) hne
      · exact absurd (Option.some.inj (hw.symm.trans hv)) hne
      · cases hw
    · rintro hnone v (hv | ⟨hv, -⟩)
      · rw [hnone] at hv
        cases hv
      · cases hv
  | append_singleton ws v ih =>
    obtain ⟨cursor, hlatest, hfold⟩ := ih
    refine ⟨_, h.latest_release hlatest v, ?_⟩
    rw [List.foldl_append, hfold]
    exact release_eq _ v

end Represents

/-- Releases succeed for variables with a place, and only for those. -/
theorem Represents.runFrom_releases (h : q.Represents vs) (ws : List Variable) :
    q.runFrom (ws.map .release) =
      if ∀ v ∈ ws, v < q.links.size then some (ws.foldl DecisionQueue.release q) else none := by
  induction ws generalizing q with
  | nil => simp [runFrom]
  | cons v ws ih =>
    have hlinks : (q.release v).links = q.links := by rw [release_eq]
    unfold runFrom
    by_cases hv : v < q.links.size
    · have hstep : q.perform (.release v) = .ok (q.release v) := h.releaseKnown_eq hv
      have hrest : (q.release v).runFrom (ws.map .release) = _ := ih (h.release v)
      simp [hstep, hrest, hlinks, hv, permits]
    · have hstep : ∀ next, q.perform (.release v) ≠ .ok next := fun next hok =>
        hv (releaseKnown_eq_ok hok).1
      cases hperform : q.perform (.release v) with
      | ok next => exact absurd hperform (hstep next)
      | error e => simp [hv, hperform]

/-- A queue that represents a list hears of released variables in any order. -/
theorem Represents.releasesInAnyOrder (h : q.Represents vs) : q.ReleasesInAnyOrder := by
  intro released
  obtain ⟨cursor, hlatest, -⟩ := h.exists_latest released
  refine ⟨cursor, hlatest, fun ws hperm => ?_⟩
  obtain ⟨cursor', hlatest', hfold⟩ := h.exists_latest ws
  -- the same variables are candidates
  have hsame : q.Candidate ws = q.Candidate released := by
    funext v
    unfold Candidate
    rw [hperm.mem_iff]
  obtain rfl : cursor' = cursor := (hsame ▸ hlatest').unique hlatest
  rw [h.runFrom_releases, hfold]
  simp only [hperm.mem_iff]

end DecisionQueue

end ClauseLearning
