import ClauseLearning.Proofs.Decision.Cursor
import Mathlib.Data.List.Induction

/-!
# Bumps one after the other

A bump moves one variable to the front. Different variables that are bumped one after the other end
up at the front in reverse, with consecutive stamps, and behind them is what is left of the queue as
it was. It does not matter where the variables were queued, whether the first of the queue or the
variable at the cursor is among them, and which of them are assigned; variables that left the queue
are not moved.
-/

set_option autoImplicit false

namespace ClauseLearning

namespace DecisionQueue

/-- Variables were moved to the front, the last of them to the very front. They have the stamps
after the latest one, in this order; other variables keep their order and their stamps. -/
structure MovesToFront (q : DecisionQueue) (moved : List Variable) (next : DecisionQueue) :
    Prop where
  toList_eq : next.toList = moved.reverse ++ q.toList.filter fun v => decide (v ∉ moved)
  numBumps_eq : next.numBumps = q.numBumps + moved.length
  stamp_eq : ∀ i v, moved[i]? = some v → next.stamp v = q.numBumps + (i + 1)
  others : ∀ v, v ∉ moved → next.stamp v = q.stamp v

variable {q : DecisionQueue} {vs : List Variable}

/-- A bump of a queued variable is counted. -/
theorem numBumps_bump {v : Variable} (h : q.contains v = true) (assigned : Bool) :
    (q.bump v assigned).numBumps = q.numBumps + 1 := by
  obtain ⟨-, hbumps, -⟩ := moveToFront_rest (q.leaveCursor v) v
  have hmoved : (((q.leaveCursor v).moveToFront v).stampNext v).numBumps = q.numBumps + 1 := by
    show ((q.leaveCursor v).moveToFront v).numBumps + 1 = _
    rw [hbumps, numBumps_leaveCursor]
  unfold bump
  rw [if_pos h]
  cases assigned <;> exact hmoved

/-- A variable that is not queued is not bumped. -/
theorem bump_eq_self {v : Variable} (h : q.contains v = false) (assigned : Bool) :
    q.bump v assigned = q := by
  unfold bump
  rw [h, if_neg Bool.false_ne_true]

/-- Another variable of the queue is moved in front of those that were moved before. -/
theorem erase_moved (h : vs.Nodup) {moved : List Variable} {v : Variable} (hv : v ∉ moved) :
    (moved.reverse ++ vs.filter fun w => decide (w ∉ moved)).erase v =
      moved.reverse ++ vs.filter fun w => decide (w ∉ moved ++ [v]) := by
  rw [List.erase_append_right _ (mt List.mem_reverse.1 hv), List.Nodup.erase_eq_filter (h.filter _),
    List.filter_filter]
  congr 1
  refine List.filter_congr fun w _ => ?_
  by_cases hw : w = v <;> simp [hw]

/-- A queued variable that was not among those moved so far. -/
theorem Represents.bump_again (h : q.Represents vs) {next : DecisionQueue} {moved : List Variable}
    (hnext : next.Represents (moved.reverse ++ vs.filter fun w => decide (w ∉ moved)))
    (hmoves : q.MovesToFront moved next) {v : Variable} (hv : v ∈ vs) (hfresh : v ∉ moved)
    (assigned : Bool) :
    (next.bump v assigned).Represents
        ((moved ++ [v]).reverse ++ vs.filter fun w => decide (w ∉ moved ++ [v])) ∧
      q.MovesToFront (moved ++ [v]) (next.bump v assigned) := by
  have hmem : v ∈ moved.reverse ++ vs.filter fun w => decide (w ∉ moved) := by
    simp [hv, hfresh]
  obtain ⟨hbumped, hstamp⟩ := hnext.bump hmem assigned
  rw [erase_moved h.nodup hfresh] at hbumped
  have hlist : v :: (moved.reverse ++ vs.filter fun w => decide (w ∉ moved ++ [v])) =
      (moved ++ [v]).reverse ++ vs.filter fun w => decide (w ∉ moved ++ [v]) := by simp
  rw [hlist] at hbumped
  refine ⟨hbumped, ?_, ?_, fun i w hi => ?_, fun w hw => ?_⟩
  · rw [hbumped.toList_eq, h.toList_eq]
  · rw [numBumps_bump (hnext.contains_iff.2 hmem), hmoves.numBumps_eq, List.length_append]
    rfl
  · rw [hstamp, hmoves.numBumps_eq]
    -- the moves before keep their stamps, and the last one gets the next stamp
    rcases Nat.lt_or_ge i moved.length with hlt | hge
    · rw [List.getElem?_append_left hlt] at hi
      have hne : v ≠ w := fun heq => hfresh (heq ▸ List.mem_of_getElem? hi)
      rw [if_neg hne]
      exact hmoves.stamp_eq i w hi
    · rw [List.getElem?_append_right hge] at hi
      obtain ⟨hlt, hi⟩ := List.getElem?_eq_some_iff.1 hi
      have hlast : i = moved.length := by
        rw [List.length_singleton] at hlt
        omega
      subst hlast
      rw [if_pos (by simpa using hi)]
      rfl
  · rw [List.mem_append, List.mem_singleton, not_or] at hw
    rw [hstamp, if_neg (Ne.symm hw.2)]
    exact hmoves.others w hw.1

/-- Bumps of different variables move those that are queued to the front. -/
theorem Represents.foldl_bump (h : q.Represents vs) (assigned : Variable → Bool)
    {ws : List Variable} (hws : ws.Nodup) :
    (ws.foldl (fun p v => p.bump v (assigned v)) q).Represents
        ((ws.filter q.contains).reverse ++
          vs.filter fun v => decide (v ∉ ws.filter q.contains)) ∧
      q.MovesToFront (ws.filter q.contains) (ws.foldl (fun p v => p.bump v (assigned v)) q) := by
  induction ws using List.reverseRecOn with
  | nil => exact ⟨by simpa using h, by simp, rfl, fun _ _ hi => (nomatch hi), fun _ _ => rfl⟩
  | append_singleton ws v ih =>
    rw [List.nodup_append] at hws
    obtain ⟨hrep, hmoves⟩ := ih hws.1
    have hnew : v ∉ ws := fun hv => hws.2.2 v hv v List.mem_cons_self rfl
    rw [List.foldl_append, List.filter_append, List.foldl_cons, List.foldl_nil]
    cases hv : q.contains v with
    | true =>
      rw [List.filter_cons_of_pos hv, List.filter_nil]
      exact h.bump_again hrep hmoves (h.contains_iff.1 hv)
        (fun hmem => hnew (List.mem_filter.1 hmem).1) _
    | false =>
      -- a variable that left the queue is not moved
      have hout : (ws.foldl (fun p v => p.bump v (assigned v)) q).contains v = false := by
        rw [Bool.eq_false_iff, Ne, hrep.contains_iff, List.mem_append, List.mem_reverse]
        rintro (hmem | hmem)
        · exact hnew (List.mem_filter.1 hmem).1
        · rw [h.contains_iff.2 (List.mem_filter.1 hmem).1] at hv
          cases hv
      rw [bump_eq_self hout, List.filter_cons_of_neg (by simp [hv]), List.filter_nil,
        List.append_nil]
      exact ⟨hrep, hmoves⟩

end DecisionQueue

end ClauseLearning
