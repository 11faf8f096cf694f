import ClauseLearning.Proofs.Conflict.Contents
import Mathlib.Data.List.Perm.Basic

/-!
# Stamps as a move to the front

The stamps order the clauses by their latest use. Stamping *moves clauses to the front* of this
order: they get the next stamps, first those that had no stamp, in the order in which they were
used, then the others in the order of their stamps; no other clause gets a different stamp. For this
the stamps have to tell clauses apart, which they keep on doing.
-/

set_option autoImplicit false

namespace ClauseLearning

/-- A sorted list of numbers starts with its zeros. -/
theorem filter_zero_append {α : Type} {key : α → Nat} {as : List α}
    (h : as.Pairwise fun a b => key a ≤ key b) :
    as.filter (fun a => decide (key a = 0)) ++ as.filter (fun a => decide (0 < key a)) = as := by
  induction as with
  | nil => rfl
  | cons a as ih =>
    obtain ⟨hfirst, hrest⟩ := List.pairwise_cons.1 h
    rcases Nat.eq_zero_or_pos (key a) with hzero | hpos
    · rw [List.filter_cons_of_pos (by simp [hzero]), List.filter_cons_of_neg (by simp [hzero]),
        List.cons_append, ih hrest]
    · have hall : ∀ b ∈ a :: as, 0 < key b := by
        intro b hb
        rcases List.mem_cons.1 hb with rfl | hb
        · exact hpos
        · exact Nat.lt_of_lt_of_le hpos (hfirst b hb)
      rw [List.filter_eq_nil_iff.2, List.filter_eq_self.2, List.nil_append]
      · exact fun b hb => decide_eq_true (hall b hb)
      · exact fun b hb => by simpa using Nat.ne_of_gt (hall b hb)

/-- Sorting by a number leaves the elements with zero in their order and puts them first. -/
theorem sortByKey_eq {α : Type} (key : α → Nat) (as : List α) :
    sortByKey key as = as.filter (fun a => decide (key a = 0)) ++
      (sortByKey key as).filter fun a => decide (0 < key a) := by
  have hzeros : (sortByKey key as).filter (fun a => decide (key a = 0)) =
      as.filter fun a => decide (key a = 0) :=
    filter_stableSort (fun a b ha hb => by simp_all) as
  rw [← hzeros, filter_zero_append (pairwise_sortByKey key as)]

namespace Activity

variable {s s' : ClauseStore} {c : ClauseId} {n : Nat}

/-- A stamp is written for one clause only. -/
theorem stampOf_setStamp {stamp : Nat} (hok : s.setStamp c stamp = .ok s') (d : ClauseId) :
    stampOf s' d = if d = c then stamp else stampOf s d := by
  unfold ClauseStore.setStamp at hok
  obtain ⟨clause, hget, hok⟩ := Fault.bind_eq_ok_iff.1 hok
  have hc : s.clauses.get? c = some clause := ClauseStore.get_eq_ok_iff.1 hget
  have hlt : c < s.clauses.size := by
    by_contra hle
    rw [(Arena.get?_eq_none_iff _ _).2 (Nat.le_of_not_lt hle)] at hc
    cases hc
  split at hok
  · obtain rfl := Except.ok.inj hok
    unfold stampOf ClauseStore.get?
    rw [Arena.get?_set]
    by_cases hd : d = c
    · subst hd
      rw [if_pos ⟨rfl, hlt⟩, if_pos rfl]
      rfl
    · rw [if_neg fun h => hd h.1.symm, if_neg hd]
  · cases hok

/-- A clause without a stamp can be stored and no stamp changes. -/
theorem stampOf_insert (s : ClauseStore) {clause : Clause} (hzero : clause.stamp = 0)
    (d : ClauseId) : stampOf (s.insert clause) d = stampOf s d := by
  unfold stampOf
  rw [ClauseStore.get?_insert]
  split
  next hd =>
    have hnone : s.get? d = none := (Arena.get?_eq_none_iff _ _).2 (Nat.le_of_eq hd.symm)
    rw [hnone]
    exact hzero
  next => rfl

/-- Different clauses get consecutive stamps, in the order in which they are listed. -/
theorem stampOf_stampAll {cs : List ClauseId} (hnodup : cs.Nodup)
    (hok : stampAll s n cs = .ok s') :
    (∀ i c, cs[i]? = some c → stampOf s' c = n + i + 1) ∧
      ∀ c, c ∉ cs → stampOf s' c = stampOf s c := by
  induction cs generalizing s n with
  | nil =>
    obtain rfl := Except.ok.inj hok
    exact ⟨fun i c hi => by simp at hi, fun _ _ => rfl⟩
  | cons c cs ih =>
    obtain ⟨hfresh, hnodup⟩ := List.nodup_cons.1 hnodup
    obtain ⟨mid, hset, hrest⟩ := Fault.bind_eq_ok_iff.1 hok
    have hmid := stampOf_setStamp hset
    obtain ⟨hlisted, hothers⟩ := ih hnodup hrest
    refine ⟨fun i d hi => ?_, fun d hd => ?_⟩
    · cases i with
      | zero =>
        obtain rfl : c = d := Option.some.inj hi
        rw [hothers c hfresh, hmid, if_pos rfl]
      | succ i =>
        rw [hlisted i d hi]
        omega
    · rw [List.mem_cons, not_or] at hd
      rw [hothers d hd.2, hmid, if_neg hd.1]

/-- Stamps tell clauses apart, and none is later than the latest one. -/
structure Ordered (n : Nat) (s : ClauseStore) : Prop where
  distinct : ∀ c d, 0 < stampOf s c → stampOf s c = stampOf s d → c = d
  bounded : ∀ c, stampOf s c ≤ n

/-- A clause without a stamp disturbs no order by stamps. -/
theorem Ordered.insert (h : Ordered n s) {clause : Clause} (hzero : clause.stamp = 0) :
    Ordered n (s.insert clause) := by
  have hsame := stampOf_insert s hzero
  refine ⟨fun c d => ?_, fun c => ?_⟩
  · rw [hsame, hsame]
    exact h.distinct c d
  · rw [hsame]
    exact h.bounded c

/-- Clauses were moved to the front of the order by stamps: they have the stamps after the latest
one, those without a stamp first and in the order given, then the others in the order of their
stamps. Other clauses have the stamps from before. -/
structure MovesToFront (n : Nat) (s : ClauseStore) (moved : List ClauseId) (n' : Nat)
    (s' : ClauseStore) : Prop where
  numStamps_eq : n' = n + moved.length
  stamps_eq : ∃ stamped : List ClauseId,
    stamped.Perm (moved.filter fun c => decide (0 < stampOf s c)) ∧
      stamped.Pairwise (fun c d => stampOf s c < stampOf s d) ∧
      ∀ i c, (moved.filter (fun c => decide (stampOf s c = 0)) ++ stamped)[i]? = some c →
        stampOf s' c = n + i + 1
  others : ∀ c, c ∉ moved → stampOf s' c = stampOf s c

/-- The waiting clauses are moved to the front. -/
theorem movesToFront_of_flush {a next : Activity} (h : Ordered a.numStamps s)
    (hnodup : a.pending.Nodup) (hok : a.flush s = .ok (next, s')) :
    MovesToFront a.numStamps s a.pending next.numStamps s' := by
  unfold flush at hok
  obtain ⟨_, -, hok⟩ := Fault.bind_eq_ok_iff.1 hok
  obtain ⟨_, hall, hok⟩ := Fault.bind_eq_ok_iff.1 hok
  obtain ⟨rfl, rfl⟩ := Prod.mk.inj (Except.ok.inj hok)
  have hperm : (a.inStampOrder s).Perm a.pending := stableSort_perm _ _
  have hsorted : (a.inStampOrder s).Pairwise fun c d => stampOf s c ≤ stampOf s d :=
    pairwise_sortByKey _ _
  have hnodup' : (a.inStampOrder s).Nodup := hperm.nodup_iff.2 hnodup
  obtain ⟨hlisted, hothers⟩ := stampOf_stampAll hnodup' hall
  refine ⟨rfl, ⟨(a.inStampOrder s).filter fun c => decide (0 < stampOf s c), hperm.filter _, ?_,
    ?_⟩, fun c hc => hothers c (hperm.mem_iff.not.2 hc)⟩
  · -- equal stamps would be those of one clause
    rw [List.pairwise_filter]
    refine (hsorted.and hnodup').imp fun {c d} hcd hc _ => ?_
    refine Nat.lt_of_le_of_ne hcd.1 fun heq => hcd.2 ?_
    exact h.distinct c d (of_decide_eq_true hc) heq
  · have hsplit : a.inStampOrder s = _ := sortByKey_eq (stampOf s) a.pending
    intro i c hi
    refine hlisted i c ?_
    rw [hsplit]
    exact hi

namespace MovesToFront

variable {n' : Nat} {moved : List ClauseId}

/-- The clauses moved have stamps of their own after the latest one. -/
theorem exists_index (h : MovesToFront n s moved n' s') :
    ∃ order : List ClauseId, order.Perm moved ∧
      ∀ i c, order[i]? = some c → stampOf s' c = n + i + 1 := by
  obtain ⟨stamped, hperm, -, hlisted⟩ := h.stamps_eq
  refine ⟨_, ?_, hlisted⟩
  have hnot : (moved.filter fun c => decide (0 < stampOf s c)) =
      moved.filter fun c => !decide (stampOf s c = 0) := by
    refine List.filter_congr fun c _ => ?_
    rw [← decide_not, decide_eq_decide]
    exact Nat.pos_iff_ne_zero
  exact (hperm.append_left _).trans (hnot ▸ List.filter_append_perm _ _)

/-- A clause without a stamp is stored afterwards. -/
theorem insert (h : MovesToFront n s moved n' s') {clause : Clause} (hzero : clause.stamp = 0) :
    MovesToFront n s moved n' (s'.insert clause) := by
  have hsame := stampOf_insert s' hzero
  obtain ⟨stamped, hperm, hsorted, hlisted⟩ := h.stamps_eq
  refine ⟨h.numStamps_eq, ⟨stamped, hperm, hsorted, fun i c hi => ?_⟩, fun c hc => ?_⟩
  · rw [hsame]
    exact hlisted i c hi
  · rw [hsame]
    exact h.others c hc

/-- The stamps still tell clauses apart. -/
theorem ordered (h : MovesToFront n s moved n' s') (hs : Ordered n s) : Ordered n' s' := by
  obtain ⟨order, hperm, hlisted⟩ := h.exists_index
  have hindex : ∀ c ∈ moved, ∃ i, i < moved.length ∧ order[i]? = some c := by
    intro c hc
    obtain ⟨i, hi, heq⟩ := List.mem_iff_getElem.1 (hperm.mem_iff.2 hc)
    exact ⟨i, hperm.length_eq ▸ hi, heq ▸ List.getElem?_eq_getElem hi⟩
  have hlater : ∀ c ∈ moved, ∀ d, d ∉ moved → stampOf s' d < stampOf s' c := by
    intro c hc d hd
    obtain ⟨i, -, hi⟩ := hindex c hc
    have hle := hs.bounded d
    rw [hlisted i c hi, h.others d hd]
    omega
  refine ⟨fun c d hpos heq => ?_, fun c => ?_⟩
  · by_cases hc : c ∈ moved <;> by_cases hd : d ∈ moved
    · obtain ⟨i, -, hi⟩ := hindex c hc
      obtain ⟨j, -, hj⟩ := hindex d hd
      rw [hlisted i c hi, hlisted j d hj] at heq
      obtain rfl : i = j := by omega
      exact Option.some.inj (hi.symm.trans hj)
    · exact absurd heq.symm (Nat.ne_of_lt (hlater c hc d hd))
    · exact absurd heq (Nat.ne_of_lt (hlater d hd c hc))
    · rw [h.others c hc] at hpos heq
      rw [h.others d hd] at heq
      exact hs.distinct c d hpos heq
  · rw [h.numStamps_eq]
    by_cases hc : c ∈ moved
    · obtain ⟨i, hlt, hi⟩ := hindex c hc
      rw [hlisted i c hi]
      omega
    · rw [h.others c hc]
      exact Nat.le_trans (hs.bounded c) (Nat.le_add_right _ _)

end MovesToFront

end Activity

end ClauseLearning
