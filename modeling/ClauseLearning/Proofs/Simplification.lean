import ClauseLearning.Proofs.Entailment
import ClauseLearning.Proofs.Trail.WellFormed

/-!
# Sorted clauses

A clause is sorted by code before it is stored. In a sorted clause the literals of one variable are
neighbours, so the look at neighbours finds out whether the clause holds a literal and its negation,
and if it does not, all variables are distinct.
-/

set_option autoImplicit false

namespace ClauseLearning

namespace Literal

variable {l : Literal} {ls : List Literal}

/-- Inserting by code leaves a list with ascending codes. -/
theorem pairwise_insertByCode (h : ls.Pairwise fun a b => a.code < b.code) :
    (insertByCode l ls).Pairwise fun a b => a.code < b.code := by
  induction ls with
  | nil => exact List.pairwise_singleton _ _
  | cons k ls ih =>
    obtain ⟨hk, hls⟩ := List.pairwise_cons.1 h
    unfold insertByCode
    split
    next hlk =>
      refine List.pairwise_cons.2 ⟨fun x hx => ?_, h⟩
      rcases List.mem_cons.1 hx with rfl | hx
      · exact hlk
      · exact Nat.lt_trans hlk (hk x hx)
    next hlk =>
      split
      · exact h
      next hne =>
        refine List.pairwise_cons.2 ⟨fun x hx => ?_, ih hls⟩
        rcases mem_insertByCode.1 hx with rfl | hx
        · omega
        · exact hk x hx

/-- The codes of a sorted list ascend strictly. -/
theorem pairwise_sortDistinct (ls : List Literal) :
    (sortDistinct ls).Pairwise fun a b => a.code < b.code := by
  induction ls with
  | nil => exact List.Pairwise.nil
  | cons l ls ih => exact pairwise_insertByCode ih

/-- A smaller code belongs to no later variable. -/
theorem var_le_of_code_lt {a b : Literal} (h : a.code < b.code) : a.var ≤ b.var := by
  unfold code at h
  split at h <;> split at h <;> grind

/-- Without neighbours of one variable the variables of a sorted clause ascend. -/
theorem pairwise_var_of_no_pair (h : ls.Pairwise fun a b => a.code < b.code)
    (hpair : hasNeighbourPair ls = false) : ls.Pairwise fun a b => a.var < b.var := by
  induction ls with
  | nil => exact List.Pairwise.nil
  | cons a ls ih =>
    obtain ⟨ha, hls⟩ := List.pairwise_cons.1 h
    cases ls with
    | nil => exact List.pairwise_singleton _ _
    | cons b ls =>
      unfold hasNeighbourPair at hpair
      rw [Bool.or_eq_false_iff, beq_eq_false_iff_ne] at hpair
      have hrest := ih hls hpair.2
      have hab : a.var < b.var :=
        Nat.lt_of_le_of_ne (var_le_of_code_lt (ha b List.mem_cons_self)) hpair.1
      refine List.pairwise_cons.2 ⟨fun x hx => ?_, hrest⟩
      rcases List.mem_cons.1 hx with rfl | hx
      · exact hab
      · exact Nat.lt_trans hab ((List.pairwise_cons.1 hrest).1 x hx)

/-- Neighbours of one variable are a literal and its negation. -/
theorem exists_negate_of_pair (h : ls.Pairwise fun a b => a.code < b.code)
    (hpair : hasNeighbourPair ls = true) : ∃ l ∈ ls, l.negate ∈ ls := by
  induction ls with
  | nil => cases hpair
  | cons a ls ih =>
    obtain ⟨ha, hls⟩ := List.pairwise_cons.1 h
    cases ls with
    | nil => cases hpair
    | cons b ls =>
      unfold hasNeighbourPair at hpair
      rw [Bool.or_eq_true, beq_iff_eq] at hpair
      rcases hpair with hvar | hpair
      · have hlt := ha b List.mem_cons_self
        rcases eq_or_eq_negate hvar with rfl | rfl
        · exact absurd hlt (Nat.lt_irrefl _)
        · exact ⟨b, List.mem_cons_of_mem _ List.mem_cons_self, List.mem_cons_self⟩
      · obtain ⟨l, hl, hneg⟩ := ih hls hpair
        exact ⟨l, List.mem_cons_of_mem _ hl, List.mem_cons_of_mem _ hneg⟩

/-- A clause that passes the look at neighbours has distinct variables. -/
theorem nodup_var_sortDistinct (hpair : hasNeighbourPair (sortDistinct ls) = false) :
    ((sortDistinct ls).map Literal.var).Nodup := by
  have hascending := pairwise_var_of_no_pair (pairwise_sortDistinct ls) hpair
  refine List.pairwise_map.2 (hascending.imp fun hlt => ?_)
  exact Nat.ne_of_lt hlt

/-- A clause that does not pass holds a literal and its negation. -/
theorem exists_negate_of_sortDistinct (hpair : hasNeighbourPair (sortDistinct ls) = true) :
    ∃ l ∈ ls, l.negate ∈ ls := by
  obtain ⟨l, hl, hneg⟩ := exists_negate_of_pair (pairwise_sortDistinct ls) hpair
  exact ⟨l, mem_sortDistinct.1 hl, mem_sortDistinct.1 hneg⟩

end Literal

namespace Trail

variable {t : Trail} {ls : List Literal}

/-- The test for a true literal has looked at all literals if it finds none. -/
theorem known_of_anyTrue (h : t.anyTrue ls = .ok false) :
    ∀ l ∈ ls, l.var < t.numVariables ∧ t.isTrue l = false := by
  induction ls with
  | nil => simp
  | cons l ls ih =>
    rw [anyTrue, Fault.bind_eq_ok_iff] at h
    obtain ⟨u, hknown, h⟩ := h
    cases hl : t.isTrue l with
    | true =>
      rw [hl, if_pos rfl] at h
      cases h
    | false =>
      rw [hl, if_neg Bool.false_ne_true] at h
      intro k hk
      rcases List.mem_cons.1 hk with rfl | hk
      · exact ⟨require_eq_ok_iff.1 hknown, hl⟩
      · exact ih h k hk

/-- If the test for true literals succeeds, there is one. -/
theorem exists_isTrue_of_anyTrue (h : t.anyTrue ls = .ok true) : ∃ l ∈ ls, t.isTrue l = true := by
  induction ls with
  | nil => cases h
  | cons l ls ih =>
    rw [anyTrue, Fault.bind_eq_ok_iff] at h
    obtain ⟨u, -, h⟩ := h
    cases hl : t.isTrue l with
    | true => exact ⟨l, List.mem_cons_self, hl⟩
    | false =>
      rw [hl, if_neg Bool.false_ne_true] at h
      obtain ⟨k, hk, hktrue⟩ := ih h
      exact ⟨k, List.mem_cons_of_mem _ hk, hktrue⟩

end Trail

end ClauseLearning
