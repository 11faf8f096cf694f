/-!
# Stable sorting

Insertion sort by a comparison `le`. The main statements: sorting permutes the list; for a total
and transitive comparison the result is sorted; and sorting is stable, that is, elements which the
comparison does not tell apart keep their order.
-/

set_option autoImplicit false

namespace ClauseLearning

variable {α : Type}

/-- Insert an element before the first one that it is not above. -/
def insertBefore (le : α → α → Bool) (a : α) : List α → List α
  | [] => [a]
  | b :: bs => if le a b then a :: b :: bs else b :: insertBefore le a bs

/-- Sort a list; elements that are below each other keep their order. -/
def stableSort (le : α → α → Bool) (as : List α) : List α := as.foldr (insertBefore le) []

/-- Sort a list by a number. -/
def sortByKey (key : α → Nat) (as : List α) : List α :=
  stableSort (fun a b => decide (key a ≤ key b)) as

/-- There is nothing to sort in an empty list. -/
@[simp] theorem stableSort_nil (le : α → α → Bool) : stableSort le [] = [] := rfl

/-- The first element is inserted into the sorted rest. -/
@[simp] theorem stableSort_cons (le : α → α → Bool) (a : α) (as : List α) :
    stableSort le (a :: as) = insertBefore le a (stableSort le as) := rfl

/-- Inserting adds one element and keeps the others. -/
theorem insertBefore_perm (le : α → α → Bool) (a : α) (bs : List α) :
    (insertBefore le a bs).Perm (a :: bs) := by
  induction bs with
  | nil => exact List.Perm.refl _
  | cons b bs ih =>
    unfold insertBefore
    split
    · exact List.Perm.refl _
    · exact (ih.cons b).trans (List.Perm.swap a b bs)

/-- Sorting only changes the order. -/
theorem stableSort_perm (le : α → α → Bool) (as : List α) : (stableSort le as).Perm as := by
  induction as with
  | nil => exact List.Perm.refl _
  | cons a as ih => exact (insertBefore_perm le a _).trans (ih.cons a)

/-- Sorting keeps the elements that occur. -/
@[simp] theorem mem_stableSort {le : α → α → Bool} {a : α} {as : List α} :
    a ∈ stableSort le as ↔ a ∈ as := (stableSort_perm le as).mem_iff

/-- Sorting keeps the length. -/
@[simp] theorem length_stableSort (le : α → α → Bool) (as : List α) :
    (stableSort le as).length = as.length := (stableSort_perm le as).length_eq

/-- Inserting into a sorted list leaves it sorted, for a total and transitive order. -/
theorem pairwise_insertBefore {le : α → α → Bool} (total : ∀ a b, le a b || le b a)
    (trans : ∀ a b c, le a b → le b c → le a c) (a : α) {bs : List α}
    (h : bs.Pairwise fun x y => le x y) : (insertBefore le a bs).Pairwise fun x y => le x y := by
  induction bs with
  | nil => simp [insertBefore]
  | cons b bs ih =>
    rw [List.pairwise_cons] at h
    unfold insertBefore
    split
    next hab =>
      refine List.pairwise_cons.2 ⟨fun c hc => ?_, List.pairwise_cons.2 h⟩
      rcases List.mem_cons.1 hc with rfl | hc
      · exact hab
      · exact trans a b c hab (h.1 c hc)
    next hab =>
      have hba : le b a = true := by
        have hor := total a b
        simpa [hab] using hor
      refine List.pairwise_cons.2 ⟨fun c hc => ?_, ih h.2⟩
      rcases List.mem_cons.1 ((insertBefore_perm le a bs).mem_iff.1 hc) with rfl | hc
      · exact hba
      · exact h.1 c hc

/-- The result of sorting by a total and transitive comparison is sorted. -/
theorem pairwise_stableSort (le : α → α → Bool) (total : ∀ a b, le a b || le b a)
    (trans : ∀ a b c, le a b → le b c → le a c) (as : List α) :
    (stableSort le as).Pairwise fun x y => le x y := by
  induction as with
  | nil => exact List.Pairwise.nil
  | cons a as ih => exact pairwise_insertBefore total trans a ih

/-- Among elements that the order does not tell apart, the one inserted comes first. -/
theorem filter_insertBefore {le : α → α → Bool} {p : α → Bool}
    (tied : ∀ a b, p a → p b → le a b) (a : α) (bs : List α) :
    (insertBefore le a bs).filter p = (a :: bs).filter p := by
  induction bs with
  | nil => rfl
  | cons b bs ih =>
    unfold insertBefore
    split
    · rfl
    next hab =>
      rw [List.filter_cons, ih]
      cases ha : p a <;> cases hb : p b <;> simp [ha, hb]
      exact absurd (tied a b ha hb) hab

/-- Elements that the comparison does not tell apart keep their order. -/
theorem filter_stableSort {le : α → α → Bool} {p : α → Bool} (tied : ∀ a b, p a → p b → le a b)
    (as : List α) : (stableSort le as).filter p = as.filter p := by
  induction as with
  | nil => rfl
  | cons a as ih =>
    rw [stableSort_cons, filter_insertBefore tied, List.filter_cons, List.filter_cons, ih]

/-- Inserting images by an order is inserting by the order of the images. -/
theorem insertBefore_map {β : Type} (le : α → α → Bool) (f : β → α) (b : β) (bs : List β) :
    insertBefore le (f b) (bs.map f) =
      (insertBefore (fun x y => le (f x) (f y)) b bs).map f := by
  induction bs with
  | nil => rfl
  | cons c bs ih =>
    simp only [List.map_cons, insertBefore]
    split
    · rfl
    · rw [ih, List.map_cons]

/-- Sorting by a number of the image of an element. -/
theorem sortByKey_map {β : Type} (key : α → Nat) (f : β → α) (bs : List β) :
    sortByKey key (bs.map f) = (sortByKey (fun b => key (f b)) bs).map f := by
  induction bs with
  | nil => rfl
  | cons b bs ih =>
    unfold sortByKey at ih ⊢
    rw [List.map_cons, stableSort_cons, stableSort_cons, ih, insertBefore_map]

/-- A list sorted by a number has the number in ascending order. -/
theorem pairwise_sortByKey (key : α → Nat) (as : List α) :
    (sortByKey key as).Pairwise fun a b => key a ≤ key b := by
  have h := pairwise_stableSort (fun a b => decide (key a ≤ key b))
    (fun a b => by simp; omega) (fun a b c => by simp; omega) as
  simpa [sortByKey] using h

/-- Elements with the same number keep their order. -/
theorem filter_sortByKey (key : α → Nat) (n : Nat) (as : List α) :
    ((sortByKey key as).filter fun a => key a == n) = as.filter fun a => key a == n :=
  filter_stableSort (fun a b ha hb => by simp_all) as

/-- Sorting by the same number for all changes nothing. -/
theorem sortByKey_eq_self {key : α → Nat} (h : ∀ a b, key a = key b) (as : List α) :
    sortByKey key as = as := by
  have hall : ((sortByKey key as).filter fun _ => true) = as.filter fun _ => true :=
    filter_stableSort (fun a b _ _ => decide_eq_true (Nat.le_of_eq (h a b))) as
  rwa [List.filter_eq_self.2 fun _ _ => rfl, List.filter_eq_self.2 fun _ _ => rfl] at hall

end ClauseLearning
