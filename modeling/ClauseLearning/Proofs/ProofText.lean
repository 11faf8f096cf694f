import ClauseLearning.ProofLog
import ClauseLearning.Proofs.Entailment

/-!
# Reading a proof back

The text of a proof determines its lines: the number of a literal ends at the first blank, it is
never zero, so a line ends where a zero stands in place of a number.
-/

set_option autoImplicit false

namespace ClauseLearning

/-- A list is cut at the first occurrence of an element in only one way. -/
theorem append_cons_inj {α : Type} {c : α} {as bs xs ys : List α}
    (h : as ++ c :: xs = bs ++ c :: ys) (ha : c ∉ as) (hb : c ∉ bs) : as = bs ∧ xs = ys := by
  induction as generalizing bs with
  | nil =>
    cases bs with
    | nil => exact ⟨rfl, (List.cons.inj h).2⟩
    | cons b bs => exact absurd ((List.cons.inj h).1 ▸ List.mem_cons_self) hb
  | cons a as ih =>
    cases bs with
    | nil => exact absurd ((List.cons.inj h).1.symm ▸ List.mem_cons_self) ha
    | cons b bs =>
      obtain ⟨rfl, hrest⟩ := List.cons.inj h
      obtain ⟨rfl, rfl⟩ := ih hrest (fun hmem => ha (List.mem_cons_of_mem _ hmem))
        fun hmem => hb (List.mem_cons_of_mem _ hmem)
      exact ⟨rfl, rfl⟩

namespace Literal

/-- The digits of a number, which determine it. -/
theorem toList_repr_injective {m n : Nat} (h : m.repr.toList = n.repr.toList) : m = n := by
  rw [Nat.toList_repr, Nat.toList_repr] at h
  have hvalue := congrArg (Nat.ofDigitChars 10 · 0) h
  simpa using hvalue

/-- The text of a number consists of digits. -/
theorem isDigit_of_mem_repr {n : Nat} {c : Char} (hc : c ∈ n.repr.toList) : c.isDigit = true := by
  rw [Nat.toList_repr] at hc
  exact Nat.isDigit_of_mem_toDigits (by decide) (by decide) hc

/-- The text of a literal is the number of its variable, after a sign if it is negative. -/
theorem toList_text (l : Literal) : l.text.toList =
    if l.positive then (l.var + 1).repr.toList else '-' :: (l.var + 1).repr.toList := by
  unfold text dimacs
  cases l.positive with
  | true => rfl
  | false =>
    rw [if_neg Bool.false_ne_true, if_neg Bool.false_ne_true, Int.toString_eq_repr,
      Int.repr_eq_if, if_neg (by omega), String.toList_append]
    have hnat : (-(-((l.var : Int) + 1))).toNat = l.var + 1 := by omega
    rw [hnat]
    rfl

/-- The text of a literal consists of digits and a sign. -/
theorem mem_text {l : Literal} {c : Char} (hc : c ∈ l.text.toList) :
    c = '-' ∨ c.isDigit = true := by
  rw [toList_text] at hc
  cases hl : l.positive with
  | true =>
    rw [hl, if_pos rfl] at hc
    exact Or.inr (isDigit_of_mem_repr hc)
  | false =>
    rw [hl, if_neg Bool.false_ne_true] at hc
    exact (List.mem_cons.1 hc).imp_right isDigit_of_mem_repr

/-- The text of a literal has no blank. -/
theorem blank_not_mem_text (l : Literal) : ' ' ∉ l.text.toList := by
  intro hc
  rcases mem_text hc with h | h
  · exact absurd h (by decide)
  · exact absurd h (by decide)

/-- The text of a literal has no newline. -/
theorem newline_not_mem_text (l : Literal) : '\n' ∉ l.text.toList := by
  intro hc
  rcases mem_text hc with h | h
  · exact absurd h (by decide)
  · exact absurd h (by decide)

/-- The text of a literal determines it. -/
theorem text_injective {a b : Literal} (h : a.text.toList = b.text.toList) : a = b := by
  have hsign : ∀ n : Nat, ∀ cs, n.repr.toList ≠ '-' :: cs := by
    intro n cs heq
    have hdigit := isDigit_of_mem_repr (n := n) (heq ▸ List.mem_cons_self)
    exact absurd hdigit (by decide)
  rw [toList_text, toList_text] at h
  obtain ⟨va, pa⟩ := a
  obtain ⟨vb, pb⟩ := b
  cases pa <;> cases pb
  · have := toList_repr_injective (List.cons.inj h).2
    simp_all
  · exact absurd h.symm (hsign _ _)
  · exact absurd h (hsign _ _)
  · have := toList_repr_injective h
    simp_all

end Literal

namespace ProofLog

/-- A line that ends a clause is not the start of another literal. -/
theorem closing_ne (l : Literal) (xs ys : List Char) :
    '0' :: '\n' :: xs ≠ l.text.toList ++ ' ' :: ys := by
  intro h
  have hnewline := l.newline_not_mem_text
  generalize l.text.toList = cs at h hnewline
  match cs with
  | [] => exact absurd (List.cons.inj h).1 (by decide)
  | [c] => exact absurd (List.cons.inj (List.cons.inj h).2).1 (by decide)
  | c :: d :: cs =>
    have hd := (List.cons.inj (List.cons.inj h).2).1
    exact hnewline (hd ▸ by simp)

/-- The first line of a text is read in only one way. -/
theorem line_append_inj {as bs : List Literal} {xs ys : List Char}
    (h : line as ++ xs = line bs ++ ys) : as = bs ∧ xs = ys := by
  have hcons : ∀ (l : Literal) (ls : List Literal) (zs : List Char),
      line (l :: ls) ++ zs = l.text.toList ++ ' ' :: (line ls ++ zs) := by
    intro l ls zs
    simp [line]
  induction as generalizing bs with
  | nil =>
    cases bs with
    | nil => exact ⟨rfl, (List.cons.inj (List.cons.inj h).2).2⟩
    | cons b bs =>
      rw [hcons] at h
      exact absurd h (closing_ne b _ _)
  | cons a as ih =>
    rw [hcons] at h
    cases bs with
    | nil => exact absurd h.symm (closing_ne a _ _)
    | cons b bs =>
      rw [hcons] at h
      obtain ⟨htext, hrest⟩ := append_cons_inj h a.blank_not_mem_text b.blank_not_mem_text
      obtain ⟨rfl, rfl⟩ := ih hrest
      exact ⟨congrArg (· :: as) (Literal.text_injective htext), rfl⟩

/-- The text of a proof determines its lines. -/
theorem lines_injective {as bs : Formula} (h : as.flatMap line = bs.flatMap line) : as = bs := by
  have hne : ∀ (ls : List Literal) (cs : List Char), line ls ++ cs ≠ [] := by
    intro ls cs
    simp [line]
  induction as generalizing bs with
  | nil =>
    cases bs with
    | nil => rfl
    | cons b bs => exact absurd h.symm (hne b _)
  | cons a as ih =>
    cases bs with
    | nil => exact absurd h (hne a _)
    | cons b bs =>
      have hlines : line a ++ as.flatMap line = line b ++ bs.flatMap line := h
      obtain ⟨rfl, hrest⟩ := line_append_inj hlines
      rw [ih hrest]

end ProofLog

end ClauseLearning
