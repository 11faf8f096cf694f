import ClauseLearning.Literal
import Mathlib.Data.List.Basic
import Mathlib.Tactic.Common

/-!
# Valuations and unit propagation

A formula is a list of clauses. It is read in two ways: by the valuations that satisfy it, and by
what unit propagation derives from it.

A clause follows from a formula by *reverse unit propagation* if unit propagation under the negated
literals of the clause falsifies a clause of the formula. Such a clause holds under every valuation
that satisfies the formula (`Rup.sound`), so a list of clauses of which each follows from the
formula and the clauses before it changes no model (`Derivation.models`), and a list like this with
the empty clause in it refutes the formula (`Derivation.unsatisfiable`).
-/

set_option autoImplicit false

namespace ClauseLearning

/-- A value for every variable. -/
abbrev Valuation := Variable → Bool

/-- A conjunction of clauses, each given by its literals. -/
abbrev Formula := List (List Literal)

/-- Whether a literal is true under a valuation. -/
def Literal.Holds (l : Literal) (σ : Valuation) : Prop := σ l.var = l.positive

/-- Whether a clause is true under a valuation. -/
def Satisfies (σ : Valuation) (ls : List Literal) : Prop := ∃ l ∈ ls, l.Holds σ

/-- Whether all clauses of a formula are true under a valuation. -/
def Models (σ : Valuation) (F : Formula) : Prop := ∀ ls ∈ F, Satisfies σ ls

/-- A formula that is true under no valuation. -/
def Formula.Unsatisfiable (F : Formula) : Prop := ∀ σ : Valuation, ¬ Models σ F

/-- The literals that unit propagation makes true: those assumed, and a literal of a clause whose
other literals were made false. -/
inductive Propagated (F : Formula) (assumed : List Literal) : Literal → Prop where
  | assumption {l : Literal} : l ∈ assumed → Propagated F assumed l
  | unit {ls : List Literal} {l : Literal} : ls ∈ F → l ∈ ls →
      (∀ k ∈ ls, k ≠ l → Propagated F assumed k.negate) → Propagated F assumed l

/-- Whether unit propagation under the negated literals of a clause falsifies a clause of the
formula. -/
def Rup (F : Formula) (ls : List Literal) : Prop :=
  ∃ refuted ∈ F, ∀ k ∈ refuted, Propagated F (ls.map Literal.negate) k.negate

/-- A list of clauses each of which follows by reverse unit propagation from the formula and the
clauses before it. -/
def Derivation (F lines : Formula) : Prop :=
  ∀ i ls, lines[i]? = some ls → Rup (F ++ lines.take i) ls

/-- Two literals of one variable are equal or each other's negation. -/
theorem Literal.eq_or_eq_negate {a b : Literal} (h : a.var = b.var) : a = b ∨ a = b.negate := by
  obtain ⟨va, pa⟩ := a
  obtain ⟨vb, pb⟩ := b
  cases pa <;> cases pb <;> simp_all [negate]

/-- Of a literal and its negation exactly one holds. -/
theorem Literal.holds_negate_iff (l : Literal) (σ : Valuation) :
    l.negate.Holds σ ↔ ¬ l.Holds σ := by
  unfold Holds
  rw [negate_var, negate_positive]
  cases σ l.var <;> cases l.positive <;> simp

/-- More clauses propagate as much. -/
theorem Propagated.mono {F G : Formula} {assumed : List Literal} (hsub : F ⊆ G) {l : Literal}
    (h : Propagated F assumed l) : Propagated G assumed l := by
  induction h with
  | assumption hl => exact .assumption hl
  | unit hls hl _ ih => exact .unit (hsub hls) hl ih

/-- A clause that follows by reverse unit propagation follows from more clauses, too. -/
theorem Rup.mono {F G : Formula} (hsub : F ⊆ G) {ls : List Literal} (h : Rup F ls) : Rup G ls := by
  obtain ⟨refuted, hmem, hall⟩ := h
  exact ⟨refuted, hsub hmem, fun k hk => (hall k hk).mono hsub⟩

/-- Unit propagation keeps to the models of the formula in which the assumptions hold. -/
theorem Propagated.sound {F : Formula} {assumed : List Literal} {σ : Valuation}
    (hF : Models σ F) (hassumed : ∀ l ∈ assumed, l.Holds σ) {l : Literal}
    (h : Propagated F assumed l) : l.Holds σ := by
  induction h with
  | assumption hl => exact hassumed _ hl
  | @unit ls l hls hl _ ih =>
    obtain ⟨k, hk, hholds⟩ := hF ls hls
    by_cases heq : k = l
    · exact heq ▸ hholds
    · have hfalse := ih k hk heq
      rw [Literal.holds_negate_iff] at hfalse
      exact absurd hholds hfalse

/-- What follows by reverse unit propagation holds in every model. -/
theorem Rup.sound {F : Formula} {ls : List Literal} {σ : Valuation} (h : Rup F ls)
    (hF : Models σ F) : Satisfies σ ls := by
  by_contra hunsat
  obtain ⟨refuted, hmem, hall⟩ := h
  have hassumed : ∀ l ∈ ls.map Literal.negate, l.Holds σ := by
    intro l hl
    obtain ⟨k, hk, rfl⟩ := List.mem_map.1 hl
    rw [Literal.holds_negate_iff]
    exact fun hholds => hunsat ⟨k, hk, hholds⟩
  obtain ⟨k, hk, hholds⟩ := hF refuted hmem
  have hfalse := (hall k hk).sound hF hassumed
  rw [Literal.holds_negate_iff] at hfalse
  exact hfalse hholds

/-- No line needs to be derived. -/
theorem Derivation.nil (F : Formula) : Derivation F [] := by
  intro i ls h
  simp at h

/-- A derivation is continued by a clause that follows from the formula and the derivation. -/
theorem Derivation.snoc {F lines : Formula} {ls : List Literal} (h : Derivation F lines)
    (hrup : Rup (F ++ lines) ls) : Derivation F (lines ++ [ls]) := by
  intro i ls' hi
  rcases Nat.lt_trichotomy i lines.length with hlt | heq | hgt
  · rw [List.getElem?_append_left hlt] at hi
    rw [List.take_append_of_le_length (Nat.le_of_lt hlt)]
    exact h i ls' hi
  · subst heq
    simp only [List.getElem?_concat_length, Option.some.injEq] at hi
    subst hi
    simpa using hrup
  · rw [List.getElem?_eq_none (by simp; omega)] at hi
    cases hi

/-- A derivation stays one when the formula grows. -/
theorem Derivation.mono {F G lines : Formula} (hsub : F ⊆ G) (h : Derivation F lines) :
    Derivation G lines := by
  intro i ls hi
  refine (h i ls hi).mono fun x hx => ?_
  rcases List.mem_append.1 hx with hx | hx
  · exact List.mem_append_left _ (hsub hx)
  · exact List.mem_append_right _ hx

/-- A model of the formula is a model of all that is derived from it. -/
theorem Derivation.models {F lines : Formula} {σ : Valuation} (h : Derivation F lines)
    (hF : Models σ F) : Models σ lines := by
  have hupto : ∀ n, Models σ (lines.take n) := by
    intro n
    induction n with
    | zero => intro ls hls; simp at hls
    | succ n ih =>
      intro ls hls
      rw [List.take_add_one, List.mem_append] at hls
      rcases hls with hls | hls
      · exact ih ls hls
      · apply (h n ls (by simpa using hls)).sound
        intro x hx
        rcases List.mem_append.1 hx with hx | hx
        · exact hF x hx
        · exact ih x hx
  simpa using hupto lines.length

/-- A formula from which the empty clause is derived has no model. -/
theorem Derivation.unsatisfiable {F lines : Formula} (h : Derivation F lines)
    (hempty : [] ∈ lines) : F.Unsatisfiable := by
  intro σ hF
  obtain ⟨l, hl, _⟩ := h.models hF [] hempty
  simp at hl

end ClauseLearning
