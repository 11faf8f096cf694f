import ClauseLearning.Proofs.Conflict.Asserting
import ClauseLearning.Proofs.Entailment

/-!
# Learned clauses follow by reverse unit propagation

A formula *backs* the assignments and the stored clauses if it contains a unit clause for every
literal fixed at the root, and for every stored clause one that has in addition at most literals
false at the root.

Under the negated literals of a learned clause, unit propagation over such a formula goes up the
trail again. A literal that was met or found to be implied is an assumption, or its reason rests on
earlier literals of this kind and on literals of the root; so all of them are propagated, in the
order of their positions, and in the end the conflict is falsified.
-/

set_option autoImplicit false

namespace ClauseLearning

/-- Whether a literal is false at the root level. -/
def Trail.IsRootFalse (t : Trail) (l : Literal) : Prop := t.isFalse l = true ∧ t.level l.var = 0

/-- The formula contains the literals fixed at the root and the stored clauses, the latter possibly
with more literals that are false at the root. -/
structure Formula.Backs (G : Formula) (t : Trail) (s : ClauseStore) : Prop where
  unit : ∀ l, t.isTrue l = true → t.level l.var = 0 → [l] ∈ G
  clause : ∀ c clause, s.get? c = some clause →
    ∃ ls ∈ G, clause.literals ⊆ ls ∧ ∀ k ∈ ls, k ∈ clause.literals ∨ t.IsRootFalse k

namespace Formula.Backs

variable {G : Formula} {t : Trail} {s : ClauseStore} {assumed : List Literal}

/-- The negation of a literal false at the root is propagated under all assumptions. -/
theorem propagated_root (h : G.Backs t s) {k : Literal} (hk : t.IsRootFalse k) :
    Propagated G assumed k.negate := by
  have hunit := h.unit k.negate (Trail.isTrue_negate.trans hk.1) hk.2
  refine .unit hunit (List.mem_singleton_self _) fun x hx hne => ?_
  exact absurd (List.mem_singleton.1 hx) hne

/-- A clause follows from one that has in addition only literals false at the root. -/
theorem rup_of_root (h : G.Backs t s) {ls rest : List Literal} (hls : ls ∈ G)
    (hrest : ∀ k ∈ ls, k ∈ rest ∨ t.IsRootFalse k) : Rup G rest := by
  refine ⟨ls, hls, fun k hk => ?_⟩
  rcases hrest k hk with hmem | hroot
  · exact .assumption (List.mem_map_of_mem hmem)
  · exact h.propagated_root hroot

/-- A literal is propagated if the other literals of its reason are falsified. -/
theorem propagated_of_reason (h : G.Backs t s) (he : t.Justified s) {l : Literal} {c : ClauseId}
    {clause : Clause} (hl : t.isTrue l = true) (hr : t.reason l.var = some c)
    (hc : s.get? c = some clause)
    (hrest : ∀ k ∈ clause.literals, k ≠ l → Propagated G assumed k.negate) :
    Propagated G assumed l := by
  have hmem := (he.of_get? hl hr hc).1
  obtain ⟨ls, hls, hsub, hcover⟩ := h.clause c clause hc
  refine .unit hls (hsub hmem) fun k hk hkl => ?_
  rcases hcover k hk with hk | hroot
  · exact hrest k hk hkl
  · exact h.propagated_root hroot

end Formula.Backs

namespace Workspace

variable {v : View} {conflict : Clause} {w w₀ judged : Workspace} {uip : Literal}
  {kept : List Literal}

/-- A literal of lower level that was met or found to be implied is kept in the clause, or its
reason rests on literals of this kind. -/
theorem FindsUip.kept_or_supported (h : FindsUip v conflict w uip)
    (hkept : ∀ l ∈ w.learned ++ [uip.negate], l ∈ kept ∨ Passes v judged 0 l.var) {l : Literal}
    (hl : v.trail.isTrue l = true) (hlevel : v.trail.level l.var < v.trail.currentLevel)
    (hmet : w.isSeen l.var = true ∨ judged.isRemoved l.var = true) :
    l.negate ∈ kept ∨ judged.isRemoved l.var = true := by
  rcases hmet with hseen | hremoved
  · have hmem := h.tracks.negate_mem_seen h.falsified hl hseen
    have hlearned := h.tracks.mem_learned_iff.2 ⟨hmem, hlevel⟩
    refine (hkept l.negate (List.mem_append_left _ hlearned)).imp_right ?_
    rintro (hroot | hremoved | ⟨hdepth, -⟩)
    · have := h.tracks.above_root _ hmem
      omega
    · exact hremoved
    · exact absurd hdepth (Nat.lt_irrefl 0)
  · exact Or.inr hremoved

/-- The reason of a literal that was met or found to be implied rests on literals of this kind,
unless the literal is an assumption. -/
theorem FindsUip.assumed_or_rests (ht : v.trail.WellFormed) (he : v.trail.Justified v.clauses)
    (h : FindsUip v conflict w uip)
    (hw₀ : w₀.marks = w.marks) (hjudged : Judges v w₀ judged)
    (hkept : ∀ l ∈ w.learned ++ [uip.negate], l ∈ kept ∨ Passes v judged 0 l.var) {l : Literal}
    (hl : v.trail.isTrue l = true)
    (hmet : w.isSeen l.var = true ∨ judged.isRemoved l.var = true) :
    l.negate ∈ kept ∨ ∃ c clause, v.trail.reason l.var = some c ∧
      v.clauses.get? c = some clause ∧ ∀ k ∈ clause.literals, k ≠ l →
        v.trail.level k.var = 0 ∨ w.isSeen k.var = true ∨ judged.isRemoved k.var = true := by
  rcases Nat.lt_or_eq_of_le (ht.level_le l.var) with hlt | hcurrent
  · refine (h.kept_or_supported hkept hl hlt hmet).imp_right fun hremoved => ?_
    obtain ⟨-, c, clause, hr, hc, hrest⟩ := hjudged.supported _ hremoved
    refine ⟨c, clause, hr, hc, fun k hk hkl => ?_⟩
    refine (hrest k hk (he.var_ne hl hr hc hk hkl)).imp_right (Or.imp_left fun hseen => ?_)
    rw [hjudged.seen_eq] at hseen
    unfold isSeen marksOf at hseen ⊢
    rwa [hw₀] at hseen
  · have hseen : w.isSeen l.var = true :=
      hmet.resolve_right fun hremoved => (hjudged.supported _ hremoved).1 hcurrent
    have hmem := h.tracks.negate_mem_seen h.falsified hl hseen
    by_cases huip : l.var = uip.var
    · left
      rw [Trail.eq_of_isTrue hl h.uip_true huip]
      exact h.asserting_kept hjudged hkept
    · right
      obtain ⟨-, c, clause, hr, hc, hcovers⟩ := h.resolved l.negate hmem hcurrent huip
      refine ⟨c, clause, hr, hc, fun k hk _ => ?_⟩
      exact (hcovers k hk).imp_right Or.inl

/-- Under the negated literals of the learned clause, all literals that were met or found to be
implied are propagated. -/
theorem FindsUip.propagated {G : Formula} (hG : G.Backs v.trail v.clauses)
    (ht : v.trail.WellFormed) (he : v.trail.Justified v.clauses) (h : FindsUip v conflict w uip)
    (hw₀ : w₀.marks = w.marks) (hjudged : Judges v w₀ judged)
    (hkept : ∀ l ∈ w.learned ++ [uip.negate], l ∈ kept ∨ Passes v judged 0 l.var) {l : Literal}
    (hl : v.trail.isTrue l = true)
    (hmet : w.isSeen l.var = true ∨ judged.isRemoved l.var = true) :
    Propagated G (kept.map Literal.negate) l := by
  -- the literals of a reason stand before the literal that it implies
  induction hposition : v.trail.position l.var using Nat.strongRecOn generalizing l with
  | ind i ih =>
    subst hposition
    have hcases := h.assumed_or_rests ht he hw₀ hjudged hkept hl hmet
    rcases hcases with hassumed | ⟨c, clause, hr, hc, hrest⟩
    · have hmem := List.mem_map_of_mem (f := Literal.negate) hassumed
      rw [Literal.negate_negate] at hmem
      exact .assumption hmem
    · refine hG.propagated_of_reason he hl hr hc fun k hk hkl => ?_
      obtain ⟨hkfalse, hlt⟩ := (he.of_get? hl hr hc).2 k hk hkl
      rcases hrest k hk hkl with hroot | hkmet
      · exact hG.propagated_root ⟨hkfalse, hroot⟩
      · exact ih _ hlt (Trail.isTrue_negate.trans hkfalse) hkmet rfl

/-- The minimised clause of the first unique implication point follows by reverse unit
propagation. -/
theorem FindsUip.rup {G : Formula} {c : ClauseId} (hG : G.Backs v.trail v.clauses)
    (ht : v.trail.WellFormed) (he : v.trail.Justified v.clauses) (h : FindsUip v conflict w uip)
    (hc : v.clauses.get? c = some conflict)
    (hfalse : ∀ l ∈ conflict.literals, v.trail.isFalse l = true)
    (hw₀ : w₀.marks = w.marks) (hjudged : Judges v w₀ judged)
    (hkept : ∀ l ∈ w.learned ++ [uip.negate], l ∈ kept ∨ Passes v judged 0 l.var) :
    Rup G kept := by
  obtain ⟨ls, hls, -, hcover⟩ := hG.clause c conflict hc
  refine ⟨ls, hls, fun k hk => ?_⟩
  rcases hcover k hk with hk | hroot
  · rcases h.covers k hk with hroot | hseen
    · exact hG.propagated_root ⟨hfalse k hk, hroot⟩
    · exact h.propagated hG ht he hw₀ hjudged hkept (Trail.isTrue_negate.trans (hfalse k hk))
        (Or.inl hseen)
  · exact hG.propagated_root hroot

end Workspace

end ClauseLearning
