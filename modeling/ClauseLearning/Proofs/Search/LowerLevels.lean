import ClauseLearning.Proofs.Conflict.Exactness
import ClauseLearning.Proofs.Search.Moves

/-!
# Nothing is missed at a lower level

Along a disciplined run no clause is unit or false under the assignments up to a level below the
current one, whenever the clause was stored: a level is left only when it is settled, and a learned
clause has two free literals at every level below the one that is jumped to.

So a literal is implied on the first level on which it could be. The reason of a literal above the
root, unless the literal is a decision, has another literal of the same level; otherwise the level
below would have missed the implication.
-/

set_option autoImplicit false

namespace ClauseLearning

namespace Trail

variable {t : Trail} {level : Nat} {ls : List Literal}

/-- The literal is true by an assignment up to a level. -/
def TrueUpTo (t : Trail) (level : Nat) (l : Literal) : Prop :=
  t.isTrue l = true ∧ t.level l.var ≤ level

/-- The literal has no value by the assignments up to a level. -/
def FreeUpTo (t : Trail) (level : Nat) (l : Literal) : Prop :=
  ¬ (t.isAssigned l.var = true ∧ t.level l.var ≤ level)

/-- A literal that is not false up to a level is true or free there. -/
theorem trueUpTo_or_freeUpTo {l : Literal} (h : ¬ (t.isFalse l = true ∧ t.level l.var ≤ level)) :
    t.TrueUpTo level l ∨ t.FreeUpTo level l := by
  by_cases hassigned : t.isAssigned l.var = true ∧ t.level l.var ≤ level
  · obtain ⟨hassigned, hle⟩ := hassigned
    rcases isTrue_or_isFalse hassigned with htrue | hfalse
    · exact Or.inl ⟨htrue, hle⟩
    · exact absurd ⟨hfalse, hle⟩ h
  · exact Or.inr hassigned

/-- Of a settled clause a literal is true, or two are free. -/
theorem Settles.true_or_free (h : t.Settles level ls) :
    (∃ l ∈ ls, t.TrueUpTo level l) ∨
      ∃ k ∈ ls, ∃ l ∈ ls, k ≠ l ∧ t.FreeUpTo level k ∧ t.FreeUpTo level l := by
  rcases h with htrue | ⟨k, hk, l, hl, hne, hkup, hlup⟩
  · exact Or.inl htrue
  · rcases trueUpTo_or_freeUpTo hkup with hktrue | hkfree
    · exact Or.inl ⟨k, hk, hktrue⟩
    rcases trueUpTo_or_freeUpTo hlup with hltrue | hlfree
    · exact Or.inl ⟨l, hl, hltrue⟩
    exact Or.inr ⟨k, hk, l, hl, hne, hkfree, hlfree⟩

/-- If the level below settles the reason of a literal, another literal of the reason is of the
level of the literal. -/
theorem Settles.exists_companion (h : t.Settles level ls) (ht : t.WellFormed) {l : Literal}
    (hl : t.isTrue l = true) (hlevel : t.level l.var = level + 1)
    (hrest : ∀ k ∈ ls, k ≠ l → t.isFalse k = true ∧ t.position k.var < t.position l.var) :
    ∃ k ∈ ls, k ≠ l ∧ t.level k.var = level + 1 := by
  -- a false literal that is not false up to the level below is of the level of the literal
  have habove : ∀ k ∈ ls, k ≠ l → ¬ (t.isFalse k = true ∧ t.level k.var ≤ level) →
      t.level k.var = level + 1 := by
    intro k hk hne hup
    obtain ⟨hfalse, hlt⟩ := hrest k hk hne
    have hle := ht.level_mono (isAssigned_of_isFalse hfalse) (isAssigned_of_isTrue hl)
      (Nat.le_of_lt hlt)
    have hgt : level < t.level k.var := Nat.lt_of_not_le fun hle => hup ⟨hfalse, hle⟩
    omega
  rcases h with ⟨k, hk, htrue, hle⟩ | ⟨k, hk, k', hk', hne, hup, hup'⟩
  · have hne : k ≠ l := by
      rintro rfl
      omega
    have hno := (hrest k hk hne).1
    rw [isFalse_eq_false_of_isTrue htrue] at hno
    cases hno
  · by_cases hkl : k = l
    · have hne' : k' ≠ l := fun heq => hne (hkl.trans heq.symm)
      exact ⟨k', hk', hne', habove k' hk' hne' hup'⟩
    · exact ⟨k, hk, hkl, habove k hk hkl hup⟩

end Trail

/-- Different literals of a stored clause have different variables. -/
theorem Clause.Proper.var_ne {n : Nat} {c : Clause} (h : c.Proper n) {k l : Literal}
    (hk : k ∈ c.literals) (hl : l ∈ c.literals) (hne : k ≠ l) : k.var ≠ l.var :=
  fun heq => hne (List.inj_on_of_nodup_map h.distinct hk hl heq)

namespace Solver

variable {s : Solver} {settled : Bool}

/-- No implication is missed below the current level. By the assignments up to a lower level every
stored clause has a true literal or two free ones, and a literal above the root that is no decision
has a reason with another literal of its level. -/
structure MissesNothing (s : Solver) : Prop where
  lower : ∀ level < s.currentLevel, ∀ c clause, s.clauses.get? c = some clause →
    (∃ l ∈ clause.literals, s.trail.TrueUpTo level l) ∨
      ∃ k ∈ clause.literals, ∃ l ∈ clause.literals, k.var ≠ l.var ∧
        s.trail.FreeUpTo level k ∧ s.trail.FreeUpTo level l
  companion : ∀ l, s.trail.isTrue l = true → 0 < s.trail.level l.var →
    s.trail.position l.var ∉ s.trail.delimiters →
    ∃ c clause, s.trail.reason l.var = some c ∧ s.clauses.get? c = some clause ∧
      l ∈ clause.literals ∧ ∃ k ∈ clause.literals, k.var ≠ l.var ∧
        s.trail.level k.var = s.trail.level l.var

/-- A reason whose other literals were all of lower levels would not be settled there. -/
theorem Disciplined.accompanied (h : s.Disciplined) : s.trail.Accompanied s.clauses := by
  intro l c reason hl hpos hr hc
  have hrest := (h.explained.justified.of_get? hl hr hc).2
  obtain ⟨level, hlevel⟩ : ∃ level, s.trail.level l.var = level + 1 :=
    Nat.exists_eq_succ_of_ne_zero (Nat.ne_of_gt hpos)
  have hlt : level < s.currentLevel := by
    have hle : s.trail.level l.var ≤ s.currentLevel := h.trail.level_le l.var
    omega
  rw [hlevel]
  exact (h.lower level hlt c reason hc).exists_companion h.trail hl hlevel hrest

/-- A disciplined solver misses nothing on its lower levels. -/
theorem Disciplined.missesNothing (h : s.Disciplined) : s.MissesNothing where
  lower := by
    intro level hlt c clause hc
    have hproper := h.proper c clause hc
    refine (h.lower level hlt c clause hc).true_or_free.imp_right ?_
    rintro ⟨k, hk, l, hl, hne, hkfree, hlfree⟩
    exact ⟨k, hk, l, hl, hproper.var_ne hk hl hne, hkfree, hlfree⟩
  companion := by
    intro l hl hpos hno
    cases hr : s.trail.reason l.var with
    | none => exact absurd (h.explained.unexplained l hl hpos hr) hno
    | some c =>
      obtain ⟨clause, hc, hmem, -⟩ := h.explained.implied l c hl hr
      obtain ⟨k, hk, hne, hklevel⟩ := h.accompanied l c clause hl hpos hr hc
      exact ⟨c, clause, rfl, hc, hmem, k, hk, (h.proper c clause hc).var_ne hk hmem hne, hklevel⟩

/-- In every state of a disciplined run from a new solver, no implication is missed below the
current level. -/
theorem DisciplinedRun.misses_nothing {o : Options} {audit : AuditLevel} {proof : ProofLog}
    {start : Solver} (hnew : Solver.new o audit proof = .ok start)
    (hrun : DisciplinedRun start settled s) : s.MissesNothing :=
  (hrun.disciplined_of_new hnew).missesNothing

/-- Two decisions lead to a conflict, from which a clause is learned that implies a literal on the
first level; then another level is opened. -/
def learningMoves : List Move :=
  [.operate .newVariable, .operate .newVariable, .operate .newVariable, .operate .newVariable,
    .operate (.addClause [⟨0, false⟩, ⟨1, false⟩, ⟨2, true⟩]),
    .operate (.addClause [⟨1, false⟩, ⟨2, false⟩]), .settle, .operate (.decide ⟨0, true⟩), .settle,
    .operate (.decide ⟨1, true⟩), .settle, .operate (.decide ⟨3, true⟩)]

/-- After the moves two levels are open, three clauses are stored, and nothing is missed. -/
theorem learningMoves_misses_nothing : ∃ settled s,
    runDisciplined true (Solver.empty {} .full ⟨some {}⟩) learningMoves = some (settled, s) ∧
      s.currentLevel = 2 ∧ s.clauses.size = 3 ∧
      s.trail.entries = [⟨0, true⟩, ⟨1, false⟩, ⟨3, true⟩] ∧ s.MissesNothing := by
  have hnew : Solver.new {} .full ⟨some {}⟩ = .ok (Solver.empty {} .full ⟨some {}⟩) := rfl
  have hend : ((runDisciplined true (Solver.empty {} .full ⟨some {}⟩) learningMoves).map fun p =>
      (p.2.currentLevel, p.2.clauses.size, p.2.trail.entries)) =
      some (2, 3, [⟨0, true⟩, ⟨1, false⟩, ⟨3, true⟩]) := by decide +kernel
  obtain ⟨⟨settled, s⟩, hrun, hend⟩ := Option.map_eq_some_iff.1 hend
  simp only [Prod.mk.injEq] at hend
  obtain ⟨hlevel, hsize, hentries⟩ := hend
  exact ⟨settled, s, hrun, hlevel, hsize, hentries,
    DisciplinedRun.misses_nothing hnew (DisciplinedRun.start.of_runDisciplined hrun)⟩

end Solver

end ClauseLearning
