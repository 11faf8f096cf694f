import ClauseLearning.Proofs.Conflict.Exactness
import ClauseLearning.Proofs.Search.LowerLevels
import ClauseLearning.Proofs.Search.Novelty
import ClauseLearning.Proofs.Solver.Shrinking

/-!
# Everything that is implied is removed

In a disciplined solver the level below settles the reason of every literal, so reasons are
accompanied. An analysis therefore removes from the clause of the first unique implication point
exactly the redundant literals, provided that it may look through as many reasons as the trail has
literals.
-/

set_option autoImplicit false

namespace ClauseLearning

namespace Solver

variable {s : Solver} {settled : Bool} {c : ClauseId} {uip : Literal} {clause kept : List Literal}

/-- The clause of a first unique implication point can be shrunk. -/
theorem Disciplined.shrinkable {w : Workspace} (h : s.Disciplined) (hpos : 0 < s.currentLevel)
    (hfalse : s.Falsified c)
    (hfirst : (s.workspace.firstUip s.view c).result = .ok (w, uip)) :
    Workspace.Shrinkable s.view w (w.learned ++ [uip.negate]) uip.negate := by
  obtain ⟨conflict, hc, hfalse, hcurrent⟩ :=
    hfalse.exists_conflict (hfalse.meetsCurrent h.toCoherent h.lower hpos)
  have hfinds : Workspace.FindsUip s.view conflict w uip :=
    (h.firstUip_yields hpos hc hfalse hcurrent).of_result hfirst
  exact ⟨h.trail, h.explained.justified, h.accompanied, hfinds.tracks, hpos, hfinds.asserting, rfl⟩

/-- An analysis that minimises to a sufficient depth removes what the plain search finds to be
redundant. -/
theorem Disciplined.kept_eq_of_condenses (h : s.Disciplined) (hpos : 0 < s.currentLevel)
    (hfalse : s.Falsified c) (hon : s.options.minimise = true)
    (hdepth : s.trail.length ≤ s.options.minimiseDepth) (hk : s.Condenses c uip clause kept) :
    kept = clause.filter fun l => !s.trail.isRedundant s.clauses clause s.trail.length l := by
  obtain ⟨w, activity, store, hfirst, hflush, rfl, hminimise, -⟩ := hk
  obtain ⟨cleared, hkept⟩ := hminimise hon
  have halike : s.clauses.Alike store := .of_flush hflush
  have hshrinkable := (h.shrinkable hpos hfalse hfirst).of_alike halike activity
  rw [(hshrinkable.minimise_yields hdepth _).of_result hkept]
  exact List.filter_congr fun l _ => congrArg _ (halike.isRedundant_eq _ _ l)

/-- The literals that are left are those that are not both redundant and of a lower level. -/
theorem Disciplined.not_mem_kept_iff (h : s.Disciplined) (hpos : 0 < s.currentLevel)
    (hfalse : s.Falsified c) (hk : s.Condenses c uip clause kept)
    (hkept : kept = clause.filter fun l => !s.trail.isRedundant s.clauses clause s.trail.length l)
    {l : Literal} (hl : l ∈ clause) :
    l ∉ kept ↔ s.trail.level l.var < s.currentLevel ∧ s.trail.Redundant s.clauses clause l := by
  obtain ⟨w, -, -, hfirst, -, rfl, -⟩ := hk
  have hiff := (h.shrinkable hpos hfalse hfirst).isRedundant_iff hl
  rw [hkept, List.mem_filter, and_iff_right hl, Bool.not_eq_true', Bool.not_eq_false]
  exact hiff

/-- After a disciplined run from a new solver and some rounds of a search, let a conflict be met
above the root, where the options ask for minimisation to a depth of at least the trail's length.
The analysis removes from the clause of the first unique implication point exactly the redundant
literals of lower levels: neither the exits nor the verdicts that are kept make a difference to the
plain search. -/
theorem DisciplinedRun.minimises_exactly {o : Options} {audit : AuditLevel} {proof : ProofLog}
    {start mid propagated : Solver} {found : List Learned}
    (hnew : Solver.new o audit proof = .ok start) (hrun : DisciplinedRun start settled s)
    (hsearches : s.Searches found mid) (hgo : mid.isUnsatisfiable = false)
    (hpropagate : mid.propagate.result = .ok (propagated, some c))
    (hpos : 0 < propagated.currentLevel) (hon : propagated.options.minimise = true)
    (hdepth : propagated.trail.length ≤ propagated.options.minimiseDepth) :
    ∃ uip clause kept learned next,
      (propagated.analyseConflict c).result = .ok (next, .learned learned) ∧
      propagated.Condenses c uip clause kept ∧ propagated.Stores kept learned.clause next ∧
      (∀ l ∈ clause, l ∉ kept ↔ propagated.trail.level l.var < propagated.currentLevel ∧
        propagated.trail.Redundant propagated.clauses clause l) ∧
      kept = clause.filter fun l =>
        !propagated.trail.isRedundant propagated.clauses clause propagated.trail.length l := by
  have hmid := hsearches.disciplined (hrun.disciplined_of_new hnew)
  obtain ⟨h, hready, hfalse⟩ := hmid.conflicts hgo hpropagate
  obtain ⟨uip, clause, kept, learned, next, hok, hcondenses, hstores, -⟩ :=
    h.reports_of_analyseConflict hready hpos hfalse
  have hkept := h.kept_eq_of_condenses hpos hfalse hon hdepth hcondenses
  exact ⟨uip, clause, kept, learned, next, hok, hcondenses, hstores,
    fun l hl => h.not_mem_kept_iff hpos hfalse hcondenses hkept hl, hkept⟩

/-- A decision implies a literal, which implies another one. The next decision leads to a conflict
with the first literal and the last one, of which the last is redundant. -/
def implyingMoves : List Move :=
  [.operate .newVariable, .operate .newVariable, .operate .newVariable, .operate .newVariable,
    .operate .newVariable, .operate (.addClause [⟨0, false⟩, ⟨1, true⟩]),
    .operate (.addClause [⟨1, false⟩, ⟨2, true⟩]),
    .operate (.addClause [⟨0, false⟩, ⟨2, false⟩, ⟨3, false⟩, ⟨4, true⟩]),
    .operate (.addClause [⟨0, false⟩, ⟨2, false⟩, ⟨3, false⟩, ⟨4, false⟩]), .settle,
    .operate (.decide ⟨0, true⟩), .settle, .operate (.decide ⟨3, true⟩)]

/-- After the moves a conflict is found on the second level, and the analysis removes exactly the
redundant literals. -/
theorem implyingMoves_minimises_exactly : ∃ settled s propagated c,
    runDisciplined true (Solver.empty {} .full ⟨some {}⟩) implyingMoves = some (settled, s) ∧
      s.isUnsatisfiable = false ∧ s.propagate.result = .ok (propagated, some c) ∧
      propagated.currentLevel = 2 ∧ propagated.options.minimise = true ∧
      propagated.trail.length ≤ propagated.options.minimiseDepth ∧
      ∃ uip clause kept learned next,
        (propagated.analyseConflict c).result = .ok (next, .learned learned) ∧
        propagated.Condenses c uip clause kept ∧ propagated.Stores kept learned.clause next ∧
        (∀ l ∈ clause, l ∉ kept ↔ propagated.trail.level l.var < propagated.currentLevel ∧
          propagated.trail.Redundant propagated.clauses clause l) ∧
        clause = [⟨0, false⟩, ⟨2, false⟩, ⟨3, false⟩] ∧ kept = [⟨0, false⟩, ⟨3, false⟩] := by
  have hnew : Solver.new {} .full ⟨some {}⟩ = .ok (Solver.empty {} .full ⟨some {}⟩) := rfl
  have hend : ((runDisciplined true (Solver.empty {} .full ⟨some {}⟩) implyingMoves).bind fun p =>
      p.2.propagate.result.toOption.map fun q => (p.2.isUnsatisfiable, q.2, q.1.currentLevel,
        q.1.options.minimise, q.1.trail.length, q.1.options.minimiseDepth)) =
      some (false, some 3, 2, true, 5, 1000) := by decide +kernel
  have hclause : ((runDisciplined true (Solver.empty {} .full ⟨some {}⟩)
      implyingMoves).bind fun p => p.2.propagate.result.toOption.bind fun q =>
        (q.1.workspace.firstUip q.1.view 3).result.toOption.map fun r =>
          (r.1.learned ++ [r.2.negate], (r.1.learned ++ [r.2.negate]).filter fun l =>
            !q.1.trail.isRedundant q.1.clauses (r.1.learned ++ [r.2.negate]) q.1.trail.length l)) =
      some ([⟨0, false⟩, ⟨2, false⟩, ⟨3, false⟩], [⟨0, false⟩, ⟨3, false⟩]) := by decide +kernel
  obtain ⟨⟨settled, s⟩, hrun, hend⟩ := Option.bind_eq_some_iff.1 hend
  obtain ⟨⟨propagated, conflict⟩, hpropagate, hend⟩ := Option.map_eq_some_iff.1 hend
  simp only [Prod.mk.injEq] at hend
  obtain ⟨hgo, rfl, hlevel, hon, hlength, hdepth⟩ := hend
  have hpropagate := toOption_eq_some_iff.1 hpropagate
  obtain ⟨uip, clause, kept, learned, next, hok, hcondenses, hstores, hiff, hkept⟩ :=
    DisciplinedRun.minimises_exactly hnew (DisciplinedRun.start.of_runDisciplined hrun) (.refl s)
      hgo hpropagate (by omega) hon (by omega)
  refine ⟨settled, s, propagated, 3, hrun, hgo, hpropagate, hlevel, hon, by omega, uip, clause,
    kept, learned, next, hok, hcondenses, hstores, hiff, ?_⟩
  obtain ⟨w, -, -, hfirst, -, rfl, -⟩ := hcondenses
  rw [hrun, Option.bind_some, hpropagate] at hclause
  change ((propagated.workspace.firstUip propagated.view 3).result.toOption.map _) = _ at hclause
  rw [hfirst] at hclause
  obtain ⟨hfound, hleft⟩ := Prod.mk.inj (Option.some.inj hclause)
  exact ⟨hfound, hkept.trans hleft⟩

end Solver

end ClauseLearning
