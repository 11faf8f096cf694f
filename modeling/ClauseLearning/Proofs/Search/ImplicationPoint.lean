import ClauseLearning.Proofs.Conflict.Dominators
import ClauseLearning.Proofs.Search.LowerLevels
import ClauseLearning.Proofs.Search.Novelty
import ClauseLearning.Proofs.Solver.Shrinking

/-!
# What the asserting literal dominates

In a disciplined solver the reasons of the current level lead from every literal of a conflict back
to the decision. The literal that an analysis asserts is the first dominator of the conflict in this
graph, whatever minimisation does to the rest of the clause.
-/

set_option autoImplicit false

namespace ClauseLearning

namespace Solver

variable {s : Solver} {settled : Bool} {c : ClauseId}

/-- The first unique implication point of a false clause in a disciplined solver. -/
theorem Disciplined.firstDominator {conflict : Clause} {w : Workspace} {uip : Literal}
    (h : s.Disciplined) (hpos : 0 < s.currentLevel) (hc : s.clauses.get? c = some conflict)
    (hfalse : ∀ l ∈ conflict.literals, s.trail.isFalse l = true)
    (hcurrent : ∃ l ∈ conflict.literals, s.trail.level l.var = s.currentLevel)
    (hfirst : (s.workspace.firstUip s.view c).result = .ok (w, uip)) :
    s.trail.FirstDominator s.clauses conflict uip.var := by
  have hfinds : Workspace.FindsUip s.view conflict w uip :=
    (h.firstUip_yields hpos hc hfalse hcurrent).of_result hfirst
  have haround : ∀ p < s.trail.length, s.trail.position uip.var < p →
      s.trail.WayAround s.clauses conflict p :=
    Workspace.wayAround_of_firstUip (v := s.view) h.trail h.explained.justified h.stampable
      (h.rests.tracks h.marks) h.toCoherent.seen_eq h.toCoherent.pending hc hfalse hfirst
  exact Trail.firstDominator_of_wayAround h.trail h.explained h.accompanied hpos hfalse hcurrent
    (fun path hpath => hfinds.dominates h.trail hpos hpath) haround

/-- After a disciplined run from a new solver and some rounds of a search, let a conflict be met
above the root. The analysis learns from it, and the variable of the asserting literal lies on all
paths that lead from the conflict back to the decision of its level; of all variables that do, it
was assigned last. -/
theorem DisciplinedRun.asserts_first_dominator {o : Options} {audit : AuditLevel}
    {proof : ProofLog} {start mid propagated : Solver} {found : List Learned}
    (hnew : Solver.new o audit proof = .ok start) (hrun : DisciplinedRun start settled s)
    (hsearches : s.Searches found mid) (hgo : mid.isUnsatisfiable = false)
    (hpropagate : mid.propagate.result = .ok (propagated, some c))
    (hpos : 0 < propagated.currentLevel) :
    ∃ conflict learned next, propagated.clauses.get? c = some conflict ∧
      (propagated.analyseConflict c).result = .ok (next, .learned learned) ∧
      propagated.trail.FirstDominator propagated.clauses conflict learned.asserting.var := by
  have hmid := hsearches.disciplined (hrun.disciplined_of_new hnew)
  obtain ⟨h, hready, hfalse⟩ := hmid.conflicts hgo hpropagate
  obtain ⟨uip, clause, kept, learned, next, hok, hcondenses, -, hreports⟩ :=
    h.reports_of_analyseConflict hready hpos hfalse
  obtain ⟨w, -, -, hfirst, -⟩ := hcondenses
  have hmeets := hfalse.meetsCurrent h.toCoherent h.lower hpos
  obtain ⟨conflict, hc, hall, hcurrent⟩ := hfalse.exists_conflict hmeets
  refine ⟨conflict, learned, next, hc, hok, ?_⟩
  rw [hreports.asserting_eq, Literal.negate_var]
  exact h.firstDominator hpos hc hall hcurrent hfirst

/-- The decision implies a literal, and that literal implies two that exclude each other. -/
def narrowingMoves : List Move :=
  [.operate .newVariable, .operate .newVariable, .operate .newVariable, .operate .newVariable,
    .operate (.addClause [⟨0, false⟩, ⟨1, true⟩]), .operate (.addClause [⟨1, false⟩, ⟨2, true⟩]),
    .operate (.addClause [⟨1, false⟩, ⟨3, true⟩]), .operate (.addClause [⟨2, false⟩, ⟨3, false⟩]),
    .settle, .operate (.decide ⟨0, true⟩)]

/-- Decision and implied literal lie on all paths; the implied literal is asserted. -/
theorem narrowingMoves_asserts_first_dominator : ∃ settled s propagated conflict learned next,
    runDisciplined true (Solver.empty {} .full ⟨some {}⟩) narrowingMoves = some (settled, s) ∧
      s.propagate.result = .ok (propagated, some 3) ∧ propagated.currentLevel = 1 ∧
      propagated.clauses.get? 3 = some conflict ∧
      (propagated.analyseConflict 3).result = .ok (next, .learned learned) ∧
      propagated.trail.FirstDominator propagated.clauses conflict learned.asserting.var ∧
      learned.asserting = ⟨1, false⟩ := by
  have hnew : Solver.new {} .full ⟨some {}⟩ = .ok (Solver.empty {} .full ⟨some {}⟩) := rfl
  have hend : ((runDisciplined true (Solver.empty {} .full ⟨some {}⟩) narrowingMoves).bind fun p =>
      p.2.propagate.result.toOption.map fun q => (p.2.isUnsatisfiable, q.2, q.1.currentLevel,
        (q.1.analyseConflict 3).result.toOption.map fun r =>
          r.2.learnings.map Learned.asserting)) =
      some (false, some 3, 1, some [⟨1, false⟩]) := by decide +kernel
  obtain ⟨⟨settled, s⟩, hrun, hend⟩ := Option.bind_eq_some_iff.1 hend
  obtain ⟨⟨propagated, conflict⟩, hpropagate, hend⟩ := Option.map_eq_some_iff.1 hend
  simp only [Prod.mk.injEq] at hend
  obtain ⟨hgo, rfl, hlevel, hasserting⟩ := hend
  have hpropagate := toOption_eq_some_iff.1 hpropagate
  obtain ⟨conflict, learned, next, hc, hok, hfirst⟩ :=
    DisciplinedRun.asserts_first_dominator hnew (DisciplinedRun.start.of_runDisciplined hrun)
      (.refl s) hgo hpropagate (by omega)
  rw [hok] at hasserting
  have hasserting : [learned.asserting] = [⟨1, false⟩] := Option.some.inj hasserting
  exact ⟨settled, s, propagated, conflict, learned, next, hrun, hpropagate, hlevel, hc, hok, hfirst,
    List.head_eq_of_cons_eq hasserting⟩

end Solver

end ClauseLearning
