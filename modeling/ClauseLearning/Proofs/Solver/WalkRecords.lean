import ClauseLearning.Proofs.Conflict.WalkRecords

/-!
# The records of an analysis

Along a legal run every assignment above the root is a decision or has a reason, so the resolution
of a false clause with a literal of the current level reaches its first unique implication point.
The solver hands a workspace at rest to it, so what it leaves in the workspace is exact.
-/

set_option autoImplicit false

namespace ClauseLearning

namespace Solver

variable {s : Solver} {c : ClauseId}

/-- A grounded solver resolves a false clause of the current level, and the records are exact. -/
theorem Grounded.exactRecords (hs : s.Grounded) (hpos : 0 < s.currentLevel)
    (hfalse : s.Falsified c) (hcurrent : s.MeetsCurrent c) : ∃ conflict w uip,
      s.clauses.get? c = some conflict ∧ (s.workspace.firstUip s.view c).result = .ok (w, uip) ∧
      Workspace.ExactRecords s.view conflict w uip (s.workspace.firstUip s.view c).resolutions := by
  obtain ⟨conflict, hc, hall, hmeets⟩ := hfalse.exists_conflict hcurrent
  obtain ⟨⟨w, uip⟩, hok, hfinds⟩ := hs.firstUip_yields hpos hc hall hmeets
  refine ⟨conflict, w, uip, hc, hok, ?_⟩
  exact Workspace.exactRecords_of_firstUip hs.trail (hs.rests.used hs.marks) hc hok hfinds

/-- In a state of a legal run above the root take a stored clause that is false and has a literal of
the current level, as a pending conflict that is analysed. Its resolution finds an implication
point. The variables met are then flagged and listed once each, and they are those above the root of
the conflict and of the reasons resolved; the record of each level has their number and their lowest
position, each level with a variable is listed once, the clause under construction has the literals
of lower levels, and all other variables met of the current level stand after the implication point
on the trail. -/
theorem LegalRun.firstUip_leaves_exact_records {o : Options} {audit : AuditLevel} {proof : ProofLog}
    {start : Solver} {F : Formula} (hnew : Solver.new o audit proof = .ok start)
    (hrun : LegalRun start F s) (hpos : 0 < s.currentLevel) (hfalse : s.Falsified c)
    (hcurrent : s.MeetsCurrent c) : ∃ conflict w uip,
      s.clauses.get? c = some conflict ∧ (s.workspace.firstUip s.view c).result = .ok (w, uip) ∧
      Workspace.ExactRecords s.view conflict w uip (s.workspace.firstUip s.view c).resolutions := by
  have hs := hrun.grounded hnew
  exact hs.exactRecords hpos hfalse hcurrent

/-- A conflict on the third level that involves the first level and a literal of the root, but not
the second level. -/
def involvedRun : List Operation :=
  [.newVariable, .newVariable, .newVariable, .newVariable, .newVariable, .newVariable,
    .newVariable, .newVariable, .addClause [⟨0, false⟩, ⟨1, true⟩],
    .addClause [⟨3, false⟩, ⟨7, false⟩, ⟨4, true⟩],
    .addClause [⟨4, false⟩, ⟨1, false⟩, ⟨7, false⟩, ⟨5, true⟩],
    .addClause [⟨4, false⟩, ⟨0, false⟩, ⟨6, true⟩],
    .addClause [⟨5, false⟩, ⟨6, false⟩, ⟨1, false⟩], .addClause [⟨7, true⟩],
    .decide ⟨0, true⟩, .assign ⟨1, true⟩ (some 0), .decide ⟨2, true⟩, .decide ⟨3, true⟩,
    .assign ⟨4, true⟩ (some 1), .assign ⟨5, true⟩ (some 2), .assign ⟨6, true⟩ (some 3),
    .declareConflict 4]

/-- Two of the three variables met of the third level are resolved; the root and the second level
have the default record. -/
theorem involvedRun_firstUip_leaves_exact_records : ∃ F s conflict w uip,
    runLegal [] (Solver.empty {} .full ⟨some {}⟩) involvedRun = some (F, s) ∧
      s.currentLevel = 3 ∧ s.status = .conflict 4 ∧ s.Falsified 4 ∧ s.MeetsCurrent 4 ∧
      (s.workspace.firstUip s.view 4).result = .ok (w, uip) ∧
      Workspace.ExactRecords s.view conflict w uip (s.workspace.firstUip s.view 4).resolutions ∧
      uip = ⟨4, true⟩ ∧ w.seenVariables = [1, 5, 6, 0, 4] ∧
      (s.workspace.firstUip s.view 4).resolutions.map (·.2.var) = [6, 5] ∧ w.levels = [1, 3] ∧
      [0, 1, 2, 3].map w.records.get = [{}, ⟨2, some 1⟩, {}, ⟨3, some 5⟩] ∧
      w.learned = [⟨1, false⟩, ⟨0, false⟩] := by
  have hnew : Solver.new {} .full ⟨some {}⟩ = .ok (Solver.empty {} .full ⟨some {}⟩) := rfl
  have hend : ((runLegal [] (Solver.empty {} .full ⟨some {}⟩) involvedRun).map fun p =>
      ((p.2.currentLevel, p.2.status, accepts (p.2.trail.holdsConflict p.2.clauses 4).result),
        (p.2.clauses.get? 4).map Clause.literals, p.2.trail.level 5,
        (p.2.workspace.firstUip p.2.view 4).resolutions.map (·.2.var))) =
      some ((3, .conflict 4, true), some [⟨1, false⟩, ⟨5, false⟩, ⟨6, false⟩], 3, [6, 5]) := by
    decide +kernel
  have hfound : ((runLegal [] (Solver.empty {} .full ⟨some {}⟩) involvedRun).bind fun p =>
      (p.2.workspace.firstUip p.2.view 4).result.toOption.map fun q =>
        ((q.2, q.1.learned), [q.1.seenVariables, q.1.levels], [0, 1, 2, 3].map q.1.records.get)) =
      some ((⟨4, true⟩, [⟨1, false⟩, ⟨0, false⟩]), [[1, 5, 6, 0, 4], [1, 3]],
        [{}, ⟨2, some 1⟩, {}, ⟨3, some 5⟩]) := by decide +kernel
  obtain ⟨⟨F, s⟩, hrun, hend⟩ := Option.map_eq_some_iff.1 hend
  simp only [Prod.mk.injEq] at hend
  obtain ⟨⟨hlevel, hstatus, haccepts⟩, hclause, hmeets, hresolved⟩ := hend
  have hfalse : s.Falsified 4 := Trail.holdsConflict_iff.1 (accepts_iff.1 haccepts)
  have hcurrent : s.MeetsCurrent 4 := by
    obtain ⟨conflict, hc, hliterals⟩ := Option.map_eq_some_iff.1 hclause
    exact ⟨conflict, hc, ⟨5, false⟩, by rw [hliterals]; simp, hmeets.trans hlevel.symm⟩
  obtain ⟨conflict, w, uip, -, hok, hrecords⟩ := LegalRun.firstUip_leaves_exact_records hnew
    (LegalRun.start.of_runLegal hrun) (by omega) hfalse hcurrent
  rw [hrun, Option.bind_some, hok] at hfound
  have hleft := Option.some.inj hfound
  simp only [Prod.mk.injEq, List.cons.injEq, and_true] at hleft
  obtain ⟨⟨huip, hlearned⟩, ⟨hseen, hlevels⟩, hrecord⟩ := hleft
  exact ⟨F, s, conflict, w, uip, hrun, hlevel, hstatus, hfalse, hcurrent, hok, hrecords, huip,
    hseen, hresolved, hlevels, hrecord, hlearned⟩

end Solver

end ClauseLearning
