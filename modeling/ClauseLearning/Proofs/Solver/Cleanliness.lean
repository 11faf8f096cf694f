import ClauseLearning.Proofs.Solver.Guidance

/-!
# The workspace between operations

Whatever the caller does, every operation that succeeds leaves the workspace at rest. Only an
analysis uses it, and it cleans up after itself in four places, for each of which a list says what
is to be cleaned: minimisation forgets its verdicts along its own list; stamping empties the list of
waiting clauses; the bumps take the marks of the literals met away, one after the other; and at last
the records of the levels met are given back.

That no mark and no record is missed does not depend on the clauses. What was met is marked and
listed at once, whether or not it is false, and a verdict is listed with its mark.
-/

set_option autoImplicit false

namespace ClauseLearning

/-- Nothing is left in a workspace: no variable has a mark, all records are those that levels start
with, and the lists of the literals, levels, learned literals, resolved clauses and minimised
variables are empty. -/
structure Workspace.Clean (w : Workspace) : Prop where
  clear : w.isClear = true
  marks : ∀ v, (w.marksOf v).seen = false ∧ (w.marksOf v).poison = false ∧
    (w.marksOf v).removable = false
  records : ∀ level, w.records.get level = {}
  seen : w.seen = []
  levels : w.levels = []
  learned : w.learned = []
  resolved : w.activity.pending = []
  minimised : w.minimised = []

/-- A workspace at rest is clean. -/
theorem Workspace.Rests.clean {w : Workspace} (h : w.Rests) : w.Clean := by
  obtain ⟨hseen, hlevels, hlearned, hpending, hrecords, hmarks⟩ := isClear_iff.1 h.clear
  refine ⟨h.clear, fun v => ?_, hrecords, hseen, hlevels, hlearned, hpending, h.minimised_eq⟩
  rw [hmarks]
  exact ⟨rfl, rfl, rfl⟩

namespace Solver

variable {s next start : Solver} {ops : List Operation}

/-- A coherent solver is guided. -/
theorem Coherent.guided (h : s.Coherent) : s.Guided := ⟨h.trail, h.serves⟩

/-- Before the clause is shrunk, the resolution has tracked what it met, the clauses that waited are
stamped, and the negation of the first unique implication point is the last literal. -/
theorem Coherent.recorded {c : ClauseId} {asserting : Literal} {derived stamped recorded : Solver}
    (h : s.Coherent) (hderive : (s.deriveClause c).result = .ok (derived, asserting))
    (hstamp : derived.stampResolved = .ok stamped)
    (hrecord : stamped.recordGlue.result = .ok recorded) :
    ∃ w uip activity store, (s.workspace.firstUip s.view c).result = .ok (w, uip) ∧
      asserting = uip.negate ∧ Workspace.Tracks s.trail w ∧ activity.pending = [] ∧
      w.activity.flush s.clauses = .ok (activity, store) ∧ recorded = { s with
        clauses := store
        workspace := { w with activity := activity, learned := w.learned ++ [uip.negate] }
        counters := s.counters.addGlue w.levels.length } := by
  obtain ⟨w, uip, hfirst, hasserting, rfl⟩ := next_of_deriveClause hderive
  have hw : Workspace.Tracks s.trail w :=
    Workspace.firstUip_tracks (v := s.view) h.trail (h.rests.tracks h.marks) c _ hfirst
  obtain ⟨activity, store, hpending, hflush, rfl⟩ := next_of_stampResolved hstamp
  exact ⟨w, uip, activity, store, hfirst, hasserting, hw, hpending, hflush,
    next_of_recordGlue hrecord⟩

/-- Minimisation takes literals out of the clause and leaves the rest of the workspace. -/
theorem workspace_of_shrinkClause {w : Workspace} {activity : Activity} {literals : List Literal}
    (hok : s.shrinkClause.result = .ok next) (ht : s.trail.WellFormed)
    (hw : Workspace.Tracks s.trail w)
    (hworkspace : s.workspace = { w with activity := activity, learned := literals }) :
    ∃ kept counters, next = { s with
      workspace := { w with activity := activity, learned := kept }, counters := counters } := by
  rcases next_of_shrinkClause hok with rfl | ⟨w', kept, removed, hminimise, rfl⟩
  · refine ⟨literals, next.counters, ?_⟩
    rw [← hworkspace]
  · have hsame := Workspace.minimise_ensures (v := s.view) ht
      (by rw [hworkspace]; exact hw.size_marks) (by rw [hworkspace]; exact hw.no_verdict)
      (by rw [hworkspace]; exact hw.minimised_eq) _ _ _ hminimise
    refine ⟨kept, s.counters.addMinimised removed, ?_⟩
    rw [hsame, hworkspace]

namespace Coherent

/-- Every analysis that learns brings the workspace to rest. -/
theorem learns {c : ClauseId} {learned : Learned} (h : s.Coherent)
    (hok : (s.learn c).result = .ok (next, learned)) : next.Coherent := by
  cases phases_of_learn hok with
  | @intro derived stamped recorded shrunk installed undone asserted bumped asserting jump clause
    hderive hstamp hrecord hshrink hinstall hundo himply hbump =>
  obtain ⟨w, uip, activity, store, -, -, hw, hpending, -, rfl⟩ :=
    h.recorded hderive hstamp hrecord
  obtain ⟨kept, counters, hshrunk⟩ := workspace_of_shrinkClause hshrink h.trail hw rfl
  obtain ⟨proof, store', hinstalled⟩ := next_of_installClause hinstall
  have hprepared : s.Steers (installed.recordJump jump) := by
    rw [hinstalled, hshrunk]
    exact .of_eq h.guided rfl rfl rfl
  have hundone := hprepared.guided.undo hundo
  have hpushes := pushes_of_imply himply
  have hasserted := hundone.guided.pushes hpushes
  have hsame : asserted.workspace = { w with activity := activity, learned := kept } := by
    obtain ⟨-, heq⟩ := undo_eq_ok hundo
    obtain ⟨iterating, counters'', heq'⟩ := hpushes.next_eq
    rw [heq', heq, hinstalled, hshrunk]
    rfl
  have hnum := ((hprepared.trans hundone).trans hasserted).numVariables_eq
  exact ((bumpSeen_yields_coherent hasserted.guided.trail hasserted.guided.serves h.trail hw hnum
    hpending hsame).of_result hbump).1

/-- An analysis that succeeds keeps the solver coherent. -/
theorem analyse {outcome : Outcome} (h : s.Coherent)
    (hok : s.analyse.result = .ok (next, outcome)) : next.Coherent := by
  have hcourse := course_of_analyse hok
  cases hcourse with
  | repeated _ => exact h
  | refuted _ _ => exact h.congr rfl h.serves rfl
  | learned _ _ hlearn =>
    have hcounted : s.countConflict.Coherent := h.congr rfl h.serves rfl
    have hmid := hcounted.learns hlearn
    exact hmid.congr rfl hmid.serves rfl

/-- No operation that succeeds leaves anything in the workspace. -/
theorem perform (h : s.Coherent) {op : Operation} (hok : s.perform op = .ok next) :
    next.Coherent := by
  cases performs_of_perform hok with
  | newVariable => exact h.newVariable
  | addClause _ hadds => exact h.adds hadds
  | decide _ hknown hfree => exact h.decide hknown hfree
  | nextDecision hnext => exact h.congr rfl (h.serves.of_next hnext).1 rfl
  | assign hpushes => exact h.pushes hpushes
  | ignored _ => exact h
  | declared _ _ => exact h.congr rfl h.serves rfl
  | analyse hanalyse => exact h.analyse hanalyse
  | backtrack hundo => exact h.undo hundo
  | @removeFromQueue v _ => exact h.congr rfl (h.serves.remove v).1 rfl
  | iterate => exact h.congr rfl h.serves rfl

end Coherent

/-- Along every run the solver stays coherent. -/
theorem Run.coherent {allows : Solver → Operation → Bool} (h : Run allows start ops s)
    (hstart : start.Coherent) : s.Coherent := by
  induction h with
  | start => exact hstart
  | step _ _ hok ih => exact ih.perform hok

/-- In every state that operations lead to from a new solver, the workspace is clean. -/
theorem Run.workspace_clean {o : Options} {audit : AuditLevel} {proof : ProofLog}
    (hnew : Solver.new o audit proof = .ok start) (hrun : Run unrestricted start ops s) :
    s.workspace.Clean := by
  obtain rfl := eq_empty_of_new hnew
  exact (hrun.coherent (grounded_empty o audit proof).toCoherent).rests.clean

/-- A clause with a true literal is declared false. From it a clause of three literals is learned,
one of which is removed again. -/
def carelessRun : List Operation :=
  [.newVariable, .newVariable, .newVariable, .addClause [⟨0, false⟩, ⟨1, true⟩],
    .addClause [⟨0, false⟩, ⟨1, true⟩, ⟨2, false⟩], .decide ⟨0, true⟩, .assign ⟨1, true⟩ (some 0),
    .decide ⟨2, true⟩, .declareConflict 1, .analyse]

/-- Although an assignment of the run is unexplained, the analysis leaves a clean workspace. -/
theorem carelessRun_workspace_clean : ∃ s,
    runBy unrestricted (Solver.empty {} .basic ⟨none⟩) carelessRun = some s ∧
      s.workspace.Clean ∧ (s.clauses.get? 2).map Clause.size = some 2 := by
  have hnew : Solver.new {} .basic ⟨none⟩ = .ok (Solver.empty {} .basic ⟨none⟩) := rfl
  have hend : ((runBy unrestricted (Solver.empty {} .basic ⟨none⟩) carelessRun).map fun s =>
      (s.clauses.get? 2).map Clause.size) = some (some 2) := by decide +kernel
  obtain ⟨s, hrun, hend⟩ := Option.map_eq_some_iff.1 hend
  exact ⟨s, hrun, Run.workspace_clean hnew (Run.start.of_runBy hrun), hend⟩

end Solver

end ClauseLearning
