import ClauseLearning.Proofs.Search.Termination
import ClauseLearning.Proofs.Solver.Run

/-!
# Disciplined runs

A disciplined caller settles or solves before it decides or undoes levels, adds clauses at the root
level, and leaves assignments and conflicts to the search. In a run of such moves no fault is
reached: every read of a variable, a clause, a stamp or a score finds what it looks for, no
assertion and no audit fails, and no loop uses up its rounds. A search ends in fewer rounds than the
number of variables allows.
-/

set_option autoImplicit false

namespace ClauseLearning

/-- What a disciplined caller asks of a solver. -/
inductive Move where
  | operate (op : Operation)
  | settle
  | solve
  deriving DecidableEq, Repr

/-- Whether the variables that an operation names exist, if there are so many. -/
def Operation.isOver (n : Nat) : Operation → Bool
  | .addClause ls => ls.all fun l => l.var < n
  | .decide l => l.var < n
  | .removeFromQueue v => v < n
  | _ => true

/-- Whether the variables that a move names exist, if there are so many. -/
def Move.isOver (n : Nat) : Move → Bool
  | .operate op => op.isOver n
  | _ => true

/-- Whether the solver counts as settled after a move: settling and solving settle it, decisions and
clauses unsettle it. -/
def Move.settles (settled : Bool) : Move → Bool
  | .settle => true
  | .solve => true
  | .operate (.addClause _) => false
  | .operate (.decide _) => false
  | .operate _ => settled

namespace Solver

/-- Make a move; answers are left out. -/
def make (s : Solver) : Move → Except Fault Solver
  | .operate op => s.perform op
  | .settle => s.settle.result.map Prod.fst
  | .solve => s.solve.result.map Prod.fst

/-- Whether a move is disciplined: clauses are added at the root level, and free literals are
decided and levels undone when the solver is settled. -/
def allows (s : Solver) (settled : Bool) : Move → Bool
  | .settle => true
  | .solve => true
  | .operate .newVariable => true
  | .operate .nextDecision => true
  | .operate (.removeFromQueue _) => true
  | .operate (.addClause _) => s.currentLevel == 0
  | .operate (.decide l) => settled && !s.isUnsatisfiable && !s.trail.isAssigned l.var
  | .operate (.backtrack level) => settled && level ≤ s.currentLevel
  | .operate _ => false

/-- The states that disciplined moves lead to, each with whether it counts as settled. -/
inductive DisciplinedRun (start : Solver) : Bool → Solver → Prop where
  | start : DisciplinedRun start true start
  | step {settled : Bool} {s next : Solver} {m : Move} : DisciplinedRun start settled s →
      s.allows settled m = true → s.make m = .ok next →
      DisciplinedRun start (m.settles settled) next

/-- Make moves as long as they are disciplined. -/
def runDisciplined (settled : Bool) (s : Solver) : List Move → Option (Bool × Solver)
  | [] => some (settled, s)
  | m :: ms =>
    match s.allows settled m, s.make m with
    | true, .ok next => runDisciplined (m.settles settled) next ms
    | _, _ => none

/-- Moves made one after the other extend a disciplined run. -/
theorem DisciplinedRun.of_runDisciplined {start s s' : Solver} {settled settled' : Bool}
    {ms : List Move} (h : DisciplinedRun start settled s)
    (hrun : runDisciplined settled s ms = some (settled', s')) :
    DisciplinedRun start settled' s' := by
  induction ms generalizing settled s with
  | nil =>
    obtain ⟨rfl, rfl⟩ := Prod.mk.inj (Option.some.inj hrun)
    exact h
  | cons m ms ih =>
    unfold runDisciplined at hrun
    split at hrun
    next next hallows hmake => exact ih (h.step hallows hmake) hrun
    next => cases hrun

variable {s next : Solver} {settled : Bool}

/-- A computation that yields gives a state, whatever its answer is. -/
theorem map_fst_of_yields {α β : Type} {m : Traced (α × β)} {P : α × β → Prop} (h : m.Yields P) :
    ∃ a, m.result.map Prod.fst = .ok a := by
  obtain ⟨⟨a, b⟩, hok, -⟩ := h
  exact ⟨a, map_fst_eq_ok_iff.2 ⟨b, hok⟩⟩

/-- The levels above a level that was reached can be undone. -/
theorem backtrack_yields (h : s.Coherent) {level : Nat} (hle : level ≤ s.currentLevel) :
    (s.backtrack level).Yields fun next => s.undo level = .ok next := by
  have hundo := undo_eq h.trail h.serves hle
  unfold backtrack
  refine .bind (P := fun next => s.undo level = .ok next) (.lift hundo hundo) fun next hnext => ?_
  exact .bind (h.undo hnext).auditCursor_yields fun _ _ => .pure hnext

namespace Disciplined

/-- A new solver has no clauses, so it is quiet. -/
theorem quiet_empty (o : Options) (audit : AuditLevel) (proof : ProofLog) :
    (Solver.empty o audit proof).Quiet := by
  intro _ c clause hc
  rw [get?_clauses_empty] at hc
  cases hc

/-- The search for a decision is idling. -/
theorem idles_of_nextDecision (h : s.Disciplined) {decision : Option Literal}
    (hok : s.nextDecision = .ok (next, decision)) : s.Idles next := by
  obtain ⟨_, _, hok', hidles, -⟩ := exists_nextDecision h.toGrounded
  obtain ⟨rfl, -⟩ := Prod.mk.inj (Except.ok.inj (hok.symm.trans hok'))
  exact hidles

/-- A disciplined move keeps a solver disciplined, and quiet if it is to be settled. -/
theorem make (h : s.Disciplined) (hquiet : settled = true → s.Quiet) {m : Move}
    (hallows : s.allows settled m = true) (hok : s.make m = .ok next) :
    next.Disciplined ∧ (m.settles settled = true → next.Quiet) := by
  cases m with
  | settle =>
    obtain ⟨outcomes, hok⟩ := map_fst_eq_ok_iff.1 hok
    have hcalms := h.settle_yields.of_result hok
    exact ⟨hcalms.disciplined, fun _ => hcalms.quiet⟩
  | solve =>
    obtain ⟨result, hok⟩ := map_fst_eq_ok_iff.1 hok
    have hanswers := h.solve_yields.of_result hok
    exact ⟨hanswers.disciplined, fun _ => hanswers.quiet⟩
  | operate op =>
    cases performs_of_perform hok with
    | newVariable =>
      refine ⟨h.newVariable, fun hsettled hready c clause hc => ?_⟩
      exact (hquiet hsettled hready c clause hc).grow
    | addClause hroot hadds => exact ⟨(h.adds hroot hadds).1, fun hno => (nomatch hno)⟩
    | decide hready hknown hfree =>
      unfold allows at hallows
      rw [Bool.and_eq_true, Bool.and_eq_true] at hallows
      exact ⟨h.decide (hquiet hallows.1.1) hready hknown hfree, fun hno => (nomatch hno)⟩
    | nextDecision hnext =>
      have hidles := Idles.of_serves (h.serves.of_next hnext).1
      exact ⟨h.idles hidles, fun hsettled => hidles.quiet (hquiet hsettled)⟩
    | backtrack hundo =>
      unfold allows at hallows
      rw [Bool.and_eq_true] at hallows
      obtain ⟨hnext, hcalm⟩ := h.undo (hquiet hallows.1) hundo
      exact ⟨hnext, fun _ => hcalm⟩
    | @removeFromQueue v _ =>
      have hidles := Idles.of_serves (h.serves.remove v).1
      exact ⟨h.idles hidles, fun hsettled => hidles.quiet (hquiet hsettled)⟩
    | assign _ => cases hallows
    | ignored _ => cases hallows
    | declared _ _ => cases hallows
    | analyse _ => cases hallows
    | iterate => cases hallows

/-- A disciplined move over existing variables succeeds. -/
theorem exists_make (h : s.Disciplined) {m : Move} (hallows : s.allows settled m = true)
    (hover : m.isOver s.numVariables = true) : ∃ next, s.make m = .ok next := by
  cases m with
  | settle => exact map_fst_of_yields h.settle_yields
  | solve => exact map_fst_of_yields h.solve_yields
  | operate op =>
    cases op with
    | newVariable => exact ⟨_, createVariable_eq h.serves⟩
    | addClause ls =>
      have hroot : s.currentLevel = 0 := beq_iff_eq.1 hallows
      have hknown : ∀ l ∈ ls, l.var < s.numVariables := by
        simpa [Move.isOver, Operation.isOver] using hover
      exact map_fst_of_yields (addClause_yields hroot fun _ => exists_anyTrue hknown)
    | decide l =>
      unfold allows at hallows
      rw [Bool.and_eq_true, Bool.and_eq_true, Bool.not_eq_true', Bool.not_eq_true'] at hallows
      have hready := h.ready (beq_eq_false_iff_ne.1 hallows.1.2)
      have hknown : l.var < s.numVariables := by
        simpa [Move.isOver, Operation.isOver] using hover
      exact ⟨_, decide_eq_ok_iff.2 ⟨hready, hknown, hallows.2, rfl⟩⟩
    | nextDecision =>
      obtain ⟨next, decision, hok, -⟩ := exists_nextDecision h.toGrounded
      exact ⟨next, map_fst_eq_ok_iff.2 ⟨decision, hok⟩⟩
    | backtrack level =>
      unfold allows at hallows
      rw [Bool.and_eq_true, decide_eq_true_eq] at hallows
      obtain ⟨next, hok, -⟩ := backtrack_yields h.toCoherent hallows.2
      exact ⟨next, hok⟩
    | removeFromQueue v =>
      have hknown : v < s.numVariables := by
        simpa [Move.isOver, Operation.isOver] using hover
      have hplace : v < s.heuristic.queue.links.size := h.serves.places.symm ▸ hknown
      exact ⟨_, Fault.bind_eq_ok_iff.2 ⟨_, h.serves.ordered.removeKnown_eq hplace, rfl⟩⟩
    | assign l reason => cases hallows
    | declareConflict c => cases hallows
    | analyse => cases hallows
    | iterate => cases hallows

end Disciplined

/-- Along a disciplined run the solver stays disciplined, and it is quiet when it counts as
settled. -/
theorem DisciplinedRun.disciplined {start : Solver} (h : DisciplinedRun start settled s)
    (hstart : start.Disciplined) (hquiet : start.Quiet) :
    s.Disciplined ∧ (settled = true → s.Quiet) := by
  induction h with
  | start => exact ⟨hstart, fun _ => hquiet⟩
  | step _ hallows hmake ih => exact ih.1.make ih.2 hallows hmake

/-- After a disciplined run from a new solver the solver is disciplined. -/
theorem DisciplinedRun.disciplined_of_new {o : Options} {audit : AuditLevel} {proof : ProofLog}
    {start : Solver} (hnew : Solver.new o audit proof = .ok start)
    (hrun : DisciplinedRun start settled s) : s.Disciplined := by
  obtain rfl := eq_empty_of_new hnew
  exact (hrun.disciplined (.empty o audit proof) (Disciplined.quiet_empty o audit proof)).1

/-- After a disciplined run from a new solver every disciplined move over existing variables
succeeds. Every read, assertion, audit and bound on rounds on its way is a check that ends the move
with a fault if it fails, so none of them fails. -/
theorem DisciplinedRun.move_succeeds {o : Options} {audit : AuditLevel} {proof : ProofLog}
    {start : Solver} (hnew : Solver.new o audit proof = .ok start)
    (hrun : DisciplinedRun start settled s) {m : Move} (hallows : s.allows settled m = true)
    (hover : m.isOver s.numVariables = true) : ∃ next, s.make m = .ok next :=
  (hrun.disciplined_of_new hnew).exists_make hallows hover

/-- Two clauses over three variables, and a decision from which they imply the other two. -/
def decidingMoves : List Move :=
  [.operate .newVariable, .operate .newVariable, .operate .newVariable,
    .operate (.addClause [⟨0, true⟩, ⟨1, true⟩]), .operate (.addClause [⟨1, false⟩, ⟨2, true⟩]),
    .settle, .operate (.decide ⟨0, false⟩), .settle]

/-- After the moves the root level can be returned to. -/
theorem decidingMoves_backtrack : ∃ settled s,
    runDisciplined true (Solver.empty {} .full ⟨some {}⟩) decidingMoves = some (settled, s) ∧
      ∃ next, s.make (.operate (.backtrack 0)) = .ok next := by
  have hnew : Solver.new {} .full ⟨some {}⟩ = .ok (Solver.empty {} .full ⟨some {}⟩) := rfl
  have hallows : ((runDisciplined true (Solver.empty {} .full ⟨some {}⟩) decidingMoves).map
      fun p => p.2.allows p.1 (.operate (.backtrack 0))) = some true := by decide +kernel
  obtain ⟨⟨settled, s⟩, hrun, hallows⟩ := Option.map_eq_some_iff.1 hallows
  exact ⟨settled, s, hrun,
    DisciplinedRun.move_succeeds hnew (DisciplinedRun.start.of_runDisciplined hrun) hallows rfl⟩

/-- After a disciplined run from a new solver the search for a model ends, in fewer decisions and
analyses than two to the number of variables and one, and the answer is the one of the bounded
search. -/
theorem DisciplinedRun.search_terminates {o : Options} {audit : AuditLevel} {proof : ProofLog}
    {start : Solver} (hnew : Solver.new o audit proof = .ok start)
    (hrun : DisciplinedRun start settled s) :
    ∃ rounds next result, rounds < 2 ^ (s.numVariables + 1) ∧
      s.SearchEnds rounds next result ∧ s.solve.result = .ok (next, result) := by
  obtain ⟨rounds, next, result, hrounds, hends, hok, -⟩ :=
    (hrun.disciplined_of_new hnew).exists_solve
  exact ⟨rounds, next, result, hrounds, hends, hok⟩

/-- After the moves a search ends. -/
theorem decidingMoves_search : ∃ settled s,
    runDisciplined true (Solver.empty {} .full ⟨some {}⟩) decidingMoves = some (settled, s) ∧
      ∃ rounds next result, rounds < 2 ^ (s.numVariables + 1) ∧
        s.SearchEnds rounds next result ∧ s.solve.result = .ok (next, result) := by
  have hnew : Solver.new {} .full ⟨some {}⟩ = .ok (Solver.empty {} .full ⟨some {}⟩) := rfl
  obtain ⟨⟨settled, s⟩, hrun⟩ := Option.isSome_iff_exists.1 (by decide +kernel :
    (runDisciplined true (Solver.empty {} .full ⟨some {}⟩) decidingMoves).isSome = true)
  exact ⟨settled, s, hrun,
    DisciplinedRun.search_terminates hnew (DisciplinedRun.start.of_runDisciplined hrun)⟩

end Solver

end ClauseLearning
