import ClauseLearning.Proofs.Solver.Ledger
import ClauseLearning.Proofs.Solver.PendingConflict
import ClauseLearning.Proofs.Solver.Recording
import ClauseLearning.Solver.Search

/-!
# Finding out that there is no model

There are two ways to find out that the formula has no model: the analysis of a conflict at the root
level, and a clause of which no literal is left. Either changes the status, logs the empty clause,
and does nothing else; whether the proof takes the empty clause does not matter.

From then on the solver is closed. No operation changes the status again: decisions need a solver
that is ready, conflicts are not accepted, analyses and further clauses end before they do anything.
Since no level can be opened, the solver stays at the root level, where a clause is refused instead
of being a fault. So there is at most one empty clause among the lines handed to the proof.
-/

set_option autoImplicit false

namespace ClauseLearning

namespace Solver

variable {s next : Solver}

/-- The solver that found out that there is no model. -/
def refuted (s : Solver) : Solver :=
  { s with proof := (s.proof.logClause []).1, status := .unsatisfiable }

/-- The operations that find out that there is no model, with the solver that they leave. -/
inductive Discovers (s : Solver) : Operation → Solver → Prop where
  | analyse : s.currentLevel = 0 →
      s.analyse.result = .ok (s.countConflict.refuted, .unsatisfiable) →
      Discovers s .analyse s.countConflict.refuted
  | addClause {ls : List Literal} : s.currentLevel = 0 →
      (s.addClause ls).result = .ok (s.refuted, .error .infeasibleClause) →
      Discovers s (.addClause ls) s.refuted

/-- A solver to which nothing more can happen: it answers that there is no model, and stays as it
is. -/
structure Closed (s : Solver) : Prop where
  analyse_eq : s.analyse = pure (s, .unsatisfiable)
  addClause_eq : ∀ ls, s.addClause ls = pure (s, .error .infeasibleState)
  declareConflict_eq : ∀ c, s.declareConflict c = pure s
  settle_eq : s.settle = pure (s, [])
  solve_eq : s.solve = pure (s, { satisfiable := false, outcomes := [] })
  lasts : ∀ ops next, Run unrestricted s ops next → next.status = .unsatisfiable

/-! ## Into the status -/

/-- The status changes to *no model* exactly if a clause is added of which nothing is left, and this
is what is answered then. -/
theorem answer_of_addClause {ls : List Literal} {answer : Except ClauseError (Option ClauseId)}
    (hgo : s.status ≠ .unsatisfiable) (hok : (s.addClause ls).result = .ok (next, answer)) :
    (next = s.refuted ∧ answer = .error .infeasibleClause) ∨
      (next.status = s.status ∧ ∃ c, answer = .ok c) := by
  obtain ⟨_, -, hok⟩ := Traced.result_bind_eq_ok_iff.1 hok
  rw [if_neg (show ¬ s.isUnsatisfiable = true from fun h => hgo (beq_iff_eq.1 h))] at hok
  obtain ⟨satisfied, -, hok⟩ := Traced.result_bind_eq_ok_iff.1 hok
  split at hok
  next =>
    obtain ⟨rfl, rfl⟩ := Prod.mk.inj (Except.ok.inj hok)
    exact Or.inr ⟨rfl, none, rfl⟩
  next =>
    generalize (Literal.sortDistinct ls).filter (fun l => !s.trail.isFalse l) = rest at hok
    match rest with
    | [] =>
      obtain ⟨refuted, hlearn, hok⟩ := Traced.result_bind_eq_ok_iff.1 hok
      obtain ⟨-, rfl⟩ := learnEmpty_eq_ok_iff.1 hlearn
      obtain ⟨rfl, rfl⟩ := Prod.mk.inj (Except.ok.inj hok)
      exact Or.inl ⟨rfl, rfl⟩
    | [l] =>
      obtain ⟨fixed, hassign, hok⟩ := Traced.result_bind_eq_ok_iff.1 hok
      obtain ⟨rfl, rfl⟩ := Prod.mk.inj (Except.ok.inj hok)
      obtain ⟨iterating, counters, rfl⟩ := (pushes_of_assign hassign).next_eq
      exact Or.inr ⟨rfl, none, rfl⟩
    | k :: l :: rest =>
      obtain ⟨rfl, rfl⟩ := Prod.mk.inj (Except.ok.inj hok)
      exact Or.inr ⟨rfl, _, rfl⟩

/-- A clause that refutes the formula discovers that there is no model. -/
theorem discovers_of_addClause {ls : List Literal} (hgo : s.status ≠ .unsatisfiable)
    (hok : s.perform (.addClause ls) = .ok next) (hunsat : next.status = .unsatisfiable) :
    s.Discovers (.addClause ls) next := by
  obtain ⟨answer, hok⟩ := map_fst_eq_ok_iff.1 hok
  rcases answer_of_addClause hgo hok with ⟨rfl, rfl⟩ | ⟨hsame, -⟩
  · exact .addClause (adds_of_addClause hok).1 hok
  · exact absurd (hsame.symm.trans hunsat) hgo

/-- An analysis that refutes the formula discovers that there is no model. -/
theorem discovers_of_analyse (hgo : s.status ≠ .unsatisfiable)
    (hok : s.perform .analyse = .ok next) (hunsat : next.status = .unsatisfiable) :
    s.Discovers .analyse next := by
  obtain ⟨outcome, hok⟩ := map_fst_eq_ok_iff.1 hok
  have hcourse := course_of_analyse hok
  cases hcourse with
  | repeated hrepeated => exact absurd hrepeated hgo
  | refuted _ hroot => exact .analyse hroot hok
  | learned _ _ _ => cases hunsat

/-- There is no other way to find out that there is no model. -/
theorem discovers_iff {op : Operation} (hgo : s.status ≠ .unsatisfiable)
    (hok : s.perform op = .ok next) : next.status = .unsatisfiable ↔ s.Discovers op next := by
  constructor
  · intro hunsat
    cases performs_of_perform hok with
    | addClause _ _ => exact discovers_of_addClause hgo hok hunsat
    | analyse _ => exact discovers_of_analyse hgo hok hunsat
    | assign hpushes =>
      obtain ⟨iterating, counters, rfl⟩ := hpushes.next_eq
      exact absurd hunsat hgo
    | backtrack hundo => exact absurd ((status_of_undo hundo).symm.trans hunsat) hgo
    | declared _ _ => cases hunsat
    | newVariable => exact absurd hunsat hgo
    | decide _ _ _ => exact absurd hunsat hgo
    | nextDecision _ => exact absurd hunsat hgo
    | ignored _ => exact absurd hunsat hgo
    | removeFromQueue _ => exact absurd hunsat hgo
    | iterate => exact absurd hunsat hgo
  · intro hdiscovers
    cases hdiscovers with
    | analyse _ _ => rfl
    | addClause _ _ => rfl

/-! ## And not out of it -/

/-- Where there is no model no level is opened, and no operation ends this. -/
structure Exhausted (s : Solver) : Prop where
  unsatisfiable : s.status = .unsatisfiable
  root : s.currentLevel = 0

namespace Exhausted

/-- After the discovery nothing is left to do. -/
theorem of_discovers {op : Operation} (h : s.Discovers op next) : next.Exhausted := by
  cases h with
  | analyse hroot _ => exact ⟨rfl, hroot⟩
  | addClause hroot _ => exact ⟨rfl, hroot⟩

variable (h : s.Exhausted)

include h

/-- An exhausted solver knows that there is no model. -/
theorem isUnsatisfiable : s.isUnsatisfiable = true := beq_iff_eq.2 h.unsatisfiable

/-- No operation brings an exhausted solver back. -/
theorem perform {op : Operation} (hok : s.perform op = .ok next) : next.Exhausted := by
  cases performs_of_perform hok with
  | addClause _ _ =>
    obtain rfl := eq_of_addClause h.isUnsatisfiable hok
    exact h
  | analyse hanalyse =>
    have hcourse := course_of_analyse hanalyse
    cases hcourse with
    | repeated _ => exact h
    | refuted hconflict _ => cases h.unsatisfiable.symm.trans hconflict
    | learned hconflict _ _ => cases h.unsatisfiable.symm.trans hconflict
  | assign hpushes =>
    obtain ⟨iterating, counters, rfl⟩ := hpushes.next_eq
    exact ⟨h.unsatisfiable, (Trail.currentLevel_push s.trail _ _).trans h.root⟩
  | @backtrack level _ hundo =>
    refine ⟨(status_of_undo hundo).trans h.unsatisfiable, ?_⟩
    obtain ⟨-, rfl⟩ := undo_eq_ok hundo
    have hroot : s.trail.currentLevel = 0 := h.root
    show (s.trail.cut level).currentLevel = 0
    rw [Trail.currentLevel_cut, hroot, Nat.min_zero]
  | decide hready _ _ => cases h.unsatisfiable.symm.trans hready
  | declared hno _ => exact absurd h.unsatisfiable hno
  | newVariable => exact ⟨h.unsatisfiable, h.root⟩
  | nextDecision _ => exact ⟨h.unsatisfiable, h.root⟩
  | ignored _ => exact h
  | removeFromQueue _ => exact ⟨h.unsatisfiable, h.root⟩
  | iterate => exact ⟨h.unsatisfiable, h.root⟩

/-- An exhausted solver is closed. -/
theorem closed : s.Closed where
  analyse_eq := by
    unfold analyse
    rw [h.unsatisfiable]
  addClause_eq := by
    intro ls
    unfold addClause
    rw [h.root, if_pos h.isUnsatisfiable]
    rfl
  declareConflict_eq := by
    intro c
    unfold declareConflict
    rw [if_pos h.isUnsatisfiable]
  settle_eq := by
    unfold settle settleFor
    rw [if_pos h.isUnsatisfiable]
  solve_eq := by
    unfold solve solveFor
    rw [if_pos h.isUnsatisfiable]
  lasts := by
    intro ops next hrun
    have hexhausted : next.Exhausted := by
      induction hrun with
      | start => exact h
      | step _ _ hok ih => exact ih.perform hok
    exact hexhausted.unsatisfiable

end Exhausted

/-! ## Along a run -/

variable {start : Solver} {ops : List Operation}

/-- Along a run a solver that knows that there is no model is exhausted. -/
theorem Run.exhausted {allows : Solver → Operation → Bool} (h : Run allows start ops s)
    (hstart : start.status = .ready) (hunsat : s.status = .unsatisfiable) : s.Exhausted := by
  induction h with
  | start => cases hstart.symm.trans hunsat
  | @step ops s next op _ _ hok ih =>
    by_cases hbefore : s.status = .unsatisfiable
    · exact (ih hbefore).perform hok
    · exact .of_discovers ((discovers_iff hbefore hok).1 hunsat)

/-- With a reliable writer in place of the proof's own, the operations lead to the same solver. Its
text shows the lines that were handed to the proof, with one empty clause among them if it was found
out that there is no model, and otherwise none. -/
theorem Run.hands_empty_once {o : Options} {audit : AuditLevel} {proof : ProofLog} {w : Writer}
    (hroom : w.room = none) (h : Run unrestricted (Solver.empty o audit proof) ops s) :
    ∃ s', Run unrestricted (Solver.empty o audit ⟨some w⟩) ops s' ∧ s' = s.withProof s'.proof ∧
      ∃ lines : Formula, s.proof = proof.logAll lines ∧
        s'.proof.text = some (String.ofList (w.written ++ lines.flatMap ProofLog.line)) ∧
        lines.count [] = if s.status = .unsatisfiable then 1 else 0 := by
  obtain ⟨s', hrun, lines, hlines, rfl⟩ := h.echoed ⟨some w⟩
  have hcoherent := (grounded_empty o audit ⟨some w⟩).toCoherent
  obtain ⟨lines', units, haccounted⟩ := hrun.accounted hcoherent
  have htext := ProofLog.text_logAll hroom lines
  have hproof : (⟨some w⟩ : ProofLog).logAll lines = (⟨some w⟩ : ProofLog).logAll lines' :=
    haccounted.enters.proof_eq
  have hsame : lines = lines' := ProofLog.lines_of_text hroom (hproof ▸ htext)
  have hcount : s.isUnsatisfiable.toNat = lines.count [] := by
    rw [hsame]
    exact haccounted.enters.refuted_eq.trans (Nat.zero_add _)
  refine ⟨_, hrun, rfl, lines, hlines, htext, ?_⟩
  rw [← hcount, Solver.isUnsatisfiable, toNat_eq_ite]
  simp only [beq_iff_eq]

/-- It is found out at most once that there is no model, by an analysis at the root or a clause of
which nothing is left; then the solver is closed, and the proof gets no second empty clause. -/
theorem Run.refuted_once {o : Options} {audit : AuditLevel} {proof : ProofLog}
    (hnew : Solver.new o audit proof = .ok start) (hrun : Run unrestricted start ops s) :
    (s.status ≠ .unsatisfiable → ∀ op next, s.perform op = .ok next →
      (next.status = .unsatisfiable ↔ s.Discovers op next)) ∧
    (s.status = .unsatisfiable → s.Closed) ∧
    ∀ w : Writer, w.room = none →
      ∃ s', Run unrestricted (start.withProof ⟨some w⟩) ops s' ∧ s' = s.withProof s'.proof ∧
        ∃ lines : Formula, s.proof = proof.logAll lines ∧
          s'.proof.text = some (String.ofList (w.written ++ lines.flatMap ProofLog.line)) ∧
          lines.count [] = if s.status = .unsatisfiable then 1 else 0 := by
  obtain rfl := eq_empty_of_new hnew
  refine ⟨fun hgo _ _ hok => discovers_iff hgo hok, fun hunsat => ?_, fun w hroom => ?_⟩
  · exact (hrun.exhausted rfl hunsat).closed
  · exact hrun.hands_empty_once hroom

/-- The proof has room for the first unit only, and the solver goes on after the second one. -/
def closedRun : List Operation :=
  [.newVariable, .newVariable, .addClause [⟨0, true⟩], .addClause [⟨0, false⟩],
    .assign ⟨1, true⟩ none, .declareConflict 0, .analyse, .addClause [], .backtrack 0]

/-- The run refutes the formula, and the empty clause is cut off in the proof. -/
theorem closedRun_refuted_once : ∃ s,
    runBy unrestricted (Solver.empty {} .full ⟨some { room := some 5 }⟩) closedRun = some s ∧
      s.Closed ∧ s.proof.text = some "1 0\n0" ∧
      ∃ s', Run unrestricted (Solver.empty {} .full ⟨some {}⟩) closedRun s' ∧
        s' = s.withProof s'.proof ∧ ∃ lines : Formula,
          s'.proof.text = some (String.ofList (lines.flatMap ProofLog.line)) ∧
          lines.count [] = 1 := by
  have hnew : Solver.new {} .full ⟨some { room := some 5 }⟩ =
      .ok (Solver.empty {} .full ⟨some { room := some 5 }⟩) := rfl
  have hend : ((runBy unrestricted (Solver.empty {} .full ⟨some { room := some 5 }⟩) closedRun).map
      fun s => (s.status, s.proof.text)) = some (.unsatisfiable, some "1 0\n0") := by
    decide +kernel
  obtain ⟨s, hrun, hend⟩ := Option.map_eq_some_iff.1 hend
  obtain ⟨hunsat, htext⟩ := Prod.mk.inj hend
  obtain ⟨-, hclosed, hproof⟩ := Run.refuted_once hnew (Run.start.of_runBy hrun)
  obtain ⟨s', hrun', heq, lines, -, htext', hcount⟩ := hproof {} rfl
  rw [if_pos hunsat] at hcount
  exact ⟨s, hrun, hclosed hunsat, htext, s', hrun', heq, lines, htext', hcount⟩

end Solver

end ClauseLearning
