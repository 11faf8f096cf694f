import ClauseLearning.Proofs.Solver.Derivation
import ClauseLearning.Solver.Report

/-!
# Runs of the solver

A caller drives the solver by operations, in any order. A run is *legal* if no operation faults,
every assignment above the root names a reason, every reason named implies its literal, and only
false clauses are analysed. The formula of a run consists of the clauses that were added, and of a
unit clause for every literal that the caller fixed at the root without a reason.

The proof logged along a legal run is a derivation from its formula: every line follows by reverse
unit propagation, and the empty clause is among the lines as soon as the solver knows that there is
no model.
-/

set_option autoImplicit false

namespace ClauseLearning

/-- What a caller can ask of a solver. -/
inductive Operation where
  | newVariable
  | addClause (ls : List Literal)
  | decide (l : Literal)
  | nextDecision
  | assign (l : Literal) (reason : Option ClauseId)
  | declareConflict (c : ClauseId)
  | analyse
  | backtrack (level : Nat)
  | removeFromQueue (v : Variable)
  | iterate
  deriving DecidableEq, Repr

namespace Solver

/-- Perform an operation; answers are left out. -/
def perform (s : Solver) : Operation → Except Fault Solver
  | .newVariable => s.createVariable
  | .addClause ls => (s.addClause ls).result.map Prod.fst
  | .decide l => (s.decide l).result
  | .nextDecision => s.nextDecision.map Prod.fst
  | .assign l reason => (s.assign l reason).result
  | .declareConflict c => (s.declareConflict c).result
  | .analyse => s.analyse.result.map Prod.fst
  | .backtrack level => (s.backtrack level).result
  | .removeFromQueue v => s.removeFromQueue v
  | .iterate => s.iterate.result

/-- Whether a computation of a truth value ends with true. -/
def accepts (r : Except Fault Bool) : Bool :=
  match r with
  | .ok b => b
  | .error _ => false

/-- Whether an operation keeps the rules: assignments above the root name a reason, reasons imply
their literals, and an analysed conflict is false. -/
def permits (s : Solver) : Operation → Bool
  | .assign _ none => s.currentLevel == 0
  | .assign l (some c) => accepts (s.trail.holdsReason s.clauses l c).result
  | .analyse =>
    match s.status with
    | .conflict c => accepts (s.trail.holdsConflict s.clauses c).result
    | _ => true
  | _ => true

/-- The clauses by which an operation extends the formula. -/
def axiomsOf : Operation → Formula
  | .addClause ls => [ls]
  | .assign l none => [[l]]
  | _ => []

/-- The states that legal operations lead to, each with the formula given so far. -/
inductive LegalRun (start : Solver) : Formula → Solver → Prop where
  | start : LegalRun start [] start
  | step {F : Formula} {s next : Solver} {op : Operation} : LegalRun start F s →
      s.permits op = true → s.perform op = .ok next → LegalRun start (F ++ axiomsOf op) next

/-- Perform operations as long as they are legal. -/
def runLegal (F : Formula) (s : Solver) : List Operation → Option (Formula × Solver)
  | [] => some (F, s)
  | op :: ops =>
    match s.permits op, s.perform op with
    | true, .ok next => runLegal (F ++ axiomsOf op) next ops
    | _, _ => none

/-- Legal operations performed one after the other extend a legal run. -/
theorem LegalRun.of_runLegal {start s s' : Solver} {F F' : Formula} {ops : List Operation}
    (h : LegalRun start F s) (hrun : runLegal F s ops = some (F', s')) : LegalRun start F' s' := by
  induction ops generalizing F s with
  | nil =>
    obtain ⟨rfl, rfl⟩ := Prod.mk.inj (Option.some.inj hrun)
    exact h
  | cons op ops ih =>
    unfold runLegal at hrun
    split at hrun
    next next hpermits hperform => exact ih (h.step hpermits hperform) hrun
    next => cases hrun

/-- A truth value is accepted if it is computed to be true. -/
theorem accepts_iff {r : Except Fault Bool} : accepts r = true ↔ r = .ok true := by
  cases r <;> simp [accepts]

/-- Without its answer an operation succeeds as with it. -/
theorem map_fst_eq_ok_iff {α β : Type} {r : Except Fault (α × β)} {a : α} :
    r.map Prod.fst = .ok a ↔ ∃ b, r = .ok (a, b) := by
  cases r with
  | error e => simp [Except.map]
  | ok p =>
    obtain ⟨a', b'⟩ := p
    simp [Except.map]

/-- A result is a value exactly if it is one after its fault is forgotten. -/
theorem toOption_eq_some_iff {α : Type} {r : Except Fault α} {a : α} :
    r.toOption = some a ↔ r = .ok a := by
  cases r with
  | error e => simp [Except.toOption]
  | ok b => simp [Except.toOption]

/-! ## The operations that do not touch trail and clauses -/

variable {s next : Solver}

/-- The search for a decision changes the queue only. -/
theorem next_of_nextDecision {l : Option Literal} (hok : s.nextDecision = .ok (next, l)) :
    ∃ queue found, s.heuristic.queue.next s.trail = .ok (queue, found) ∧
      next = { s with heuristic := { s.heuristic with queue := queue } } ∧
      l = found.map fun v => ⟨v, true⟩ := by
  unfold nextDecision at hok
  rw [Fault.bind_eq_ok_iff] at hok
  obtain ⟨⟨queue, found⟩, hnext, hok⟩ := hok
  obtain ⟨rfl, rfl⟩ := Prod.mk.inj (Except.ok.inj hok)
  exact ⟨queue, found, hnext, rfl, rfl⟩

/-- What is taken out has a place, and only the queue changes. -/
theorem next_of_removeFromQueue {v : Variable} (hok : s.removeFromQueue v = .ok next) :
    v < s.heuristic.queue.links.size ∧
      next = { s with heuristic := { s.heuristic with queue := s.heuristic.queue.remove v } } := by
  obtain ⟨queue, hremove, hok⟩ := Fault.bind_eq_ok_iff.1 hok
  obtain ⟨hplace, rfl⟩ := DecisionQueue.removeKnown_eq_ok hremove
  exact ⟨hplace, (Except.ok.inj hok).symm⟩

/-- A conflict that is declared becomes pending, unless there is no model anyway. -/
theorem next_of_declareConflict {c : ClauseId} (hok : (s.declareConflict c).result = .ok next) :
    (s.status = .unsatisfiable ∧ next = s) ∨
      (s.status ≠ .unsatisfiable ∧ (s.audit = .full → s.Falsified c) ∧
        next = { s with status := .conflict c }) := by
  unfold declareConflict at hok
  split at hok
  next hunsat => exact Or.inl ⟨beq_iff_eq.1 hunsat, (Except.ok.inj hok).symm⟩
  next hready =>
    obtain ⟨_, hcheck, hok⟩ := Traced.result_bind_eq_ok_iff.1 hok
    refine Or.inr ⟨fun h => hready (beq_iff_eq.2 h), fun haudit => ?_, (Except.ok.inj hok).symm⟩
    rw [AuditLevel.result_checkBy_eq_ok_iff, haudit] at hcheck
    exact Trail.holdsConflict_iff.1 (hcheck.resolve_left nofun)

/-- Going back undoes levels. -/
theorem undo_of_backtrack {level : Nat} (hok : (s.backtrack level).result = .ok next) :
    s.undo level = .ok next := by
  unfold backtrack at hok
  obtain ⟨undone, hundo, hok⟩ := Traced.result_bind_eq_ok_iff.1 hok
  obtain ⟨_, -, hok⟩ := Traced.result_bind_eq_ok_iff.1 hok
  obtain rfl := Except.ok.inj hok
  exact hundo

/-- What an operation does if it succeeds. -/
inductive Performs (s : Solver) : Operation → Solver → Prop where
  | newVariable : Performs s .newVariable s.newVariable
  | addClause {ls : List Literal} {next : Solver} : s.currentLevel = 0 → s.Adds ls next →
      Performs s (.addClause ls) next
  | decide {l : Literal} : s.status = .ready → l.var < s.numVariables →
      s.trail.isAssigned l.var = false →
      Performs s (.decide l) (s.withTrail (s.trail.openLevel.push l none))
  | nextDecision {queue : DecisionQueue} {found : Option Variable} :
      s.heuristic.queue.next s.trail = .ok (queue, found) →
      Performs s .nextDecision { s with heuristic := { s.heuristic with queue := queue } }
  | assign {l : Literal} {reason : Option ClauseId} {next : Solver} : s.Pushes l reason next →
      Performs s (.assign l reason) next
  | ignored {c : ClauseId} : s.status = .unsatisfiable → Performs s (.declareConflict c) s
  | declared {c : ClauseId} : s.status ≠ .unsatisfiable → (s.audit = .full → s.Falsified c) →
      Performs s (.declareConflict c) { s with status := .conflict c }
  | analyse {next : Solver} {outcome : Outcome} : s.analyse.result = .ok (next, outcome) →
      Performs s .analyse next
  | backtrack {level : Nat} {next : Solver} : s.undo level = .ok next →
      Performs s (.backtrack level) next
  | removeFromQueue {v : Variable} : v < s.heuristic.queue.links.size →
      Performs s (.removeFromQueue v)
        { s with heuristic := { s.heuristic with queue := s.heuristic.queue.remove v } }
  | iterate : Performs s .iterate { s with iterating := false }

/-- An operation that succeeds does what is said of it. -/
theorem performs_of_perform {op : Operation} (hok : s.perform op = .ok next) :
    s.Performs op next := by
  cases op with
  | newVariable =>
    obtain rfl := createVariable_eq_ok hok
    exact .newVariable
  | addClause ls =>
    obtain ⟨answer, hok⟩ := map_fst_eq_ok_iff.1 hok
    obtain ⟨hroot, hadds⟩ := adds_of_addClause hok
    exact .addClause hroot hadds
  | decide l =>
    obtain ⟨hready, hknown, hfree, rfl⟩ := decide_eq_ok_iff.1 hok
    exact .decide hready hknown hfree
  | nextDecision =>
    obtain ⟨l, hok⟩ := map_fst_eq_ok_iff.1 hok
    obtain ⟨queue, found, hnext, rfl, -⟩ := next_of_nextDecision hok
    exact .nextDecision hnext
  | assign l reason => exact .assign (pushes_of_assign hok)
  | declareConflict c =>
    rcases next_of_declareConflict hok with ⟨hunsat, rfl⟩ | ⟨hready, hfalse, rfl⟩
    · exact .ignored hunsat
    · exact .declared hready hfalse
  | analyse =>
    obtain ⟨outcome, hok⟩ := map_fst_eq_ok_iff.1 hok
    exact .analyse hok
  | backtrack level => exact .backtrack (undo_of_backtrack hok)
  | removeFromQueue v =>
    obtain ⟨hplace, rfl⟩ := next_of_removeFromQueue hok
    exact .removeFromQueue hplace
  | iterate =>
    obtain ⟨_, -, hok⟩ := Traced.result_bind_eq_ok_iff.1 hok
    obtain rfl := Except.ok.inj hok
    exact .iterate

/-- A pending conflict that may be analysed is false. -/
theorem falsified_of_permits (hpermits : s.permits .analyse = true) {c : ClauseId}
    (hstatus : s.status = .conflict c) : s.Falsified c := by
  unfold permits at hpermits
  rw [hstatus] at hpermits
  exact Trail.holdsConflict_iff.1 (accepts_iff.1 hpermits)

/-- A legal analysis learns from a false clause, or repeats that there is no model. -/
theorem Derives.analyse {start : ProofLog} {F lines : Formula} {outcome : Outcome}
    (h : Derives start F lines s) (hs : s.Grounded) (hpermits : s.permits .analyse = true)
    (hok : s.analyse.result = .ok (next, outcome)) :
    next.Grounded ∧ ∃ lines', Derives start F lines' next := by
  have hfalse : ∀ c, s.status = .conflict c → s.Falsified c :=
    fun _ hstatus => falsified_of_permits hpermits hstatus
  rcases hs.founded.of_analyse hfalse hok with rfl | ⟨c, hstatus, hanalyses⟩
  · exact ⟨hs, lines, h⟩
  · exact ⟨hanalyses.grounded hs, h.analyses hs hstatus (hfalse c hstatus) hanalyses⟩

/-- What a legal operation does to the solver. -/
theorem Derives.perform {start : ProofLog} {F lines : Formula} {op : Operation}
    (hs : s.Grounded) (h : Derives start F lines s) (hpermits : s.permits op = true)
    (hok : s.perform op = .ok next) :
    next.Grounded ∧ ∃ lines', Derives start (F ++ axiomsOf op) lines' next := by
  have hnil : F ++ [] = F := List.append_nil F
  cases performs_of_perform hok with
  | newVariable => exact ⟨hs.newVariable, lines, hnil.symm ▸ h.newVariable⟩
  | addClause hlevel hadds =>
    exact ⟨hs.adds hlevel hadds, h.adds hs.toCoherent hlevel hadds⟩
  | decide _ hknown hfree =>
    exact ⟨hs.decide hknown hfree, lines, hnil.symm ▸ h.decide hknown hfree⟩
  | nextDecision hnext =>
    exact ⟨hs.congr rfl rfl (hs.serves.of_next hnext).1 rfl rfl, lines,
      hnil.symm ▸ h.keep (fun _ => Iff.rfl) rfl rfl Iff.rfl⟩
  | @assign l reason next hp =>
    cases reason with
    | none =>
      have hlevel : s.currentLevel = 0 := beq_iff_eq.1 hpermits
      exact ⟨hs.pushes hp (fun c hc => nomatch hc) fun _ => hlevel, _, h.assumed hlevel hp⟩
    | some c =>
      have himplies := Trail.holdsReason_iff.1 (accepts_iff.1 hpermits)
      refine ⟨hs.pushes hp (fun d hd => Option.some.inj hd ▸ himplies) fun hno => (nomatch hno), ?_⟩
      exact hnil.symm ▸ h.implied hs.toCoherent hp himplies
  | ignored _ => exact ⟨hs, lines, hnil.symm ▸ h⟩
  | declared hready _ =>
    refine ⟨hs.congr rfl rfl hs.serves rfl rfl, lines,
      hnil.symm ▸ h.keep (fun _ => Iff.rfl) rfl rfl ⟨fun hno => (nomatch hno), hready.elim⟩⟩
  | analyse hanalyse => exact hnil.symm ▸ h.analyse hs hpermits hanalyse
  | backtrack hundo => exact ⟨hs.undo hundo, lines, hnil.symm ▸ h.undo hs.toCoherent hundo⟩
  | removeFromQueue _ =>
    exact ⟨hs.congr rfl rfl (hs.serves.remove _).1 rfl rfl, lines,
      hnil.symm ▸ h.keep (fun _ => Iff.rfl) rfl rfl Iff.rfl⟩
  | iterate =>
    exact ⟨hs.congr rfl rfl hs.serves rfl rfl, lines,
      hnil.symm ▸ h.keep (fun _ => Iff.rfl) rfl rfl Iff.rfl⟩

/-- Along a legal run the solver stays grounded, and its proof derives what it knows. -/
theorem LegalRun.derives {start : Solver} {F : Formula} (h : LegalRun start F s)
    (hstart : start.Grounded) (hempty : Derives start.proof [] [] start) :
    s.Grounded ∧ ∃ lines, Derives start.proof F lines s := by
  induction h with
  | start => exact ⟨hstart, [], hempty⟩
  | step _ hpermits hok ih =>
    obtain ⟨hs, lines, hderives⟩ := ih
    exact hderives.perform hs hpermits hok

/-- A new solver is empty. -/
theorem eq_empty_of_new {o : Options} {audit : AuditLevel} {proof : ProofLog} {start : Solver}
    (h : Solver.new o audit proof = .ok start) : start = Solver.empty o audit proof := by
  unfold Solver.new at h
  cases hvalid : o.validate with
  | error e =>
    rw [hvalid] at h
    cases h
  | ok u =>
    rw [hvalid] at h
    exact (Except.ok.inj h).symm

/-- In every state that legal operations lead to from a new solver, assignments are explained. -/
theorem LegalRun.grounded {o : Options} {audit : AuditLevel} {proof : ProofLog} {start : Solver}
    {F : Formula} (hnew : Solver.new o audit proof = .ok start) (hrun : LegalRun start F s) :
    s.Grounded := by
  obtain rfl := eq_empty_of_new hnew
  exact (hrun.derives (grounded_empty o audit proof) (.empty o audit proof)).1

/-- Every line that a legal run writes to a proof with unlimited room follows by reverse unit
propagation from the formula and the lines before it, and once the formula is known to have no
model, the lines refute it. -/
theorem LegalRun.lines_follow {o : Options} {audit : AuditLevel} {w : Writer} {start : Solver}
    {F : Formula} (hroom : w.room = none) (hnew : Solver.new o audit ⟨some w⟩ = .ok start)
    (hrun : LegalRun start F s) :
    (∃ lines : Formula,
        s.proof.text = some (String.ofList (w.written ++ lines.flatMap ProofLog.line))) ∧
      ∀ lines : Formula,
        s.proof.text = some (String.ofList (w.written ++ lines.flatMap ProofLog.line)) →
        Derivation F lines ∧ (s.status = .unsatisfiable → [] ∈ lines ∧ F.Unsatisfiable) := by
  obtain rfl := eq_empty_of_new hnew
  obtain ⟨-, lines, h⟩ := hrun.derives (grounded_empty o audit _) (.empty o audit _)
  have hlogged : s.proof = (⟨some w⟩ : ProofLog).logAll lines := h.logged
  rw [hlogged]
  refine ⟨⟨lines, ProofLog.text_logAll hroom lines⟩, fun lines' htext => ?_⟩
  have hsame := ProofLog.lines_of_text hroom htext
  rw [hsame]
  refine ⟨h.derivation, fun hunsat => ?_⟩
  have hempty := h.refuted hunsat
  exact ⟨hempty, h.derivation.unsatisfiable hempty⟩

/-- The four clauses over two variables have no model; the first decision leads to a conflict, and
the literal learned from it to another one at the root. -/
def contradictoryRun : List Operation :=
  [.newVariable, .newVariable, .addClause [⟨0, true⟩, ⟨1, true⟩],
    .addClause [⟨0, true⟩, ⟨1, false⟩], .addClause [⟨0, false⟩, ⟨1, true⟩],
    .addClause [⟨0, false⟩, ⟨1, false⟩], .decide ⟨0, true⟩, .assign ⟨1, true⟩ (some 2),
    .declareConflict 3, .analyse, .assign ⟨1, true⟩ (some 0), .declareConflict 1, .analyse]

/-- The proof of the run refutes the four clauses. -/
theorem contradictoryRun_lines_follow : ∃ F s,
    runLegal [] (Solver.empty {} .full ⟨some {}⟩) contradictoryRun = some (F, s) ∧
      ∃ lines : Formula, s.proof.text = some (String.ofList (lines.flatMap ProofLog.line)) ∧
        Derivation F lines ∧ [] ∈ lines ∧ F.Unsatisfiable := by
  have hnew : Solver.new {} .full ⟨some {}⟩ = .ok (Solver.empty {} .full ⟨some {}⟩) := rfl
  have hunsat : ((runLegal [] (Solver.empty {} .full ⟨some {}⟩) contradictoryRun).map
      fun p => p.2.status) = some .unsatisfiable := by decide +kernel
  obtain ⟨⟨F, s⟩, hrun, hunsat⟩ := Option.map_eq_some_iff.1 hunsat
  obtain ⟨⟨lines, htext⟩, hfollow⟩ :=
    LegalRun.lines_follow rfl hnew (LegalRun.start.of_runLegal hrun)
  obtain ⟨hderivation, hrefuted⟩ := hfollow lines htext
  exact ⟨F, s, hrun, lines, htext, hderivation, hrefuted hunsat⟩

end Solver

end ClauseLearning
