import ClauseLearning.Proofs.Conflict.Twins
import ClauseLearning.Solver.Assignment

/-!
# Two solvers side by side

Two solvers are *twins* if they agree on everything that guides the search: the options that steer
an analysis, the trail, the contents of the clauses, the queue, the marks and the status. They may
differ in the scores, in the records of how clauses were used, in the averages and in the proof.
This module shows that twins stay twins, and give the same answers, under the operations with which
a caller builds the formula and drives the search between two analyses.
-/

set_option autoImplicit false

namespace ClauseLearning

/-- The same choices about how clauses are shrunk and in which order variables are bumped, where the
order does not read the scores. -/
structure Options.SameGuidance (o o' : Options) : Prop where
  minimise_eq : o'.minimise = o.minimise
  depth_eq : o'.minimiseDepth = o.minimiseDepth
  order_eq : o'.bumpOrder = o.bumpOrder
  order_ne : o.bumpOrder ≠ .scoreSmaller

/-- The same queue, and scores for the same variables. -/
structure Heuristic.Twins (h h' : Heuristic) : Prop where
  queue_eq : h'.queue = h.queue
  size_eq : h'.scores.table.size = h.scores.table.size

namespace Heuristic.Twins

variable {h h' : Heuristic}

/-- A new variable is queued and scored by both heuristics. -/
theorem grow (ht : h.Twins h') (v : Variable) : (h.grow v).Twins (h'.grow v) := by
  refine ⟨?_, ?_⟩
  · show h'.queue.grow v = h.queue.grow v
    rw [ht.queue_eq]
  · show (h'.scores.table.accommodate v 0).size = (h.scores.table.accommodate v 0).size
    rw [Arena.size_accommodate, Arena.size_accommodate, ht.size_eq]

/-- Both queues have a front to link the new variable to, or none has. -/
theorem growKnown (ht : h.Twins h') (v : Variable) :
    Agree Heuristic.Twins (h.growKnown v) (h'.growKnown v) := by
  unfold Heuristic.growKnown
  rw [ht.queue_eq]
  refine (Agree.same _).bind ?_
  rintro queue _ rfl
  exact .value ⟨rfl, (ht.grow v).size_eq⟩

/-- Both queues can release the variables, or none can. -/
theorem releaseKnown (ht : h.Twins h') (ls : List Literal) :
    Agree Heuristic.Twins (h.releaseKnown ls) (h'.releaseKnown ls) := by
  unfold Heuristic.releaseKnown
  rw [ht.queue_eq]
  refine (Agree.same _).bind ?_
  rintro queue _ rfl
  exact .value ⟨rfl, ht.size_eq⟩

end Heuristic.Twins

namespace Trail

variable {s s' : ClauseStore}

/-- A reason implies its literal in stores that are alike, or in neither. -/
theorem holdsReason_matches (t : Trail) (h : s.Alike s') (l : Literal) (c : ClauseId) :
    (t.holdsReason s l c).Matches (t.holdsReason s' l c) Eq := by
  unfold holdsReason
  refine .bind (.lift (h.get c)) ?_
  rintro clause clause' ⟨-, -, hliterals⟩
  rw [hliterals]
  refine .ite (fun _ => .bind (.same _) ?_) fun _ => .tell (.pure rfl)
  rintro unfalsified _ rfl
  exact .pure rfl

/-- A clause is false in stores that are alike, or in neither. -/
theorem holdsConflict_matches (t : Trail) (h : s.Alike s') (c : ClauseId) :
    (t.holdsConflict s c).Matches (t.holdsConflict s' c) Eq := by
  unfold holdsConflict
  refine .bind (.lift (h.get c)) ?_
  rintro clause clause' ⟨-, -, hliterals⟩
  rw [hliterals]
  refine .bind (.same _) ?_
  rintro unfalsified _ rfl
  exact .pure rfl

end Trail

namespace Solver

/-- The solvers differ at most in what does not guide the search. -/
structure Twins (s s' : Solver) : Prop where
  guidance : s.options.SameGuidance s'.options
  audit_eq : s'.audit = s.audit
  status_eq : s'.status = s.status
  iterating_eq : s'.iterating = s.iterating
  trail_eq : s'.trail = s.trail
  alike : s.clauses.Alike s'.clauses
  stampable : s.clauses.Stampable s.options
  stampable' : s'.clauses.Stampable s'.options
  heuristic : s.heuristic.Twins s'.heuristic
  workspace : Workspace.Twins Activity.Idle Activity.Idle s.workspace s'.workspace
  conflicts_eq : s'.counters.conflicts = s.counters.conflicts

namespace Twins

variable {s s' : Solver}

/-- New solvers are twins, whatever their proofs are. -/
theorem empty {o o' : Options} (h : o.SameGuidance o') (audit : AuditLevel) (p p' : ProofLog) :
    (Solver.empty o audit p).Twins (Solver.empty o' audit p') where
  guidance := h
  audit_eq := rfl
  status_eq := rfl
  iterating_eq := rfl
  trail_eq := rfl
  alike := .refl _
  stampable := fun _ _ hc => nomatch hc
  stampable' := fun _ _ hc => nomatch hc
  heuristic := ⟨rfl, rfl⟩
  workspace := ⟨{}, rfl, rfl, rfl⟩
  conflicts_eq := rfl

variable (h : s.Twins s')

include h

/-- What an analysis may know is the same for twins. -/
theorem view : s.view.Twins s'.view :=
  ⟨h.trail_eq, h.audit_eq, h.alike, h.stampable, h.stampable'⟩

/-- Twins are on the same level. -/
theorem currentLevel_eq : s'.currentLevel = s.currentLevel := congrArg Trail.currentLevel h.trail_eq

/-- Twins have the same variables. -/
theorem numVariables_eq : s'.numVariables = s.numVariables :=
  congrArg Trail.numVariables h.trail_eq

/-- Twins know that there is no model both or neither. -/
theorem isUnsatisfiable_eq : s'.isUnsatisfiable = s.isUnsatisfiable :=
  congrArg (· == Status.unsatisfiable) h.status_eq

/-- With the same trail twins stay twins. -/
theorem withTrail (t : Trail) : (s.withTrail t).Twins (s'.withTrail t) := { h with trail_eq := rfl }

/-- With the same status twins stay twins. -/
theorem withStatus (status : Status) :
    ({ s with status := status } : Solver).Twins { s' with status := status } :=
  { h with status_eq := rfl }

/-- A new variable leaves twins. -/
theorem newVariable : s.newVariable.Twins s'.newVariable := by
  obtain ⟨a, hworkspace, hidle, hidle'⟩ := h.workspace
  refine { h with trail_eq := ?_, heuristic := ?_, workspace := ?_ }
  · exact congrArg Trail.grow h.trail_eq
  · show (s.heuristic.grow s.numVariables).Twins (s'.heuristic.grow s'.numVariables)
    rw [h.numVariables_eq]
    exact h.heuristic.grow _
  · refine ⟨a, ?_, hidle, hidle'⟩
    show s'.workspace.grow s'.numVariables = _
    rw [h.numVariables_eq, hworkspace]
    rfl

/-- Twins create the same variable. -/
theorem createVariable : Agree Twins s.createVariable s'.createVariable := by
  have hgrow := h.heuristic.growKnown s.nextVariable
  have hsame : s'.nextVariable = s.nextVariable := h.numVariables_eq
  unfold Solver.createVariable
  rw [hsame]
  refine hgrow.bind fun heuristic heuristic' hheuristic => ?_
  exact .value { h.newVariable with heuristic := hheuristic }

/-- Twins create the same variables. -/
theorem createVariables (n : Nat) : Agree Twins (s.createVariables n) (s'.createVariables n) := by
  induction n generalizing s s' with
  | zero => exact .value h
  | succ n ih => exact h.createVariable.bind fun _ _ hnext => ih hnext

/-- Twins create the same literals. -/
theorem newLiterals (n : Nat) :
    Agree (SameAnswer Twins) (s.newLiterals n) (s'.newLiterals n) := by
  have hsame : s'.nextVariable = s.nextVariable := h.numVariables_eq
  unfold Solver.newLiterals
  rw [hsame]
  exact (h.createVariables n).bind fun _ _ hnext => .value ⟨hnext, rfl⟩

/-! ## Assigning and undoing -/

/-- A literal fixed at the root leaves twins. -/
theorem learnUnit (l : Literal) : (s.learnUnit l).Matches (s'.learnUnit l) Twins :=
  .tellAll (.pure { h with iterating_eq := rfl, conflicts_eq := h.conflicts_eq })

/-- Twins learn both that there is no model, or learned it before. -/
theorem learnEmpty : s.learnEmpty.Matches s'.learnEmpty Twins :=
  .require (congrArg (! ·) h.isUnsatisfiable_eq) (.tellAll (.pure { h with status_eq := rfl }))

/-- Twins assign an implied literal alike. -/
theorem imply (l : Literal) (reason : Option ClauseId) :
    (s.imply l reason).Matches (s'.imply l reason) Twins := by
  unfold Solver.imply
  rw [h.trail_eq, h.currentLevel_eq]
  refine .bind (.same _) ?_
  rintro trail _ rfl
  exact .ite (fun _ => (h.withTrail trail).learnUnit l) fun _ => .pure (h.withTrail trail)

/-- The audit of a reason passes for both twins or for neither. -/
theorem auditReason (l : Literal) (reason : Option ClauseId) :
    (s.auditReason l reason).Matches (s'.auditReason l reason) fun _ _ => True := by
  cases reason with
  | none => exact .pure trivial
  | some c =>
    unfold Solver.auditReason
    rw [h.trail_eq]
    exact .checkBy h.audit_eq (s.trail.holdsReason_matches h.alike l c)

/-- Twins assign a literal alike. -/
theorem assign (l : Literal) (reason : Option ClauseId) :
    (s.assign l reason).Matches (s'.assign l reason) Twins :=
  .bind (h.auditReason l reason) fun _ _ _ => h.imply l reason

/-- Twins decide a literal alike. -/
theorem decide (l : Literal) : (s.decide l).Matches (s'.decide l) Twins := by
  unfold Solver.decide
  rw [h.status_eq, h.trail_eq]
  refine .require rfl (.tell (.bind (.same _) ?_))
  rintro trail _ rfl
  exact .pure (h.withTrail trail)

/-- A literal has the same value for twins. -/
theorem valueOf_eq (l : Literal) : s'.valueOf l = s.valueOf l := by
  unfold Solver.valueOf
  rw [h.trail_eq]

/-- Twins decide a literal that is free, or do not. -/
theorem tryDecide (l : Literal) :
    (s.tryDecide l).Matches (s'.tryDecide l) (SameAnswer Twins) := by
  unfold Solver.tryDecide
  rw [h.status_eq, h.valueOf_eq]
  refine .ite (fun _ => .bind (.same _) ?_) fun _ => .pure ⟨h, rfl⟩
  rintro value _ rfl
  cases value with
  | some b => exact .pure ⟨h, rfl⟩
  | none => exact .bind (h.decide l) fun _ _ hdecided => .pure ⟨hdecided, rfl⟩

/-- Twins find the same decision. -/
theorem nextDecision : Agree (SameAnswer Twins) s.nextDecision s'.nextDecision := by
  have hnext : s'.heuristic.queue.next s'.trail = s.heuristic.queue.next s.trail := by
    rw [h.heuristic.queue_eq, h.trail_eq]
  unfold Solver.nextDecision
  rw [hnext]
  refine (Agree.same _).bind ?_
  rintro ⟨queue, v⟩ _ rfl
  exact .value ⟨{ h with heuristic := ⟨rfl, h.heuristic.size_eq⟩ }, rfl⟩

/-- The audit of the cursor passes for both twins or for neither. -/
theorem auditCursor : s.auditCursor.Matches s'.auditCursor fun _ _ => True := by
  unfold Solver.auditCursor
  rw [h.heuristic.queue_eq, h.trail_eq]
  exact .checkBy h.audit_eq (.same _)

/-- Twins undo the same levels. -/
theorem undo (level : Nat) : Agree Twins (s.undo level) (s'.undo level) := by
  unfold Solver.undo
  rw [h.trail_eq]
  refine (Agree.same _).bind ?_
  rintro ⟨trail, undone⟩ _ rfl
  refine (h.heuristic.releaseKnown undone).bind fun _ _ hheuristic => ?_
  exact .value { h with trail_eq := rfl, heuristic := hheuristic }

/-- Twins go back alike. -/
theorem backtrack (level : Nat) : (s.backtrack level).Matches (s'.backtrack level) Twins :=
  .bind (.lift (h.undo level)) fun _ _ hundone =>
    .bind hundone.auditCursor fun _ _ _ => .pure hundone

/-- Twins take out a variable alike. -/
theorem removeFromQueue (v : Variable) :
    Agree Twins (s.removeFromQueue v) (s'.removeFromQueue v) := by
  unfold Solver.removeFromQueue
  rw [h.heuristic.queue_eq]
  refine (Agree.same _).bind ?_
  rintro queue _ rfl
  exact .value { h with heuristic := ⟨rfl, h.heuristic.size_eq⟩ }

/-! ## Clauses -/

/-- Twins take the same clause for a conflict. -/
theorem declareConflict (c : ClauseId) :
    (s.declareConflict c).Matches (s'.declareConflict c) Twins := by
  unfold Solver.declareConflict
  rw [h.isUnsatisfiable_eq]
  refine .ite (fun _ => .pure h) fun _ => .bind (R := fun _ _ => True) ?_ fun _ _ _ => ?_
  · rw [h.trail_eq]
    exact .checkBy h.audit_eq (s.trail.holdsConflict_matches h.alike c)
  · exact .pure (h.withStatus (.conflict c))

/-- Twins take in the rest of a clause alike. -/
theorem addRemaining (ls : List Literal) :
    (s.addRemaining ls).Matches (s'.addRemaining ls) (SameAnswer Twins) := by
  match ls with
  | [] => exact .bind h.learnEmpty fun _ _ hrefuted => .pure ⟨hrefuted, rfl⟩
  | [l] => exact .bind (h.assign l none) fun _ _ hfixed => .pure ⟨hfixed, rfl⟩
  | k :: l :: ls =>
    refine .pure ⟨{ h with alike := ?_, stampable := ?_, stampable' := ?_ }, ?_⟩
    · exact h.alike.insert rfl
    · exact h.stampable.insertFormula _
    · exact h.stampable'.insertFormula _
    · exact congrArg (fun c => Except.ok (some c)) h.alike.nextId_eq.symm

/-- Twins take in a clause alike, under the same name. -/
theorem addClause (ls : List Literal) :
    (s.addClause ls).Matches (s'.addClause ls) (SameAnswer Twins) := by
  unfold Solver.addClause
  rw [h.currentLevel_eq, h.isUnsatisfiable_eq, h.trail_eq]
  refine .require rfl (.ite (fun _ => .pure ⟨h, rfl⟩) fun _ => .bind (.same _) ?_)
  rintro satisfied _ rfl
  exact .ite (fun _ => .pure ⟨h, rfl⟩) fun _ => h.addRemaining _

end Twins

end Solver

end ClauseLearning
