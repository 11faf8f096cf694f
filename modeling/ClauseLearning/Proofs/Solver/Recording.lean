import ClauseLearning.Proofs.Matching
import ClauseLearning.Proofs.Solver.Guidance

/-!
# What is handed to the proof

A writer that fails takes less than it is handed, so its text does not tell which lines the solver
derived. But the solver writes to its proof and never reads it: the same operations, performed with
another proof, lead to the same solver. So the lines that were handed to a proof are those that a
reliable writer in its place would have taken.

Two solvers *echo* each other if they differ in their proofs only, and both proofs took the same
lines. Every operation keeps this.
-/

set_option autoImplicit false

namespace ClauseLearning

/-- Answers may be left out. -/
theorem Agree.map_fst {α β γ : Type} {R : α → β → Prop} {x : Except Fault (α × γ)}
    {y : Except Fault (β × γ)} (h : Agree (SameAnswer R) x y) :
    Agree R (x.map Prod.fst) (y.map Prod.fst) := by
  cases h with
  | value hab => exact .value hab.1
  | fault e => exact .fault e

namespace Solver

/-- The solver with another proof. -/
def withProof (s : Solver) (p : ProofLog) : Solver := { s with proof := p }

/-- The solvers are the same but for their proofs, which took the same lines since they were `p`
and `q`. -/
def Echoes (p q : ProofLog) (s s' : Solver) : Prop :=
  ∃ lines : Formula, s.proof = p.logAll lines ∧ s' = s.withProof (q.logAll lines)

namespace Echoes

variable {p q : ProofLog} {s s' : Solver}

/-- A solver with another proof is its echo before anything is logged. -/
theorem refl (s : Solver) (q : ProofLog) : Echoes s.proof q s (s.withProof q) := ⟨[], rfl, rfl⟩

variable (h : Echoes p q s s')

include h

/-- A change that does not touch the proof is made on both sides. -/
theorem map (f : Solver → Solver) (hf : ∀ t r, f (t.withProof r) = (f t).withProof r) :
    Echoes p q (f s) (f s') := by
  obtain ⟨lines, hp, rfl⟩ := h
  refine ⟨lines, ?_, hf s _⟩
  have hsame : f s = (f s).withProof s.proof := hf s s.proof
  rw [← hp, hsame]
  rfl

/-- Both proofs take a further line. -/
theorem log (ls : List Literal) :
    Echoes p q (s.withProof (s.proof.logClause ls).1) (s'.withProof (s'.proof.logClause ls).1) := by
  obtain ⟨lines, hp, rfl⟩ := h
  refine ⟨lines ++ [ls], ?_, ?_⟩
  · rw [ProofLog.logAll_append, ← hp]
    rfl
  · rw [ProofLog.logAll_append]
    rfl

/-- Echoes have the same trail. -/
theorem trail_eq : s'.trail = s.trail := by
  obtain ⟨lines, -, rfl⟩ := h
  rfl

/-- Echoes have the same workspace. -/
theorem workspace_eq : s'.workspace = s.workspace := by
  obtain ⟨lines, -, rfl⟩ := h
  rfl

/-! ## Assigning and undoing -/

/-- Both proofs are handed the unit. -/
theorem learnUnit (l : Literal) : (s.learnUnit l).Matches (s'.learnUnit l) (Echoes p q) :=
  .tellAll (.pure ((h.log [l]).map
    (fun t => { t with iterating := true, counters := t.counters.countFixed }) fun _ _ => rfl))

/-- Both proofs are handed the empty clause, unless it was learned before. -/
theorem learnEmpty : s.learnEmpty.Matches s'.learnEmpty (Echoes p q) := by
  have hrefuted := (h.log []).map (fun t => { t with status := .unsatisfiable }) fun _ _ => rfl
  rw [← ProofLog.logEmpty_fst, ← ProofLog.logEmpty_fst] at hrefuted
  have hsame : s'.isUnsatisfiable = s.isUnsatisfiable := by
    obtain ⟨lines, -, rfl⟩ := h
    rfl
  exact .require (congrArg (! ·) hsame) (.tellAll (.pure hrefuted))

/-- Another trail leaves echoes. -/
theorem withTrail (t : Trail) : Echoes p q (s.withTrail t) (s'.withTrail t) :=
  h.map (Solver.withTrail · t) fun _ _ => rfl

/-- Echoes assign an implied literal alike. -/
theorem imply (l : Literal) (reason : Option ClauseId) :
    (s.imply l reason).Matches (s'.imply l reason) (Echoes p q) := by
  have hunit := fun t => (h.withTrail t).learnUnit l
  have htrail := h.withTrail
  obtain ⟨lines, -, rfl⟩ := h
  refine .bind (.same _) ?_
  rintro trail _ rfl
  exact .ite (fun _ => hunit trail) fun _ => .pure (htrail trail)

/-- Echoes assign a literal alike. -/
theorem assign (l : Literal) (reason : Option ClauseId) :
    (s.assign l reason).Matches (s'.assign l reason) (Echoes p q) := by
  have himply := h.imply l reason
  obtain ⟨lines, -, rfl⟩ := h
  refine .bind (m := s.auditReason l reason) (.same _) fun _ _ _ => himply

/-- Echoes decide a literal alike. -/
theorem decide (l : Literal) : (s.decide l).Matches (s'.decide l) (Echoes p q) := by
  have htrail := h.withTrail
  obtain ⟨lines, -, rfl⟩ := h
  refine .require rfl (.tell (.bind (.same _) ?_))
  rintro trail _ rfl
  exact .pure (htrail trail)

/-- Echoes find the same decision. -/
theorem nextDecision : Agree (SameAnswer (Echoes p q)) s.nextDecision s'.nextDecision := by
  have hmap := h.map
  obtain ⟨lines, -, rfl⟩ := h
  refine (Agree.same _).bind ?_
  rintro ⟨queue, v⟩ _ rfl
  exact .value ⟨hmap (fun t => { t with heuristic := { t.heuristic with queue := queue } })
    fun _ _ => rfl, rfl⟩

/-- Echoes undo the same levels. -/
theorem undo (level : Nat) : Agree (Echoes p q) (s.undo level) (s'.undo level) := by
  have hmap := h.map
  obtain ⟨lines, -, rfl⟩ := h
  refine (Agree.same _).bind ?_
  rintro ⟨trail, undone⟩ _ rfl
  refine (Agree.same _).bind ?_
  rintro heuristic _ rfl
  exact .value (hmap (fun t => { t with trail := trail, heuristic := heuristic }) fun _ _ => rfl)

/-- The audit of the cursor passes for both echoes or for none. -/
theorem auditCursor : s.auditCursor.Matches s'.auditCursor fun _ _ => True := by
  obtain ⟨lines, -, rfl⟩ := h
  exact .checkBy rfl (.same _)

/-- Echoes go back alike. -/
theorem backtrack (level : Nat) : (s.backtrack level).Matches (s'.backtrack level) (Echoes p q) :=
  .bind (.lift (h.undo level)) fun _ _ hundone =>
    .bind hundone.auditCursor fun _ _ _ => .pure hundone

/-- Echoes take out a variable alike. -/
theorem removeFromQueue (v : Variable) :
    Agree (Echoes p q) (s.removeFromQueue v) (s'.removeFromQueue v) := by
  have hmap := h.map
  obtain ⟨lines, -, rfl⟩ := h
  refine (Agree.same _).bind ?_
  rintro queue _ rfl
  exact .value (hmap (fun t => { t with heuristic := { t.heuristic with queue := queue } })
    fun _ _ => rfl)

/-- Echoes report alike. -/
theorem iterate : s.iterate.Matches s'.iterate (Echoes p q) := by
  have hreported := h.map (fun t => { t with iterating := false }) fun _ _ => rfl
  obtain ⟨lines, -, rfl⟩ := h
  exact .bind (m := ({ s with iterating := false } : Solver).report 'i') (.same _)
    fun _ _ _ => .pure hreported

/-! ## Clauses -/

/-- Echoes take the same clause for a conflict. -/
theorem declareConflict (c : ClauseId) :
    (s.declareConflict c).Matches (s'.declareConflict c) (Echoes p q) := by
  have hdeclared := h.map (fun t => { t with status := .conflict c }) fun _ _ => rfl
  have hs := h
  obtain ⟨lines, -, rfl⟩ := h
  refine .ite (fun _ => .pure hs) fun _ => ?_
  exact .bind (m := s.audit.checkBy (s.trail.holdsConflict s.clauses c) .auditConflict) (.same _)
    fun _ _ _ => .pure hdeclared

/-- Echoes take in the rest of a clause alike. -/
theorem addRemaining (ls : List Literal) :
    (s.addRemaining ls).Matches (s'.addRemaining ls) (SameAnswer (Echoes p q)) := by
  match ls with
  | [] => exact .bind h.learnEmpty fun _ _ hrefuted => .pure ⟨hrefuted, rfl⟩
  | [l] => exact .bind (h.assign l none) fun _ _ hfixed => .pure ⟨hfixed, rfl⟩
  | k :: l :: ls =>
    have hstored := h.map
      (fun t => { t with clauses := t.clauses.insert (.ofFormula (k :: l :: ls)) }) fun _ _ => rfl
    obtain ⟨lines, -, rfl⟩ := h
    exact .pure ⟨hstored, rfl⟩

/-- Echoes take in a clause alike. -/
theorem addClause (ls : List Literal) :
    (s.addClause ls).Matches (s'.addClause ls) (SameAnswer (Echoes p q)) := by
  have hs := h
  obtain ⟨lines, -, rfl⟩ := h
  refine .require rfl (.ite (fun _ => .pure ⟨hs, rfl⟩) fun _ => .bind (.same _) ?_)
  rintro satisfied _ rfl
  exact .ite (fun _ => .pure ⟨hs, rfl⟩) fun _ => hs.addRemaining _

/-! ## An analysis -/

/-- Echoes derive the same clause. -/
theorem deriveClause (c : ClauseId) :
    (s.deriveClause c).Matches (s'.deriveClause c) (SameAnswer (Echoes p q)) := by
  have hmap := h.map
  obtain ⟨lines, -, rfl⟩ := h
  refine .bind (m := s.workspace.firstUip s.view c) (.same _) ?_
  rintro ⟨w, uip⟩ _ rfl
  refine .tell (.bind (m := s.audit.checkBy _ _) (.same _) fun _ _ _ => .pure ⟨?_, rfl⟩)
  exact hmap (fun t => { t with workspace := { w with learned := w.learned ++ [uip.negate] } })
    fun _ _ => rfl

/-- Echoes stamp the same clauses. -/
theorem stampResolved : Agree (Echoes p q) s.stampResolved s'.stampResolved := by
  have hmap := h.map
  obtain ⟨lines, -, rfl⟩ := h
  refine (Agree.same _).bind ?_
  rintro ⟨activity, clauses⟩ _ rfl
  exact .value (hmap (fun t => { t with
    clauses := clauses, workspace := { t.workspace with activity := activity } }) fun _ _ => rfl)

/-- Echoes record the same glue. -/
theorem recordGlue : s.recordGlue.Matches s'.recordGlue (Echoes p q) := by
  have hcounted := h.map (fun t => { t with counters := t.counters.addGlue t.currentGlue })
    fun _ _ => rfl
  obtain ⟨lines, -, rfl⟩ := h
  exact .bind (m := s.audit.checkBy (Traced.ofExcept s.holdsGlue) .auditGlue) (.same _)
    fun _ _ _ => .tell (.pure hcounted)

/-- Echoes shrink the clause alike. -/
theorem shrinkClause : s.shrinkClause.Matches s'.shrinkClause (Echoes p q) := by
  have hs := h
  obtain ⟨lines, -, rfl⟩ := h
  refine .ite (fun _ => ?_) fun _ => .pure hs
  refine .bind (m := s.workspace.minimise s.view s.options.minimiseDepth s.workspace.learned)
    (.same _) ?_
  rintro ⟨w, kept⟩ _ rfl
  exact .pure (hs.map (fun t => { t with
    workspace := { w with learned := kept }
    counters := t.counters.addMinimised (t.workspace.learned.length - kept.length) })
    fun _ _ => rfl)

/-- Echoes store the same clause and hand it to both proofs. -/
theorem storeLearned (ls : List Literal) (glue : Nat) :
    (s.storeLearned ls glue).Matches (s'.storeLearned ls glue) (SameAnswer (Echoes p q)) := by
  have hstored := (h.log ls).map (fun t => { t with
    clauses := t.clauses.insert (.ofLearned ls glue (t.options.tracks ls.length glue)) })
    fun _ _ => rfl
  obtain ⟨lines, -, rfl⟩ := h
  exact .tellAll (.pure ⟨hstored, rfl⟩)

/-- Echoes install the same clause. -/
theorem installClause (asserting : Literal) (glue : Nat) :
    (s.installClause asserting glue).Matches (s'.installClause asserting glue)
      (SameAnswer (Echoes p q)) := by
  have hs := h
  obtain ⟨lines, -, rfl⟩ := h
  unfold Solver.installClause
  rw [show (s.withProof (q.logAll lines)).latestFirst
    (s.withProof (q.logAll lines)).workspace.learned = s.latestFirst s.workspace.learned from rfl]
  match s.latestFirst s.workspace.learned with
  | [] => exact .pure ⟨hs, rfl⟩
  | [_] => exact .pure ⟨hs, rfl⟩
  | first :: second :: rest =>
    refine .bind (.same _) fun _ _ _ => .require rfl (.bind (hs.storeLearned _ _) ?_)
    rintro ⟨stored, c⟩ ⟨stored', _⟩ ⟨hstored, rfl⟩
    exact .pure ⟨hstored, rfl⟩

/-- Echoes bump variables alike. -/
theorem bumpAll (ls : List Literal) : (s.bumpAll ls).Matches (s'.bumpAll ls) (Echoes p q) := by
  induction ls generalizing s s' with
  | nil => exact .pure h
  | cons l ls ih =>
    have hs := h
    obtain ⟨lines, -, rfl⟩ := h
    refine .bind (.same _) fun _ _ _ => .check rfl rfl (.bind (.same _) fun _ _ _ => ?_)
    refine .bind (m := s.heuristic.bump l.var (s.trail.isAssigned l.var)) (.same _) ?_
    rintro heuristic _ rfl
    exact ih (hs.map (fun t => { t with
      heuristic := heuristic, workspace := t.workspace.unmarkSeen l.var }) fun _ _ => rfl)

/-- Echoes bump what was met alike. -/
theorem bumpSeen : s.bumpSeen.Matches s'.bumpSeen (Echoes p q) := by
  have hsequence : s'.bumpSequence = s.bumpSequence := by
    obtain ⟨lines, -, rfl⟩ := h
    rfl
  unfold Solver.bumpSeen
  rw [hsequence]
  refine .bind (.same _) ?_
  rintro sequence _ rfl
  refine .bind (h.bumpAll _) fun bumped bumped' hbumped => ?_
  have hmap := hbumped.map
  obtain ⟨lines, -, rfl⟩ := hbumped
  refine .bind (m := bumped.heuristic.decay) (.same _) ?_
  rintro heuristic _ rfl
  exact .pure (hmap (fun t => { t with
    heuristic := heuristic, workspace := { t.workspace with seen := [] } }) fun _ _ => rfl)

/-- Echoes learn the same clause. -/
theorem learn (c : ClauseId) :
    (s.learn c).Matches (s'.learn c) (SameAnswer (Echoes p q)) := by
  have hderive := h.deriveClause c
  obtain ⟨lines, -, rfl⟩ := h
  refine .check rfl rfl (.bind (m := (s.clauses.get c : Traced Clause)) (.same _) ?_)
  rintro conflict _ rfl
  refine .tell (.bind hderive ?_)
  rintro ⟨derived, asserting⟩ ⟨derived', _⟩ ⟨hderived, rfl⟩
  refine .bind (.lift hderived.stampResolved) fun _ _ hstamped => ?_
  refine .bind hstamped.recordGlue fun _ _ hrecorded => ?_
  refine .bind hrecorded.shrinkClause fun shrunk shrunk' hshrunk => ?_
  have hglue : derived'.currentGlue = derived.currentGlue :=
    congrArg (fun w : Workspace => w.levels.length) hderived.workspace_eq
  dsimp only
  rw [hglue]
  refine .bind ((hshrunk.map recordSize fun _ _ => rfl).installClause asserting _) ?_
  rintro ⟨installed, jump, clause⟩ ⟨installed', _⟩ ⟨hinstalled, rfl⟩
  have hrecorded := hinstalled.map (recordJump · jump) fun _ _ => rfl
  refine .bind (.lift (hrecorded.undo jump)) fun _ _ hundone => ?_
  refine .bind (hundone.imply asserting clause) fun _ _ hasserted => ?_
  refine .bind hasserted.bumpSeen fun _ _ hbumped => ?_
  refine .pure ⟨hbumped.map clearWorkspace fun _ _ => rfl, ?_⟩
  rw [hshrunk.workspace_eq]

/-- Echoes resolve a conflict alike. -/
theorem resolveConflict (c : ClauseId) :
    (s.resolveConflict c).Matches (s'.resolveConflict c) (SameAnswer (Echoes p q)) := by
  unfold Solver.resolveConflict
  rw [show s'.currentLevel = s.currentLevel from congrArg Trail.currentLevel h.trail_eq]
  refine .ite (fun _ => .bind h.learnEmpty fun _ _ hrefuted => .pure ⟨hrefuted, rfl⟩) fun _ => ?_
  refine .bind (h.learn c) ?_
  rintro ⟨next, learned⟩ ⟨next', _⟩ ⟨hnext, rfl⟩
  exact .pure ⟨hnext.map (fun t => { t with status := .ready }) fun _ _ => rfl, rfl⟩

/-- Echoes come to the same outcome. -/
theorem analyse : s.analyse.Matches s'.analyse (SameAnswer (Echoes p q)) := by
  have hcounted := h.map countConflict fun _ _ => rfl
  have hstatus : s'.status = s.status := by
    obtain ⟨lines, -, rfl⟩ := h
    rfl
  unfold Solver.analyse
  rw [hstatus]
  cases s.status with
  | unsatisfiable => exact .pure ⟨h, rfl⟩
  | ready => exact .fault _
  | conflict c =>
    refine .bind (hcounted.resolveConflict c) ?_
    rintro ⟨next, outcome⟩ ⟨next', _⟩ ⟨hnext, rfl⟩
    exact .bind hnext.auditCursor fun _ _ _ => .pure ⟨hnext, rfl⟩

/-! ## All operations -/

/-- Echoes create the same variable. -/
theorem createVariable : Agree (Echoes p q) s.createVariable s'.createVariable := by
  have hmap := h.map
  obtain ⟨lines, -, rfl⟩ := h
  refine (Agree.same _).bind ?_
  rintro heuristic _ rfl
  exact .value (hmap (fun t => { t.newVariable with heuristic := heuristic }) fun _ _ => rfl)

/-- An operation does the same to both solvers, and hands both proofs the same lines. -/
theorem perform (op : Operation) : Agree (Echoes p q) (s.perform op) (s'.perform op) := by
  cases op with
  | newVariable => exact h.createVariable
  | addClause ls => exact (h.addClause ls).map_fst
  | decide l => exact h.decide l
  | nextDecision => exact h.nextDecision.map_fst
  | assign l reason => exact h.assign l reason
  | declareConflict c => exact h.declareConflict c
  | analyse => exact h.analyse.map_fst
  | backtrack level => exact h.backtrack level
  | removeFromQueue v => exact h.removeFromQueue v
  | iterate => exact h.iterate

end Echoes

/-- The same operations can be performed with another proof. They lead to the same solver, and hand
the proof the same lines. -/
theorem Run.echoed {start : Solver} {ops : List Operation} {s : Solver}
    (h : Run unrestricted start ops s) (q : ProofLog) :
    ∃ s', Run unrestricted (start.withProof q) ops s' ∧ Echoes start.proof q s s' := by
  induction h with
  | start => exact ⟨_, .start, .refl start q⟩
  | @step ops s next op _ hallows hok ih =>
    obtain ⟨s', hrun, hechoes⟩ := ih
    have hagree := hechoes.perform op
    rw [hok] at hagree
    generalize hperform : s'.perform op = r at hagree
    cases hagree with
    | value hnext => exact ⟨_, hrun.step hallows hperform, hnext⟩

end Solver

end ClauseLearning
