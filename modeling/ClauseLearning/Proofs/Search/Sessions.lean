import ClauseLearning.Proofs.Search.Moves

/-!
# Solving a growing formula

In a session variables are created and clauses added at the root level, in between the formula is
solved and the solver returns to the root level. The clauses may be of any kind: empty, with
repeated literals, tautologies, true or false at the root.

The answers are right: after the answer that there is no model, no valuation satisfies the clauses
added so far; after the answer that there is one, the assignments form a model of all of them.
-/

set_option autoImplicit false

namespace ClauseLearning

/-- If all its variables are assigned, a clause settled by the current level has a true literal. -/
theorem Trail.Settles.exists_isTrue {t : Trail} {ls : List Literal} (ht : t.WellFormed)
    (h : t.Settles t.currentLevel ls) (hassigned : ∀ l ∈ ls, t.isAssigned l.var = true) :
    ∃ l ∈ ls, t.isTrue l = true := by
  rcases h with ⟨l, hl, htrue, -⟩ | ⟨k, hk, -, -, -, hup, -⟩
  · exact ⟨l, hl, htrue⟩
  · refine ⟨k, hk, (Trail.isTrue_or_isFalse (hassigned k hk)).resolve_right fun hfalse => ?_⟩
    exact hup ⟨hfalse, ht.level_le k.var⟩

/-- What is done in a session; after a search the solver returns to the root level. -/
inductive Call where
  | newVariable
  | addClause (ls : List Literal)
  | solve
  deriving DecidableEq, Repr

namespace Call

/-- Whether the variables that a call names exist, if there are so many. -/
def isOver (n : Nat) : Call → Bool
  | .addClause ls => ls.all fun l => l.var < n
  | _ => true

/-- The clauses by which a call extends the formula. -/
def clauses : Call → Formula
  | .addClause ls => [ls]
  | _ => []

end Call

namespace Solver

/-- Answer a call; answers are left out. -/
def call (s : Solver) : Call → Except Fault Solver
  | .newVariable => s.createVariable
  | .addClause ls => (s.addClause ls).result.map Prod.fst
  | .solve => do
    let (solved, _) ← s.solve.result
    (solved.backtrack 0).result

/-- The states of a session, each with the formula added so far. -/
inductive Session (start : Solver) : Formula → Solver → Prop where
  | start : Session start [] start
  | step {F : Formula} {s next : Solver} {c : Call} : Session start F s →
      c.isOver s.numVariables = true → s.call c = .ok next → Session start (F ++ c.clauses) next

/-- Answer calls as long as they are over existing variables. -/
def runSession (F : Formula) (s : Solver) : List Call → Option (Formula × Solver)
  | [] => some (F, s)
  | c :: cs =>
    match c.isOver s.numVariables, s.call c with
    | true, .ok next => runSession (F ++ c.clauses) next cs
    | _, _ => none

/-- Calls answered one after the other extend a session. -/
theorem Session.of_runSession {start s s' : Solver} {F F' : Formula} {cs : List Call}
    (h : Session start F s) (hrun : runSession F s cs = some (F', s')) : Session start F' s' := by
  induction cs generalizing F s with
  | nil =>
    obtain ⟨rfl, rfl⟩ := Prod.mk.inj (Option.some.inj hrun)
    exact h
  | cons c cs ih =>
    unfold runSession at hrun
    split at hrun
    next next hover hcall => exact ih (h.step hover hcall) hrun
    next => cases hrun

variable {s next : Solver} {F : Formula}

/-- What holds between the calls of a session: the solver is disciplined, at the root level, knows
the formula, and can decide every variable. -/
structure Carries (start : ProofLog) (F : Formula) (s : Solver) : Prop where
  disciplined : s.Disciplined
  root : s.currentLevel = 0
  derives : ∃ lines, Derives start F lines s
  queued : ∀ v < s.numVariables, v ∈ s.heuristic.queue.toList
  known : ∀ ls ∈ F, ∀ l ∈ ls, l.var < s.numVariables

/-- A clause that is added changes neither the heuristic nor the number of variables. -/
theorem Adds.unchanged {ls : List Literal} (h : s.Adds ls next) :
    next.heuristic = s.heuristic ∧ next.numVariables = s.numVariables := by
  cases h with
  | refused _ => exact ⟨rfl, rfl⟩
  | dropped _ => exact ⟨rfl, rfl⟩
  | refuted _ => exact ⟨rfl, rfl⟩
  | unit _ hp =>
    obtain ⟨iterating, counters, rfl⟩ := hp.next_eq
    exact ⟨rfl, Trail.numVariables_push _ _ _⟩
  | stored _ _ => exact ⟨rfl, rfl⟩

namespace Carries

variable {start : ProofLog}

/-- A new variable is queued, and the solver carries the same formula. -/
theorem newVariable (h : Carries start F s) : Carries start F s.newVariable where
  disciplined := h.disciplined.newVariable
  root := h.root
  derives := by
    obtain ⟨lines, hd⟩ := h.derives
    exact ⟨lines, hd.newVariable⟩
  queued := by
    intro v hv
    rw [Coherent.numVariables_newVariable] at hv
    have hlist : s.newVariable.heuristic.queue.toList =
        s.numVariables :: s.heuristic.queue.toList := h.disciplined.serves.grow.2
    rw [hlist, List.mem_cons]
    rcases Nat.lt_succ_iff_lt_or_eq.1 hv with hlt | rfl
    · exact Or.inr (h.queued v hlt)
    · exact Or.inl rfl
  known := by
    intro ls hls l hl
    rw [Coherent.numVariables_newVariable]
    exact Nat.lt_succ_of_lt (h.known ls hls l hl)

/-- A clause that is added joins the formula that the solver carries. -/
theorem adds (h : Carries start F s) {ls : List Literal}
    (hover : ∀ l ∈ ls, l.var < s.numVariables) (ha : s.Adds ls next) :
    Carries start (F ++ [ls]) next := by
  obtain ⟨hdisciplined, hroot⟩ := h.disciplined.adds h.root ha
  obtain ⟨hheuristic, hnum⟩ := ha.unchanged
  obtain ⟨lines, hd⟩ := h.derives
  refine ⟨hdisciplined, hroot, hd.adds h.disciplined.toCoherent h.root ha, ?_, ?_⟩
  · rw [hnum, hheuristic]
    exact h.queued
  · intro x hx l hl
    rw [hnum]
    rcases List.mem_append.1 hx with hx | hx
    · exact h.known x hx l hl
    · exact hover l (List.mem_singleton.1 hx ▸ hl)

/-- What a search keeps, and the return to the root level. -/
theorem follows (h : Carries start F s) (hf : s.Follows next) (hdisciplined : next.Disciplined)
    (hroot : next.currentLevel = 0) : Carries start F next where
  disciplined := hdisciplined
  root := hroot
  derives := by
    obtain ⟨lines, hd⟩ := h.derives
    exact hf.derives start F lines hd
  queued := by
    intro v hv
    rw [hf.numVariables_eq] at hv
    exact (hf.queued v).2 (h.queued v hv)
  known := by
    rw [hf.numVariables_eq]
    exact h.known

/-- A search succeeds, and the root level can be returned to. -/
theorem exists_solve (h : Carries start F s) :
    ∃ solved result next, s.solve.result = .ok (solved, result) ∧
      (solved.backtrack 0).result = .ok next ∧ s.Answers solved result ∧ Carries start F next := by
  obtain ⟨⟨solved, result⟩, hsolve, hanswers⟩ := h.disciplined.solve_yields
  obtain ⟨next, hback, hundo⟩ := backtrack_yields hanswers.grounded.toCoherent (Nat.zero_le _)
  have hdisciplined := (hanswers.disciplined.undo hanswers.quiet hundo).1
  have hf : s.Follows next := hanswers.toFollows.trans (.of_undo hanswers.grounded hundo)
  obtain ⟨-, rfl⟩ := undo_eq_ok hundo
  have hroot : (solved.trail.cut 0).currentLevel = 0 := by
    rw [Trail.currentLevel_cut, Nat.zero_min]
  exact ⟨solved, result, _, hsolve, hback, hanswers, h.follows hf hdisciplined hroot⟩

/-- A call over existing variables is answered. -/
theorem exists_call (h : Carries start F s) {c : Call} (hover : c.isOver s.numVariables = true) :
    ∃ next, s.call c = .ok next ∧ Carries start (F ++ c.clauses) next := by
  have hnil : F ++ [] = F := List.append_nil F
  cases c with
  | newVariable =>
    exact ⟨_, createVariable_eq h.disciplined.serves, hnil.symm ▸ h.newVariable⟩
  | addClause ls =>
    have hknown : ∀ l ∈ ls, l.var < s.numVariables := by
      simpa [Call.isOver] using hover
    obtain ⟨⟨next, answer⟩, hok, hadds⟩ := addClause_yields h.root fun _ => exists_anyTrue hknown
    exact ⟨next, map_fst_eq_ok_iff.2 ⟨answer, hok⟩, h.adds hknown hadds⟩
  | solve =>
    obtain ⟨solved, result, next, hsolve, hback, -, hnext⟩ := h.exists_solve
    exact ⟨next, Fault.bind_eq_ok_iff.2 ⟨(solved, result), hsolve, hback⟩, hnil.symm ▸ hnext⟩

end Carries

/-- In every state of a session the solver carries the formula added so far. -/
theorem Session.carries {start : Solver} (h : Session start F s)
    (hstart : Carries start.proof [] start) : Carries start.proof F s := by
  induction h with
  | start => exact hstart
  | step _ hover hcall ih =>
    obtain ⟨next, hok, hnext⟩ := ih.exists_call hover
    exact Except.ok.inj (hok.symm.trans hcall) ▸ hnext

/-- A new solver carries the empty formula. -/
theorem carries_empty (o : Options) (audit : AuditLevel) (proof : ProofLog) :
    Carries proof [] (Solver.empty o audit proof) :=
  ⟨.empty o audit proof, rfl, ⟨[], .empty o audit proof⟩, fun _ hv => absurd hv (Nat.not_lt_zero _),
    fun _ hls => absurd hls List.not_mem_nil⟩

/-! ## Answers -/

/-- A quiet solver in which all variables are assigned has a model of its stored clauses. -/
theorem isModel_of_quiet (h : s.Disciplined) (hquiet : s.Quiet) (hready : s.status = .ready)
    (htotal : ∀ v < s.numVariables, s.trail.isAssigned v = true) :
    (∀ c clause, s.clauses.get? c = some clause →
      ∃ l ∈ clause.literals, s.trail.isTrue l = true) ∧ s.isModel = true := by
  have hclauses : ∀ c clause, s.clauses.get? c = some clause →
      ∃ l ∈ clause.literals, s.trail.isTrue l = true := by
    intro c clause hc
    refine (hquiet hready c clause hc).exists_isTrue h.trail fun l hl => ?_
    exact htotal l.var ((h.proper c clause hc).known l hl)
  refine ⟨hclauses, ?_⟩
  unfold isModel
  rw [Bool.and_eq_true, List.all_eq_true, List.all_eq_true]
  refine ⟨fun v hv => htotal v (List.mem_range.1 hv), fun clause hclause => ?_⟩
  obtain ⟨c, hc⟩ := ClauseStore.mem_toList_iff.1 hclause
  exact List.any_eq_true.2 (hclauses c clause hc)

/-- If the stored clauses have true literals, what is kept of a clause makes it true. -/
theorem Retains.exists_isTrue {ls : List Literal} (h : s.Retains ls)
    (hassigned : ∀ l ∈ ls, s.trail.isAssigned l.var = true)
    (hclauses : ∀ c clause, s.clauses.get? c = some clause →
      ∃ l ∈ clause.literals, s.trail.isTrue l = true) : ∃ l ∈ ls, s.trail.isTrue l = true := by
  rcases h with ⟨l, hl, hnegate⟩ | ⟨l, hl, htrue, -⟩ | ⟨c, clause, hc, hsub⟩
  · rcases Trail.isTrue_or_isFalse (hassigned l hl) with htrue | hfalse
    · exact ⟨l, hl, htrue⟩
    · exact ⟨l.negate, hnegate, Trail.isTrue_negate.trans hfalse⟩
  · exact ⟨l, hl, htrue⟩
  · obtain ⟨l, hl, htrue⟩ := hclauses c clause hc
    exact ⟨l, hsub hl, htrue⟩

/-- In a session every search succeeds, and its answer is right for all the clauses added so far: if
it says that there is no model, no valuation satisfies them; if it says that there is one, all
variables are assigned, every clause has a true literal, and the test for models passes. -/
theorem Session.solve_correct {o : Options} {audit : AuditLevel} {proof : ProofLog}
    {start : Solver} (hnew : Solver.new o audit proof = .ok start) (hsession : Session start F s) :
    ∃ solved result, s.solve.result = .ok (solved, result) ∧
      (result.satisfiable = false → F.Unsatisfiable) ∧
      (result.satisfiable = true →
        (∀ v < s.numVariables, solved.trail.isAssigned v = true) ∧
          (∀ ls ∈ F, ∃ l ∈ ls, solved.trail.isTrue l = true) ∧ solved.isModel = true) := by
  obtain rfl := eq_empty_of_new hnew
  have h := hsession.carries (carries_empty o audit proof)
  obtain ⟨solved, result, -, hsolve, -, hanswers, -⟩ := h.exists_solve
  obtain ⟨lines, hd⟩ := h.derives
  obtain ⟨lines', hd'⟩ := hanswers.derives _ F lines hd
  refine ⟨solved, result, hsolve, fun hunsat => ?_, fun hsat => ?_⟩
  · exact hd'.derivation.unsatisfiable (hd'.refuted (hanswers.refuted hunsat))
  · obtain ⟨hready, hqueued⟩ := hanswers.found hsat
    have htotal : ∀ v < s.numVariables, solved.trail.isAssigned v = true :=
      fun v hv => hqueued v ((hanswers.queued v).2 (h.queued v hv))
    obtain ⟨hclauses, hmodel⟩ := isModel_of_quiet hanswers.disciplined hanswers.quiet hready
      (hanswers.numVariables_eq ▸ htotal)
    refine ⟨htotal, fun ls hls => ?_, hmodel⟩
    have hretains : solved.Retains ls := hd'.retains (fun hno => by
      rw [hready] at hno
      cases hno) ls hls
    exact hretains.exists_isTrue (fun l hl => htotal l.var (h.known ls hls l hl)) hclauses

/-- Clauses over two variables that rule out one valuation after the other; a repeated literal and a
tautology are among them, and the formula is solved on the way. -/
def growingCalls : List Call :=
  [.newVariable, .newVariable, .addClause [⟨0, true⟩, ⟨1, true⟩, ⟨0, true⟩],
    .addClause [⟨0, true⟩, ⟨0, false⟩], .addClause [⟨0, false⟩, ⟨1, true⟩], .solve,
    .addClause [⟨0, true⟩, ⟨1, false⟩], .addClause [⟨0, false⟩, ⟨1, false⟩]]

/-- The formula has a model at first, which the search finds, and none after further clauses, which
it finds as well. -/
theorem growingCalls_solve :
    (∃ F s, runSession [] (Solver.empty {} .full ⟨some {}⟩) (growingCalls.take 5) = some (F, s) ∧
      ∃ solved result, s.solve.result = .ok (solved, result) ∧ result.satisfiable = true ∧
        solved.isModel = true) ∧
    ∃ F s, runSession [] (Solver.empty {} .full ⟨some {}⟩) growingCalls = some (F, s) ∧
      ∃ solved result, s.solve.result = .ok (solved, result) ∧ result.satisfiable = false ∧
        F.Unsatisfiable := by
  have hnew : Solver.new {} .full ⟨some {}⟩ = .ok (Solver.empty {} .full ⟨some {}⟩) := rfl
  constructor
  · have hanswer : ((runSession [] (Solver.empty {} .full ⟨some {}⟩) (growingCalls.take 5)).bind
        fun p => p.2.solve.result.toOption.map fun q => q.2.satisfiable) = some true := by
      decide +kernel
    obtain ⟨⟨F, s⟩, hrun, hanswer⟩ := Option.bind_eq_some_iff.1 hanswer
    obtain ⟨solved, result, hsolve, -, hright⟩ :=
      Session.solve_correct hnew (Session.start.of_runSession hrun)
    rw [hsolve] at hanswer
    have hsat : result.satisfiable = true := Option.some.inj hanswer
    exact ⟨F, s, hrun, solved, result, hsolve, hsat, (hright hsat).2.2⟩
  · have hanswer : ((runSession [] (Solver.empty {} .full ⟨some {}⟩) growingCalls).bind
        fun p => p.2.solve.result.toOption.map fun q => q.2.satisfiable) = some false := by
      decide +kernel
    obtain ⟨⟨F, s⟩, hrun, hanswer⟩ := Option.bind_eq_some_iff.1 hanswer
    obtain ⟨solved, result, hsolve, hright, -⟩ :=
      Session.solve_correct hnew (Session.start.of_runSession hrun)
    rw [hsolve] at hanswer
    have hunsat : result.satisfiable = false := Option.some.inj hanswer
    exact ⟨F, s, hrun, solved, result, hsolve, hunsat, hright hunsat⟩

end Solver

end ClauseLearning
