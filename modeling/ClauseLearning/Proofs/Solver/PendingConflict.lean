import ClauseLearning.Proofs.Solver.Guidance

/-!
# Pending conflicts

A solver that checks everything accepts a conflict only if the clause is false. From then on the
clause stays false under every operation but one: undoing levels leaves the conflict pending, and
the clause is false afterwards exactly if none of its literals was undone. So along runs that undo
no literal of a pending conflict, a pending conflict is a false clause, and along other runs it need
not be: the analysis of a conflict that went stale can refute a formula that has a model.
-/

set_option autoImplicit false

namespace ClauseLearning

namespace Solver

variable {s next : Solver} {c : ClauseId}

/-- A clause stays false as long as it is stored and no literal becomes less false. -/
theorem Falsified.mono (h : s.Falsified c) (hkept : s.clauses.KeptIn next.clauses)
    (hfalse : ∀ l, s.trail.isFalse l = true → next.trail.isFalse l = true) : next.Falsified c := by
  obtain ⟨clause, hc, hall⟩ := h
  obtain ⟨clause', hc', hliterals⟩ := hkept c clause hc
  refine ⟨clause', hc', fun l hl => hfalse l (hall l ?_)⟩
  rwa [← hliterals]

/-- A false clause stays false under further assignments. -/
theorem Falsified.pushes (h : s.Falsified c) {l : Literal} {r : Option ClauseId}
    (hp : s.Pushes l r next) : next.Falsified c := by
  obtain ⟨iterating, counters, rfl⟩ := hp.next_eq
  refine h.mono (ClauseStore.KeptIn.refl _) fun k hk => ?_
  rw [← Trail.isTrue_negate, Trail.isTrue_push hp.known hp.free, Trail.isTrue_negate]
  exact Or.inr hk

/-- A false clause stays false when a variable is created. -/
theorem Falsified.newVariable (h : s.Falsified c) : s.newVariable.Falsified c := by
  refine h.mono (ClauseStore.KeptIn.refl _) fun l hl => ?_
  exact (Trail.isFalse_grow s.trail l).trans hl

/-- A false clause is false after an undoing exactly if all its literals are of the levels kept. -/
theorem Falsified.undo_iff (h : s.Falsified c) (ht : s.trail.WellFormed) {level : Nat}
    (hok : s.undo level = .ok next) : next.Falsified c ↔
      ∀ clause, s.clauses.get? c = some clause → ∀ l ∈ clause.literals,
        s.trail.level l.var ≤ level := by
  obtain ⟨clause, hc, hall⟩ := h
  obtain ⟨-, rfl⟩ := undo_eq_ok hok
  constructor
  · rintro ⟨clause', hc', hfalse⟩ clause'' hc'' l hl
    obtain rfl : clause'' = clause' := Option.some.inj (hc''.symm.trans hc')
    exact ((ht.isFalse_cut level l).1 (hfalse l hl)).2
  · intro hlevel
    exact ⟨clause, hc, fun l hl => (ht.isFalse_cut level l).2 ⟨hall l hl, hlevel clause hc l hl⟩⟩

/-- Undoing levels does not touch the status. -/
theorem status_of_undo {level : Nat} (hok : s.undo level = .ok next) : next.status = s.status := by
  obtain ⟨-, rfl⟩ := undo_eq_ok hok
  rfl

/-- The rule under which no literal of a pending conflict is undone. -/
def keepsConflict (s : Solver) : Operation → Bool
  | .backtrack level =>
    match s.status with
    | .conflict c =>
      (s.clauses.get? c).all fun clause => clause.literals.all fun l => s.trail.level l.var ≤ level
    | _ => true
  | _ => true

/-- The clause of a pending conflict is false. -/
def ConflictHolds (s : Solver) : Prop := ∀ c, s.status = .conflict c → s.Falsified c

/-- Without a pending conflict there is nothing to hold. -/
theorem ConflictHolds.of_status (h : ∀ c, s.status ≠ .conflict c) : s.ConflictHolds :=
  fun c hc => absurd hc (h c)

/-- A pending conflict holds under further assignments. -/
theorem ConflictHolds.pushes (h : s.ConflictHolds) {l : Literal} {r : Option ClauseId}
    (hp : s.Pushes l r next) : next.ConflictHolds := by
  intro c hc
  refine (h c ?_).pushes hp
  obtain ⟨iterating, counters, rfl⟩ := hp.next_eq
  exact hc

/-- A pending conflict holds when a clause is added. -/
theorem ConflictHolds.adds (h : s.ConflictHolds) {ls : List Literal} (ha : s.Adds ls next) :
    next.ConflictHolds := by
  cases ha with
  | refused _ => exact h
  | dropped _ => exact h
  | refuted _ => exact .of_status fun _ hc => nomatch hc
  | unit _ hp => exact h.pushes hp
  | stored _ _ => exact fun c hc => (h c hc).mono (ClauseStore.keptIn_insert _ _) fun _ hl => hl

/-- Undoing keeps the conflict pending, and it holds if none of its literals is undone. -/
theorem ConflictHolds.backtrack (h : s.ConflictHolds) (ht : s.trail.WellFormed) {level : Nat}
    (hkeeps : s.keepsConflict (.backtrack level) = true)
    (hundo : s.undo level = .ok next) : next.ConflictHolds := by
  intro c hc
  rw [status_of_undo hundo] at hc
  refine ((h c hc).undo_iff ht hundo).2 fun clause hclause l hl => ?_
  unfold keepsConflict at hkeeps
  rw [hc] at hkeeps
  simp only [hclause, Option.all_some, List.all_eq_true, decide_eq_true_eq] at hkeeps
  exact hkeeps l hl

/-- An operation that undoes no literal of a pending conflict keeps it false. -/
theorem ConflictHolds.perform (h : s.ConflictHolds) (hs : s.Guided) (haudit : s.audit = .full)
    {op : Operation} (hkeeps : s.keepsConflict op = true) (hok : s.perform op = .ok next) :
    next.ConflictHolds := by
  cases performs_of_perform hok with
  | newVariable => exact fun c hc => (h c hc).newVariable
  | addClause _ hadds => exact h.adds hadds
  | decide hready _ _ => exact .of_status fun c hc => nomatch hready.symm.trans hc
  | nextDecision _ => exact h
  | assign hpushes => exact h.pushes hpushes
  | ignored _ => exact h
  | declared _ hfalse =>
    intro d hd
    obtain rfl := Status.conflict.inj hd
    exact hfalse haudit
  | analyse hanalyse => exact .of_status (hs.analyse_ensures _ hanalyse).2
  | backtrack hundo => exact h.backtrack hs.trail hkeeps hundo
  | removeFromQueue _ => exact h
  | iterate => exact h

/-- Along a run that keeps its conflicts, what is pending holds. -/
theorem Run.conflictHolds {start : Solver} {ops : List Operation}
    (hrun : Run keepsConflict start ops s) (hstart : start.Guided) (haudit : start.audit = .full)
    (hready : start.status = .ready) : s.ConflictHolds := by
  induction hrun with
  | start => exact .of_status fun _ hc => nomatch hready.symm.trans hc
  | step hrun hkeeps hperform ih =>
    obtain ⟨hs, hsame⟩ := hrun.guided hstart
    exact ih.perform hs (hsame.trans haudit) hkeeps hperform

/-- Where everything is checked and no literal of a pending conflict is undone, a pending conflict
is a false clause. Undoing levels leaves it pending, and it stays false exactly if no literal of it
is undone. -/
theorem Run.conflict_falsified {o : Options} {proof : ProofLog} {start : Solver}
    {ops : List Operation} (hnew : Solver.new o .full proof = .ok start)
    (hrun : Run keepsConflict start ops s) (hstatus : s.status = .conflict c) :
    s.Falsified c ∧ ∀ level undone, (s.backtrack level).result = .ok undone →
      undone.status = .conflict c ∧ (undone.Falsified c ↔
        ∀ clause, s.clauses.get? c = some clause → ∀ l ∈ clause.literals,
          s.trail.level l.var ≤ level) := by
  obtain rfl := eq_empty_of_new hnew
  have hstart := guided_empty o .full proof
  have hfalse := hrun.conflictHolds hstart rfl rfl c hstatus
  refine ⟨hfalse, fun level undone hok => ?_⟩
  have hundo := undo_of_backtrack hok
  exact ⟨(status_of_undo hundo).trans hstatus,
    hfalse.undo_iff (hrun.guided hstart).1.trail hundo⟩

/-- A conflict of the first level is declared on the second one, which is undone. -/
def keepingRun : List Operation :=
  [.newVariable, .newVariable, .newVariable, .addClause [⟨0, true⟩, ⟨1, true⟩],
    .addClause [⟨0, true⟩, ⟨1, false⟩], .decide ⟨0, false⟩, .assign ⟨1, true⟩ (some 0),
    .decide ⟨2, true⟩, .declareConflict 1, .backtrack 1]

/-- After the run a conflict is pending, and its clause is false. -/
theorem keepingRun_conflict_falsified : ∃ s,
    runBy keepsConflict (Solver.empty {} .full ⟨none⟩) keepingRun = some s ∧
      s.status = .conflict 1 ∧ s.Falsified 1 := by
  have hnew : Solver.new {} .full ⟨none⟩ = .ok (Solver.empty {} .full ⟨none⟩) := rfl
  have hend : ((runBy keepsConflict (Solver.empty {} .full ⟨none⟩) keepingRun).map
      Solver.status) = some (.conflict 1) := by decide +kernel
  obtain ⟨s, hrun, hstatus⟩ := Option.map_eq_some_iff.1 hend
  exact ⟨s, hrun, hstatus,
    (Run.conflict_falsified hnew (Run.start.of_runBy hrun) hstatus).1⟩

/-- A conflict of the first level is declared there, and the level is undone. -/
def staleRun : List Operation :=
  [.newVariable, .newVariable, .addClause [⟨0, true⟩, ⟨1, true⟩],
    .addClause [⟨0, true⟩, ⟨1, false⟩], .decide ⟨0, false⟩, .assign ⟨1, true⟩ (some 0),
    .declareConflict 1, .backtrack 0]

/-- A conflict can be pending that is not false, and its analysis refutes clauses that have a
model. -/
theorem staleRun_conflict_not_falsified :
    (∃ s, runBy unrestricted (Solver.empty {} .full ⟨none⟩) staleRun = some s ∧
      s.isConflicting = true ∧ s.status = .conflict 1 ∧ ¬ s.Falsified 1) ∧
    (∃ s, runBy unrestricted (Solver.empty {} .full ⟨none⟩) (staleRun ++ [.analyse]) = some s ∧
      s.isUnsatisfiable = true) ∧
    Models (fun _ => true) [[⟨0, true⟩, ⟨1, true⟩], [⟨0, true⟩, ⟨1, false⟩]] := by
  have hstale : ((runBy unrestricted (Solver.empty {} .full ⟨none⟩) staleRun).map fun s =>
      (s.isConflicting, s.status, accepts (s.trail.holdsConflict s.clauses 1).result)) =
        some (true, .conflict 1, false) := by decide +kernel
  have hrefuted : ((runBy unrestricted (Solver.empty {} .full ⟨none⟩)
      (staleRun ++ [.analyse])).map Solver.isUnsatisfiable) = some true := by decide +kernel
  obtain ⟨s, hrun, hend⟩ := Option.map_eq_some_iff.1 hstale
  simp only [Prod.mk.injEq] at hend
  obtain ⟨hconflicting, hstatus, hrejects⟩ := hend
  refine ⟨⟨s, hrun, hconflicting, hstatus, fun hfalse => ?_⟩,
    Option.map_eq_some_iff.1 hrefuted, ?_⟩
  · rw [accepts_iff.2 (Trail.holdsConflict_iff.2 hfalse)] at hrejects
    cases hrejects
  · intro ls hls
    simp only [List.mem_cons, List.not_mem_nil, or_false] at hls
    rcases hls with rfl | rfl
    · exact ⟨⟨0, true⟩, List.mem_cons_self, rfl⟩
    · exact ⟨⟨0, true⟩, List.mem_cons_self, rfl⟩

end Solver

end ClauseLearning
