import ClauseLearning.Proofs.Solver.Guidance

/-!
# Decisions along a run

In every state that operations lead to, in whatever order, the decision queue holds the variables
that were created and not taken out, and those in front of its cursor are assigned. So the search
from the cursor finds the free variable that was moved to the front most recently, and finds none
exactly if all queued variables are assigned.
-/

set_option autoImplicit false

namespace ClauseLearning

namespace DecisionQueue.Represents

variable {q : DecisionQueue} {vs : List Variable} {t : Trail}

/-- What a walk meets before the cursor is in front of it by its stamp, hence passed. -/
theorem of_mem_beforeCursor (h : q.Represents vs) {P : Variable → Prop} (hpassed : q.Passed vs P)
    {v : Variable} (hv : v ∈ q.beforeCursor) : P v := by
  obtain ⟨hmem, hfront⟩ := h.inFront_of_mem_beforeCursor hv
  exact hpassed v hmem hfront

/-- Of the free variables, the one that the search finds was moved to the front last. -/
theorem latest_of_next (h : q.Represents vs) (hknown : ∀ v ∈ vs, v < t.numVariables)
    (hpassed : q.Passed vs fun v => t.isAssigned v = true) {queue : DecisionQueue}
    {found : Option Variable} (hok : q.next t = .ok (queue, found)) :
    (found = none ↔ ∀ v ∈ vs, t.isAssigned v = true) ∧
      ∀ v, found = some v → v ∈ vs ∧ t.isAssigned v = false ∧
        ∀ w ∈ vs, t.isAssigned w = false → w ≠ v → q.stamp w < q.stamp v := by
  obtain ⟨found', hok', -, hpassed', hsome, hnone⟩ := h.next_spec hknown hpassed
  obtain ⟨-, rfl⟩ := Prod.mk.inj (Except.ok.inj (hok.symm.trans hok'))
  refine ⟨⟨hnone, fun hall => ?_⟩, fun v hv => ?_⟩
  · refine Option.eq_none_iff_forall_ne_some.2 fun v hv => ?_
    obtain ⟨hmem, hfree⟩ := hsome v hv
    rw [hall v hmem] at hfree
    cases hfree
  · obtain ⟨hmem, hfree⟩ := hsome v hv
    refine ⟨hmem, hfree, fun w hw hwfree hne => ?_⟩
    -- a free variable moved later would stand in front of the new cursor
    have hle : q.stamp w ≤ q.stamp v := by
      refine Nat.le_of_not_lt fun hlt => ?_
      have hassigned : t.isAssigned w = true := by
        refine hpassed' w hw fun c hc => ?_
        obtain rfl : v = c := Option.some.inj (hv.symm.trans hc)
        exact hlt
      rw [hassigned] at hwfree
      cases hwfree
    exact Nat.lt_of_le_of_ne hle fun heq => hne (h.eq_of_stamp_eq hw hmem heq)

end DecisionQueue.Represents

namespace Solver

variable {s next : Solver} {ops : List Operation}

/-- The queue holds the variables that were created and not taken out. -/
structure Arranged (ops : List Operation) (s : Solver) : Prop extends Guided s where
  queued : ∀ v, v ∈ s.heuristic.queue.toList ↔
    v < s.numVariables ∧ Operation.removeFromQueue v ∉ ops
  removed : ∀ v, Operation.removeFromQueue v ∈ ops → v < s.numVariables

namespace Arranged

/-- In a new solver nothing is queued. -/
theorem empty (o : Options) (audit : AuditLevel) (proof : ProofLog) :
    Arranged [] (Solver.empty o audit proof) where
  toGuided := guided_empty o audit proof
  queued := by
    intro v
    have hnil : (Solver.empty o audit proof).heuristic.queue.toList = [] := rfl
    rw [hnil]
    exact iff_of_false List.not_mem_nil fun hv => Nat.not_lt_zero v hv.1
  removed := fun v hv => absurd hv List.not_mem_nil

/-- A new variable comes into the queue; it was not taken out before. -/
theorem newVariable (h : Arranged ops s) : Arranged (ops ++ [.newVariable]) s.newVariable where
  toGuided := h.toGuided.newVariable
  queued := by
    intro v
    have hqueue : s.newVariable.heuristic.queue.toList =
        s.numVariables :: s.heuristic.queue.toList := h.serves.grow.2
    rw [hqueue, List.mem_cons, h.queued, Coherent.numVariables_newVariable]
    have hnew : Operation.removeFromQueue s.numVariables ∉ ops := fun hmem =>
      Nat.lt_irrefl _ (h.removed _ hmem)
    constructor
    · rintro (rfl | ⟨hlt, hmem⟩)
      · exact ⟨Nat.lt_succ_self _, by simpa using hnew⟩
      · exact ⟨Nat.lt_succ_of_lt hlt, by simpa using hmem⟩
    · rintro ⟨hlt, hmem⟩
      refine (Nat.lt_succ_iff_lt_or_eq.1 hlt).symm.imp id fun hlt => ⟨hlt, ?_⟩
      simpa using hmem
  removed := by
    intro v hv
    rw [Coherent.numVariables_newVariable]
    exact Nat.lt_succ_of_lt (h.removed v (by simpa using hv))

/-- A variable that is taken out is not queued any more. -/
theorem removeFromQueue (h : Arranged ops s) {v : Variable}
    (hok : s.removeFromQueue v = .ok next) : Arranged (ops ++ [.removeFromQueue v]) next := by
  have hguided := h.toGuided.removeFromQueue hok
  have hknown := h.known_of_removeFromQueue hok
  obtain ⟨-, rfl⟩ := next_of_removeFromQueue hok
  refine ⟨hguided, fun w => ?_, fun w hw => ?_⟩
  · show w ∈ (s.heuristic.queue.remove v).toList ↔ w < s.numVariables ∧ _
    rw [(h.serves.remove v).2, h.serves.ordered.nodup.mem_erase_iff, h.queued]
    simp only [List.mem_append, List.mem_singleton, Operation.removeFromQueue.injEq, not_or]
    exact ⟨fun hw => ⟨hw.2.1, hw.2.2, hw.1⟩, fun hw => ⟨hw.2.2, hw.1, hw.2.1⟩⟩
  · show w < s.numVariables
    simp only [List.mem_append, List.mem_singleton, Operation.removeFromQueue.injEq] at hw
    rcases hw with hw | rfl
    · exact h.removed w hw
    · exact hknown

/-- Steps that create and take out nothing. -/
theorem steers (h : Arranged ops s) (hs : s.Steers next) {op : Operation}
    (hremove : ∀ v, op ≠ .removeFromQueue v) : Arranged (ops ++ [op]) next := by
  have hsame : ∀ v, Operation.removeFromQueue v ∈ ops ++ [op] ↔ .removeFromQueue v ∈ ops := by
    intro v
    rw [List.mem_append, List.mem_singleton, or_iff_left fun heq => hremove v heq.symm]
  refine ⟨hs.guided, fun v => ?_, fun v hv => ?_⟩
  · rw [hs.queued, hs.numVariables_eq, hsame, h.queued]
  · rw [hs.numVariables_eq]
    exact h.removed v ((hsame v).1 hv)

/-- Every operation keeps the queue arranged. -/
theorem perform (h : Arranged ops s) {op : Operation} (hok : s.perform op = .ok next) :
    Arranged (ops ++ [op]) next := by
  cases op with
  | newVariable =>
    obtain rfl := createVariable_eq_ok hok
    exact h.newVariable
  | removeFromQueue v => exact h.removeFromQueue hok
  | addClause | decide | nextDecision | assign | declareConflict | analyse | backtrack | iterate =>
    refine h.steers (h.toGuided.steers_of_perform ?_ ?_ hok) ?_
    all_goals simp

end Arranged

/-- Along a run the queue stays arranged. -/
theorem Run.arranged {allows : Solver → Operation → Bool} {start : Solver}
    (h : Run allows start ops s) (hstart : Arranged [] start) : Arranged ops s := by
  induction h with
  | start => exact hstart
  | step _ _ hperform ih => exact ih.perform hperform

/-- What decisions rest on after some operations: the queued variables are those created and not
taken out, and the way from the front over them to the back ends; the cursor stands on one of them
or nowhere, and those in front of it are assigned. The next decision is the positive literal of the
free queued variable that was moved to the front last, and there is none exactly if all queued
variables are assigned. -/
structure DecidesLatest (ops : List Operation) (s : Solver) : Prop where
  queued : ∀ v, v ∈ s.heuristic.queue.toList ↔
    v < s.numVariables ∧ Operation.removeFromQueue v ∉ ops
  walk_ends : DecisionQueue.walk s.heuristic.queue.links s.heuristic.queue.links.size
    s.heuristic.queue.front = .ok s.heuristic.queue.toList
  cursor_mem : ∀ c, s.heuristic.queue.cursor = some c → c ∈ s.heuristic.queue.toList
  passed : ∀ v ∈ s.heuristic.queue.beforeCursor, s.trail.isAssigned v = true
  exhausted : s.heuristic.queue.cursor = none →
    ∀ v ∈ s.heuristic.queue.toList, s.trail.isAssigned v = true
  latest : ∃ searched decision, s.nextDecision = .ok (searched, decision) ∧
    (decision = none ↔ ∀ v ∈ s.heuristic.queue.toList, s.trail.isAssigned v = true) ∧
    ∀ l, decision = some l → l.positive = true ∧ Operation.removeFromQueue l.var ∉ ops ∧
      l.var ∈ s.heuristic.queue.toList ∧ s.trail.isAssigned l.var = false ∧
      ∀ v ∈ s.heuristic.queue.toList, s.trail.isAssigned v = false → v ≠ l.var →
        s.heuristic.queue.stamp v < s.heuristic.queue.stamp l.var

/-- An arranged queue decides the variable that was moved to the front last. -/
theorem Arranged.decidesLatest (h : Arranged ops s) : DecidesLatest ops s := by
  have hserves := h.serves
  obtain ⟨queue, found, hok, -⟩ := hserves.exists_next
  obtain ⟨hnone, hsome⟩ := hserves.ordered.latest_of_next
    (fun v hv => hserves.lt_numVariables hv) hserves.passed hok
  refine ⟨h.queued, hserves.ordered.walk_front_eq, hserves.ordered.cursor_mem,
    fun v hv => hserves.ordered.of_mem_beforeCursor hserves.passed hv, fun hnowhere v hv => ?_,
    _, found.map fun v => ⟨v, true⟩, Fault.bind_eq_ok_iff.2 ⟨_, hok, rfl⟩, ?_, fun l hl => ?_⟩
  · refine hserves.passed v hv fun c hc => ?_
    rw [hnowhere] at hc
    cases hc
  · rw [Option.map_eq_none_iff]
    exact hnone
  · obtain ⟨v, hv, rfl⟩ := Option.map_eq_some_iff.1 hl
    obtain ⟨hmem, hfree, hlatest⟩ := hsome v hv
    exact ⟨rfl, ((h.queued v).1 hmem).2, hmem, hfree, hlatest⟩

/-- In every state that operations lead to from a new solver, decisions follow the queue. -/
theorem Run.decides_latest {o : Options} {audit : AuditLevel} {proof : ProofLog}
    {start : Solver} (hnew : Solver.new o audit proof = .ok start)
    (hrun : Run unrestricted start ops s) : DecidesLatest ops s := by
  obtain rfl := eq_empty_of_new hnew
  exact (hrun.arranged (.empty o audit proof)).decidesLatest

/-- A conflict is analysed, which moves two variables to the front, and of the other two the one
that would be decided next is taken out. -/
def removingRun : List Operation :=
  [.newVariable, .newVariable, .newVariable, .newVariable, .addClause [⟨0, true⟩, ⟨1, true⟩],
    .addClause [⟨0, true⟩, ⟨1, false⟩], .decide ⟨0, false⟩, .assign ⟨1, true⟩ (some 0),
    .declareConflict 1, .analyse, .assign ⟨1, false⟩ none, .nextDecision, .removeFromQueue 3]

/-- After the run three variables are queued, and the cursor stands on the last one. -/
theorem removingRun_decides_latest : ∃ s,
    runBy unrestricted (Solver.empty {} .basic ⟨none⟩) removingRun = some s ∧
      DecidesLatest removingRun s ∧ s.heuristic.queue.toList = [1, 0, 2] ∧
      s.heuristic.queue.cursor = some 2 := by
  have hnew : Solver.new {} .basic ⟨none⟩ = .ok (Solver.empty {} .basic ⟨none⟩) := rfl
  have hend : ((runBy unrestricted (Solver.empty {} .basic ⟨none⟩) removingRun).map fun s =>
      (s.heuristic.queue.toList, s.heuristic.queue.cursor)) = some ([1, 0, 2], some 2) := by
    decide +kernel
  obtain ⟨s, hrun, hend⟩ := Option.map_eq_some_iff.1 hend
  obtain ⟨hqueue, hcursor⟩ := Prod.mk.inj hend
  exact ⟨s, hrun, Run.decides_latest hnew (Run.start.of_runBy hrun), hqueue, hcursor⟩

end Solver

end ClauseLearning
