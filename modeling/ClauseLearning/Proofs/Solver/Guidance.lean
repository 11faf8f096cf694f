import ClauseLearning.Proofs.Solver.Phases
import ClauseLearning.Proofs.Solver.Run

/-!
# The heuristic along unrestricted runs

A solver is *guided* if its trail is well formed and its heuristic serves the trail. No operation
that succeeds can break this, whatever the caller does: reasons may be made up and any clause may be
declared false. The analysis in particular is guided by what it does to the trail only, which is one
jump and one assignment, and by its bumps.

A run performs operations that a rule allows; the rule that allows all of them gives the runs in
which merely nothing faults. Along such a run the queue holds the variables that were created and
not taken out, those in front of the cursor are assigned, and the next decision is the free variable
that was moved to the front most recently.
-/

set_option autoImplicit false

namespace ClauseLearning

namespace Heuristic.Serves

variable {h : Heuristic} {t : Trail}

/-- A bump that succeeds keeps the queued variables. -/
theorem bump_ensures (hs : h.Serves t) (v : Variable) :
    (h.bump v (t.isAssigned v)).Ensures fun next =>
      next.Serves t ∧ ∀ x, x ∈ next.queue.toList ↔ x ∈ h.queue.toList := by
  intro next hok
  refine (hs.bump_yields ?_).of_result hok
  unfold Heuristic.bump at hok
  obtain ⟨queue, hbump, -⟩ := Traced.result_bind_eq_ok_iff.1 hok
  rw [← hs.places]
  exact (DecisionQueue.bumpKnown_eq_ok hbump).1

end Heuristic.Serves

namespace Solver

/-- The trail is well formed, and the heuristic serves it. -/
structure Guided (s : Solver) : Prop where
  trail : s.trail.WellFormed
  serves : s.heuristic.Serves s.trail

/-- A new solver is guided. -/
theorem guided_empty (o : Options) (audit : AuditLevel) (proof : ProofLog) :
    (Solver.empty o audit proof).Guided :=
  ⟨Trail.wellFormed_empty, Heuristic.Serves.start o.decay⟩

variable {s next : Solver}

/-- The solver after a step that creates no variable and takes none out of the queue. -/
structure Steers (s next : Solver) : Prop where
  guided : next.Guided
  numVariables_eq : next.numVariables = s.numVariables
  queued : ∀ v, v ∈ next.heuristic.queue.toList ↔ v ∈ s.heuristic.queue.toList
  audit_eq : next.audit = s.audit

namespace Steers

/-- Steering twice is steering. -/
theorem trans {mid : Solver} (h : s.Steers mid) (h' : mid.Steers next) : s.Steers next :=
  ⟨h'.guided, h'.numVariables_eq.trans h.numVariables_eq,
    fun v => (h'.queued v).trans (h.queued v), h'.audit_eq.trans h.audit_eq⟩

/-- A step that touches neither trail nor heuristic. -/
theorem of_eq (h : s.Guided) (htrail : next.trail = s.trail)
    (hheuristic : next.heuristic = s.heuristic) (haudit : next.audit = s.audit) :
    s.Steers next := by
  refine ⟨⟨?_, ?_⟩, congrArg Trail.numVariables htrail, fun v => ?_, haudit⟩
  · rw [htrail]
    exact h.trail
  · rw [htrail, hheuristic]
    exact h.serves
  · rw [hheuristic]

end Steers

namespace Guided

/-- An assignment steers. -/
theorem pushes (h : s.Guided) {l : Literal} {r : Option ClauseId} (hp : s.Pushes l r next) :
    s.Steers next := by
  obtain ⟨iterating, counters, rfl⟩ := hp.next_eq
  exact ⟨⟨h.trail.push r hp.known hp.free, h.serves.push hp.known r⟩,
    Trail.numVariables_push s.trail l r, fun _ => Iff.rfl, rfl⟩

/-- A decision steers. -/
theorem decide (h : s.Guided) {l : Literal} (hknown : l.var < s.numVariables)
    (hfree : s.trail.isAssigned l.var = false) :
    s.Steers (s.withTrail (s.trail.openLevel.push l none)) := by
  exact ⟨⟨h.trail.push_openLevel hknown hfree, h.serves.openLevel.push hknown none⟩,
    Trail.numVariables_push s.trail.openLevel l none, fun _ => Iff.rfl, rfl⟩

/-- Undoing levels steers. -/
theorem undo (h : s.Guided) {level : Nat} (hok : s.undo level = .ok next) : s.Steers next := by
  obtain ⟨-, rfl⟩ := undo_eq_ok hok
  obtain ⟨hserves, hqueue⟩ := h.serves.release h.trail level
  refine ⟨⟨h.trail.cut level, hserves⟩, Trail.numVariables_cut s.trail level, fun v => ?_, rfl⟩
  rw [hqueue]

/-- Adding a clause steers. -/
theorem adds (h : s.Guided) {ls : List Literal} (ha : s.Adds ls next) : s.Steers next := by
  cases ha with
  | refused _ => exact .of_eq h rfl rfl rfl
  | dropped _ => exact .of_eq h rfl rfl rfl
  | refuted _ => exact .of_eq h rfl rfl rfl
  | unit _ hp => exact h.pushes hp
  | stored _ _ => exact .of_eq h rfl rfl rfl

/-- A search for a decision moves the cursor only. -/
theorem search (h : s.Guided) {queue : DecisionQueue} {found : Option Variable}
    (hok : s.heuristic.queue.next s.trail = .ok (queue, found)) :
    s.Steers { s with heuristic := { s.heuristic with queue := queue } } := by
  obtain ⟨hserves, hqueue⟩ := h.serves.of_next hok
  refine ⟨⟨h.trail, hserves⟩, rfl, fun v => ?_, rfl⟩
  rw [hqueue]

/-! ## An analysis -/

/-- Bumps keep the queued variables, one after the other. -/
theorem bumpAll_ensures (h : s.Guided) (ls : List Literal) :
    (s.bumpAll ls).Ensures s.Steers := by
  induction ls generalizing s with
  | nil => exact .pure (.of_eq h rfl rfl rfl)
  | cons l ls ih =>
    unfold bumpAll
    refine .bind .any fun _ _ => .bind .any fun _ _ => .bind .any fun _ _ => ?_
    refine .bind (h.serves.bump_ensures l.var) ?_
    rintro heuristic ⟨hserves, hqueue⟩
    have hbumped : s.Steers { s with
        heuristic := heuristic, workspace := s.workspace.unmarkSeen l.var } :=
      ⟨⟨h.trail, hserves⟩, rfl, hqueue, rfl⟩
    exact (ih hbumped.guided).mono fun _ => hbumped.trans

/-- Bumping what was met steers. -/
theorem bumpSeen_ensures (h : s.Guided) : s.bumpSeen.Ensures s.Steers := by
  unfold bumpSeen
  refine .bind .any fun sequence _ => .bind (h.bumpAll_ensures sequence) fun bumped hbumped => ?_
  have hdecay : bumped.heuristic.decay.Ensures fun heuristic =>
      heuristic.Serves bumped.trail ∧ heuristic.queue = bumped.heuristic.queue :=
    fun _ hok => hbumped.guided.serves.decay_yields.of_result hok
  refine .bind hdecay ?_
  rintro heuristic ⟨hserves, hsame⟩
  refine .pure (hbumped.trans ⟨⟨hbumped.guided.trail, hserves⟩, rfl, fun v => ?_, rfl⟩)
  exact hsame ▸ Iff.rfl

/-- Learning from any clause, false or not, jumps back and asserts a literal. -/
theorem learns (h : s.Guided) {c : ClauseId} {learned : Learned}
    (hok : (s.learn c).result = .ok (next, learned)) : s.Steers next := by
  obtain ⟨prepared, undone, asserted, bumped, ⟨_, _, _, _, heq⟩, hundo, hpushes, hbump, rfl⟩ :=
    (phases_of_learn hok).jumps
  have hprepared : s.Steers prepared := .of_eq h (by rw [heq]) (by rw [heq]) (by rw [heq])
  have hundone := hprepared.guided.undo hundo
  have hasserted := hundone.guided.pushes hpushes
  have hbumped := hasserted.guided.bumpSeen_ensures bumped hbump
  have hcleared : bumped.Steers bumped.clearWorkspace := .of_eq hbumped.guided rfl rfl rfl
  exact (((hprepared.trans hundone).trans hasserted).trans hbumped).trans hcleared

/-- After an analysis no conflict is pending. -/
theorem analyse_ensures (h : s.Guided) :
    s.analyse.Ensures fun (next, _) => s.Steers next ∧ ∀ c, next.status ≠ .conflict c := by
  rintro ⟨next, outcome⟩ hok
  have hcourse := course_of_analyse hok
  cases hcourse with
  | repeated hunsat => exact ⟨.of_eq h rfl rfl rfl, fun c hc => by simp [hunsat] at hc⟩
  | refuted _ _ => exact ⟨.of_eq h rfl rfl rfl, fun c hc => nomatch hc⟩
  | @learned c mid _ _ _ hlearn =>
    have hcounted : s.Steers s.countConflict := .of_eq h rfl rfl rfl
    have hlearned := hcounted.guided.learns hlearn
    have hready : mid.Steers { mid with status := .ready } := .of_eq hlearned.guided rfl rfl rfl
    exact ⟨(hcounted.trans hlearned).trans hready, fun c hc => nomatch hc⟩

/-! ## All operations -/

/-- A new variable keeps the solver guided. -/
theorem newVariable (h : s.Guided) : s.newVariable.Guided := ⟨h.trail.grow, h.serves.grow.1⟩

/-- Taking a variable out of the queue keeps the solver guided. -/
theorem removeFromQueue (h : s.Guided) {v : Variable} (hok : s.removeFromQueue v = .ok next) :
    next.Guided := by
  obtain ⟨-, rfl⟩ := next_of_removeFromQueue hok
  exact ⟨h.trail, (h.serves.remove v).1⟩

/-- Only a variable that was created can be taken out of the queue. -/
theorem known_of_removeFromQueue (h : s.Guided) {v : Variable}
    (hok : s.removeFromQueue v = .ok next) : v < s.numVariables := by
  rw [numVariables, ← h.serves.places]
  exact (next_of_removeFromQueue hok).1

/-- Apart from those that create a variable or take one out, operations keep the queued
variables. -/
theorem steers_of_perform (h : s.Guided) {op : Operation} (hnew : op ≠ .newVariable)
    (hremove : ∀ v, op ≠ .removeFromQueue v) (hok : s.perform op = .ok next) : s.Steers next := by
  cases performs_of_perform hok with
  | newVariable => exact absurd rfl hnew
  | @removeFromQueue v _ => exact absurd rfl (hremove v)
  | addClause _ hadds => exact h.adds hadds
  | decide _ hknown hfree => exact h.decide hknown hfree
  | nextDecision hnext => exact h.search hnext
  | assign hpushes => exact h.pushes hpushes
  | ignored _ => exact .of_eq h rfl rfl rfl
  | declared _ _ => exact .of_eq h rfl rfl rfl
  | analyse hanalyse => exact (h.analyse_ensures _ hanalyse).1
  | backtrack hundo => exact h.undo hundo
  | iterate => exact .of_eq h rfl rfl rfl

/-- No operation that succeeds breaks the guidance or changes how much is checked. -/
theorem perform (h : s.Guided) {op : Operation} (hok : s.perform op = .ok next) :
    next.Guided ∧ next.audit = s.audit := by
  by_cases hnew : op = .newVariable
  · subst hnew
    obtain rfl := createVariable_eq_ok hok
    exact ⟨h.newVariable, rfl⟩
  by_cases hremove : ∃ v, op = .removeFromQueue v
  · obtain ⟨v, rfl⟩ := hremove
    refine ⟨h.removeFromQueue hok, ?_⟩
    obtain ⟨-, rfl⟩ := next_of_removeFromQueue hok
    rfl
  · have hsteers := h.steers_of_perform hnew (fun v heq => hremove ⟨v, heq⟩) hok
    exact ⟨hsteers.guided, hsteers.audit_eq⟩

end Guided

/-! ## Runs under a rule -/

/-- The states that operations lead to, each allowed by a rule where it is performed, with the list
of these operations. -/
inductive Run (allows : Solver → Operation → Bool) (start : Solver) :
    List Operation → Solver → Prop where
  | start : Run allows start [] start
  | step {ops : List Operation} {s next : Solver} {op : Operation} : Run allows start ops s →
      allows s op = true → s.perform op = .ok next → Run allows start (ops ++ [op]) next

/-- The rule that allows every operation. -/
def unrestricted (_ : Solver) (_ : Operation) : Bool := true

/-- Perform operations as long as a rule allows them. -/
def runBy (allows : Solver → Operation → Bool) (s : Solver) : List Operation → Option Solver
  | [] => some s
  | op :: ops =>
    match allows s op, s.perform op with
    | true, .ok next => runBy allows next ops
    | _, _ => none

/-- Operations performed one after the other extend a run. -/
theorem Run.of_runBy {allows : Solver → Operation → Bool} {start s' : Solver}
    {before ops : List Operation} (h : Run allows start before s)
    (hrun : runBy allows s ops = some s') : Run allows start (before ++ ops) s' := by
  induction ops generalizing before s with
  | nil =>
    obtain rfl := Option.some.inj hrun
    rwa [List.append_nil]
  | cons op ops ih =>
    unfold runBy at hrun
    split at hrun
    next next hallows hperform =>
      rw [List.append_cons]
      exact ih (h.step hallows hperform) hrun
    next => cases hrun

/-- Along every run the solver stays guided, and checks as much as it did at first. -/
theorem Run.guided {allows : Solver → Operation → Bool} {start : Solver} {ops : List Operation}
    (h : Run allows start ops s) (hstart : start.Guided) : s.Guided ∧ s.audit = start.audit := by
  induction h with
  | start => exact ⟨hstart, rfl⟩
  | step _ _ hperform ih =>
    obtain ⟨hnext, haudit⟩ := ih.1.perform hperform
    exact ⟨hnext, haudit.trans ih.2⟩

end Solver

end ClauseLearning
