import ClauseLearning.Proofs.Search.Moves
import ClauseLearning.Proofs.Solver.Cleanliness
import ClauseLearning.Proofs.Trail.Undoing

/-!
# Excursions above a level

An excursion from a state decides, assigns, searches for decisions and undoes levels, always above
the level of that state. Whatever happens on the way, undoing down to the level brings back the
assignment that was there.

What an excursion changes is the trail above the level, the positions that free variables keep, and
the cursor of the decision queue. The cursor need not come back to its place. But it never passes a
free variable, so the search from it finds the first free variable of the whole queue, wherever it
stands; hence the next decision is the one that would have been made in the first place.
-/

set_option autoImplicit false

namespace ClauseLearning

namespace DecisionQueue

/-- The search from the cursor finds the first free variable of the whole queue. -/
theorem Represents.next_eq_find? {q : DecisionQueue} {vs : List Variable} {t : Trail}
    (h : q.Represents vs) (hknown : ∀ v ∈ vs, v < t.numVariables)
    (hpassed : q.Passed vs fun v => t.isAssigned v = true) :
    q.next t = .ok ({ q with cursor := vs.find? fun v => !t.isAssigned v },
      vs.find? fun v => !t.isAssigned v) := by
  obtain ⟨before, after, hsplit, hwalk, hbefore⟩ := h.exists_split_cursor
  have hafter : ∀ v ∈ after, v < t.numVariables := fun v hv => hknown v (by simp [hsplit, hv])
  have hnone : (before.find? fun v => !t.isAssigned v) = none := by
    rw [List.find?_eq_none]
    intro v hv
    simpa using hpassed v (by simp [hsplit, hv]) (hbefore v hv)
  rw [next_eq t hwalk, Trail.firstUnassigned_eq_find? hafter, hsplit, List.find?_append, hnone,
    Option.none_or]
  rfl

end DecisionQueue

namespace Solver

/-- The rule of an excursion above a level: literals are decided, literals are assigned except on
the level itself, decisions are searched for, and neither the level nor one below it is undone. -/
def excursion (level : Nat) (s : Solver) : Operation → Bool
  | .decide _ => true
  | .nextDecision => true
  | .assign _ _ => s.currentLevel != level
  | .backtrack lower => level ≤ lower
  | _ => false

/-- The solver with another trail and another cursor. -/
def relocate (s : Solver) (t : Trail) (cursor : Option Variable) : Solver :=
  { s with
    trail := t
    heuristic := { s.heuristic with queue := { s.heuristic.queue with cursor := cursor } } }

/-- What is between two states of an excursion: the levels up to the first one's are the same, and
nothing but trail and cursor differs. -/
structure Strays (s mid : Solver) : Prop where
  relocates : ∃ t cursor, mid = s.relocate t cursor
  level_le : s.currentLevel ≤ mid.currentLevel
  below : s.trail.SameAssignment (mid.trail.cut s.currentLevel)

variable {s mid next start : Solver} {ops further : List Operation}

/-- Above the root an assignment changes the trail only. -/
theorem next_of_assign {l : Literal} {r : Option ClauseId} (hlevel : s.currentLevel ≠ 0)
    (hok : (s.assign l r).result = .ok next) : next = s.withTrail (s.trail.push l r) := by
  unfold assign imply at hok
  obtain ⟨_, -, hok⟩ := Traced.result_bind_eq_ok_iff.1 hok
  obtain ⟨t, hassign, hok⟩ := Traced.result_bind_eq_ok_iff.1 hok
  obtain ⟨-, -, rfl⟩ := Trail.assign_eq_ok_iff.1 hassign
  rw [if_neg hlevel] at hok
  exact (Except.ok.inj hok).symm

namespace Strays

/-- An excursion that goes nowhere does not stray. -/
theorem refl (s : Solver) : s.Strays s where
  relocates := ⟨s.trail, s.heuristic.queue.cursor, rfl⟩
  level_le := Nat.le_refl _
  below := by
    show s.trail.SameAssignment (s.trail.cut s.trail.currentLevel)
    rw [Trail.cut_currentLevel]
    exact .refl s.trail

/-- A literal is assigned above the level, or decided. -/
theorem opens (h : s.Strays mid) (hmid : mid.trail.WellFormed) {l : Literal} {u : Trail}
    {r : Option ClauseId} (hopens : mid.trail.Opens u r) (hl : l.var < mid.numVariables)
    (hfree : mid.trail.isAssigned l.var = false) (hlevel : s.currentLevel < u.currentLevel) :
    s.Strays (mid.withTrail (u.push l r)) where
  relocates := by
    obtain ⟨_, cursor, rfl⟩ := h.relocates
    exact ⟨u.push l r, cursor, rfl⟩
  level_le := Nat.le_of_lt hlevel
  below := h.below.trans (hopens.cut_push hmid hl hfree h.level_le hlevel)

/-- Levels above the level are undone. -/
theorem undo (h : s.Strays mid) (hmid : mid.trail.WellFormed) {level : Nat}
    (hlevel : s.currentLevel ≤ level) (hundo : mid.undo level = .ok next) : s.Strays next := by
  obtain ⟨-, rfl⟩ := undo_eq_ok hundo
  refine ⟨?_, ?_, ?_⟩
  · obtain ⟨_, _, rfl⟩ := h.relocates
    unfold Heuristic.release
    rw [DecisionQueue.foldl_release_eq]
    exact ⟨_, _, rfl⟩
  · show _ ≤ (mid.trail.cut level).currentLevel
    rw [Trail.currentLevel_cut]
    exact Nat.le_min.2 ⟨hlevel, h.level_le⟩
  · show s.trail.SameAssignment ((mid.trail.cut level).cut s.currentLevel)
    rw [hmid.cut_cut hlevel]
    exact h.below

/-- What one operation of an excursion preserves. -/
theorem perform (h : s.Strays mid) (hmid : mid.Coherent) {op : Operation}
    (hallows : excursion s.currentLevel mid op = true) (hok : mid.perform op = .ok next) :
    s.Strays next := by
  cases performs_of_perform hok with
  | decide _ hknown hfree =>
    refine h.opens hmid.trail (.openLevel mid.trail) hknown hfree ?_
    rw [Trail.currentLevel_openLevel]
    exact Nat.lt_succ_of_le h.level_le
  | @nextDecision queue found hnext =>
    refine ⟨?_, h.level_le, h.below⟩
    obtain ⟨_, _, rfl⟩ := h.relocates
    rw [hmid.serves.ordered.next_eq_find? (fun v hv => hmid.serves.lt_numVariables hv)
      hmid.serves.passed] at hnext
    obtain ⟨rfl, -⟩ := Prod.mk.inj (Except.ok.inj hnext)
    exact ⟨_, _, rfl⟩
  | @assign l reason _ hpushes =>
    -- above the level is above the root, where nothing is logged
    have hne : mid.currentLevel ≠ s.currentLevel := bne_iff_ne.1 hallows
    have hlt := Nat.lt_of_le_of_ne h.level_le hne.symm
    rw [next_of_assign (Nat.ne_zero_of_lt hlt) hok]
    exact h.opens hmid.trail (.refl mid.trail reason) hpushes.known hpushes.free hlt
  | backtrack hundo => exact h.undo hmid.trail (of_decide_eq_true hallows) hundo
  | newVariable => cases hallows
  | addClause _ _ => cases hallows
  | ignored _ => cases hallows
  | declared _ _ => cases hallows
  | analyse _ => cases hallows
  | removeFromQueue _ => cases hallows
  | iterate => cases hallows

/-- What a whole excursion preserves. -/
theorem of_run (hexcursion : Run (excursion s.currentLevel) s further mid) (hs : s.Coherent) :
    mid.Coherent ∧ s.Strays mid := by
  induction hexcursion with
  | start => exact ⟨hs, .refl s⟩
  | step _ hallows hok ih => exact ⟨ih.1.perform hok, ih.2.perform ih.1 hallows hok⟩

end Strays

/-- The solver is as it was in all that matters: the trail with its delimiters and the value, level
and reason of every variable are the same, clauses, proof, the order of the queue, stamps and scores
are, and so is the decision that a search finds. -/
structure Restores (s next : Solver) : Prop where
  trail : s.trail.SameAssignment next.trail
  clauses_eq : next.clauses = s.clauses
  proof_eq : next.proof = s.proof
  queued_eq : next.heuristic.queue.toList = s.heuristic.queue.toList
  stamps_eq : next.heuristic.queue.stamps = s.heuristic.queue.stamps
  scores_eq : next.heuristic.scores = s.heuristic.scores
  decision : ∃ searched searched' decision, s.nextDecision = .ok (searched, decision) ∧
    next.nextDecision = .ok (searched', decision)

/-- The next decision is the first free variable of the queue. -/
theorem Coherent.exists_decision (h : s.Coherent) : ∃ searched, s.nextDecision = .ok (searched,
    (s.heuristic.queue.toList.find? fun v => !s.trail.isAssigned v).map fun v => ⟨v, true⟩) := by
  have hnext := h.serves.ordered.next_eq_find? (fun v hv => h.serves.lt_numVariables hv)
    h.serves.passed
  exact ⟨_, Fault.bind_eq_ok_iff.2 ⟨_, hnext, rfl⟩⟩

/-- Back on the level an excursion has changed nothing but positions and the cursor. -/
theorem Strays.restores (h : s.Strays next) (hs : s.Coherent) (hnext : next.Coherent)
    (hlevel : next.currentLevel = s.currentLevel) : s.Restores next := by
  have htrail : s.trail.SameAssignment next.trail := by
    have hbelow := h.below
    rwa [← hlevel, show next.trail.cut next.currentLevel = next.trail from
      Trail.cut_currentLevel next.trail] at hbelow
  obtain ⟨searched, hsearched⟩ := hs.exists_decision
  obtain ⟨searched', hsearched'⟩ := hnext.exists_decision
  have hqueue : next.heuristic.queue.toList = s.heuristic.queue.toList := by
    obtain ⟨_, _, rfl⟩ := h.relocates
    rfl
  simp only [htrail.isAssigned_eq, hqueue] at hsearched'
  refine ⟨htrail, ?_, ?_, hqueue, ?_, ?_, searched, searched', _, hsearched, hsearched'⟩
  all_goals
    obtain ⟨_, _, rfl⟩ := h.relocates
    rfl

/-- In every state that operations lead to from a new solver, an excursion above the current level
can be undone by a backtrack to the level, and nothing of it is left that a caller could see. -/
theorem Run.backtrack_restores {o : Options} {audit : AuditLevel} {proof : ProofLog}
    (hnew : Solver.new o audit proof = .ok start) (hrun : Run unrestricted start ops s)
    (hexcursion : Run (excursion s.currentLevel) s further mid) :
    ∃ next, (mid.backtrack s.currentLevel).result = .ok next ∧ s.Restores next := by
  obtain rfl := eq_empty_of_new hnew
  have hs := hrun.coherent (grounded_empty o audit proof).toCoherent
  obtain ⟨hmid, hstrays⟩ := Strays.of_run hexcursion hs
  obtain ⟨next, hok, hundo⟩ := backtrack_yields hmid hstrays.level_le
  have hback := hstrays.undo hmid.trail (Nat.le_refl _) hundo
  refine ⟨next, hok, hback.restores hs (hmid.undo hundo) ?_⟩
  obtain ⟨-, rfl⟩ := undo_eq_ok hundo
  exact (Trail.currentLevel_cut mid.trail s.currentLevel).trans (Nat.min_eq_left hstrays.level_le)

/-- Five variables, a clause, and a decision that was not searched for, so that the cursor stays
where it was. -/
def startingRun : List Operation :=
  [.newVariable, .newVariable, .newVariable, .newVariable, .newVariable,
    .addClause [⟨3, false⟩, ⟨1, true⟩], .decide ⟨4, false⟩]

/-- Two more decisions with an assignment between them, of which the second is replaced by another,
until both are undone and a last decision is made. -/
def wanderingRun : List Operation :=
  [.nextDecision, .decide ⟨3, true⟩, .assign ⟨1, true⟩ (some 0), .nextDecision, .decide ⟨2, true⟩,
    .backtrack 2, .nextDecision, .decide ⟨0, false⟩, .backtrack 1, .decide ⟨2, false⟩]

/-- The excursion ends with everything restored but the cursor, which came to another place. -/
theorem wanderingRun_restores : ∃ s mid,
    runBy unrestricted (Solver.empty {} .full ⟨none⟩) startingRun = some s ∧
      runBy (excursion s.currentLevel) s wanderingRun = some mid ∧
      ∃ next, (mid.backtrack s.currentLevel).result = .ok next ∧ s.Restores next ∧
        s.heuristic.queue.cursor = some 4 ∧ next.heuristic.queue.cursor = some 3 := by
  have hnew : Solver.new {} .full ⟨none⟩ = .ok (Solver.empty {} .full ⟨none⟩) := rfl
  have hend : ((runBy unrestricted (Solver.empty {} .full ⟨none⟩) startingRun).bind fun s =>
      (runBy (excursion s.currentLevel) s wanderingRun).bind fun mid =>
        (mid.backtrack s.currentLevel).result.toOption.map fun next =>
          (s.heuristic.queue.cursor, next.heuristic.queue.cursor)) = some (some 4, some 3) := by
    decide +kernel
  obtain ⟨s, hrun, hend⟩ := Option.bind_eq_some_iff.1 hend
  obtain ⟨mid, hexcursion, hend⟩ := Option.bind_eq_some_iff.1 hend
  obtain ⟨last, hlast, hend⟩ := Option.map_eq_some_iff.1 hend
  obtain ⟨hbefore, hafter⟩ := Prod.mk.inj hend
  obtain ⟨next, hok, hrestores⟩ := Run.backtrack_restores hnew (Run.start.of_runBy hrun)
    (Run.start.of_runBy hexcursion)
  obtain rfl : next = last := Except.ok.inj (hok.symm.trans (toOption_eq_some_iff.1 hlast))
  exact ⟨s, mid, hrun, hexcursion, next, hok, hrestores, hbefore, hafter⟩

end Solver

end ClauseLearning
