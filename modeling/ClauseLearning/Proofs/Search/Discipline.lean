import ClauseLearning.Proofs.Search.Propagation
import ClauseLearning.Proofs.Trail.Potential
import ClauseLearning.Solver.Search

/-!
# Disciplined solvers

A solver is *disciplined* if it is grounded, no conflict is pending, and every level below the
current one settles all stored clauses. It is *quiet* if the current level settles them, too, unless
the formula is known to have no model. Decisions are taken and levels undone in quiet solvers only,
which keeps solvers disciplined; a clause learned from a conflict is settled by all levels below the
one that is jumped to, as two of its literals are still free there.

In a disciplined solver a false clause can always be analysed. The analysis jumps to a lower level
or finds that there is no model, so propagating and analysing comes to an end.
-/

set_option autoImplicit false

namespace ClauseLearning

namespace Solver

variable {s next : Solver}

/-- Only the heuristic, which goes on to serve, and what is reported have changed. -/
structure Idles (s next : Solver) : Prop where
  trail_eq : next.trail = s.trail
  clauses_eq : next.clauses = s.clauses
  workspace_eq : next.workspace = s.workspace
  options_eq : next.options = s.options
  proof_eq : next.proof = s.proof
  status_eq : next.status = s.status
  serves : next.heuristic.Serves next.trail

namespace Idles

/-- Another heuristic that serves the trail is no more than idling. -/
theorem of_serves {heuristic : Heuristic} (h : heuristic.Serves s.trail) :
    s.Idles { s with heuristic := heuristic } := ⟨rfl, rfl, rfl, rfl, rfl, rfl, h⟩

/-- Idling twice is idling. -/
theorem trans {mid : Solver} (h : s.Idles mid) (h' : mid.Idles next) : s.Idles next :=
  ⟨h'.trail_eq.trans h.trail_eq, h'.clauses_eq.trans h.clauses_eq,
    h'.workspace_eq.trans h.workspace_eq, h'.options_eq.trans h.options_eq,
    h'.proof_eq.trans h.proof_eq, h'.status_eq.trans h.status_eq, h'.serves⟩

/-- Idling keeps a solver grounded. -/
theorem grounded (h : s.Idles next) (hs : s.Grounded) : next.Grounded :=
  hs.congr h.trail_eq h.clauses_eq h.serves h.workspace_eq h.options_eq

/-- Idling that keeps the queued variables follows. -/
theorem follows (h : s.Idles next) (hs : s.Grounded)
    (hqueue : ∀ v, v ∈ next.heuristic.queue.toList ↔ v ∈ s.heuristic.queue.toList) :
    s.Follows next where
  grounded := h.grounded hs
  numVariables_eq := congrArg Trail.numVariables h.trail_eq
  queued := hqueue
  derives := by
    intro start F lines hd
    refine ⟨lines, hd.keep (fun l => ?_) h.clauses_eq h.proof_eq ?_⟩
    · rw [h.trail_eq]
    · rw [h.status_eq]

end Idles

/-- The lower levels settle all clauses, no conflict is pending, and above the root the formula is
not known to have no model. -/
structure Disciplined (s : Solver) : Prop extends Grounded s where
  standing : s.status = .ready ∨ (s.status = .unsatisfiable ∧ s.currentLevel = 0)
  lower : ∀ level < s.currentLevel, s.SettledAt level

/-- The current level settles all clauses, unless the formula is known to have no model. -/
def Quiet (s : Solver) : Prop := s.status = .ready → s.SettledAt s.currentLevel

/-- Idling keeps a solver quiet. -/
theorem Idles.quiet (h : s.Idles next) (hs : s.Quiet) : next.Quiet := by
  unfold Quiet currentLevel SettledAt
  rw [h.trail_eq, h.clauses_eq, h.status_eq]
  exact hs

namespace Disciplined

/-- A disciplined solver that may have a model is ready. -/
theorem ready (h : s.Disciplined) (hready : s.status ≠ .unsatisfiable) : s.status = .ready :=
  h.standing.resolve_right fun hunsat => hready hunsat.1

/-- A new solver is disciplined. -/
theorem empty (o : Options) (audit : AuditLevel) (proof : ProofLog) :
    (Solver.empty o audit proof).Disciplined where
  toGrounded := grounded_empty o audit proof
  standing := Or.inl rfl
  lower := fun _ hlt => absurd hlt (Nat.not_lt_zero _)

/-- A new variable keeps the discipline. -/
theorem newVariable (h : s.Disciplined) : s.newVariable.Disciplined where
  toGrounded := h.toGrounded.newVariable
  standing := h.standing
  lower := fun level hlt c clause hc => (h.lower level hlt c clause hc).grow

/-- A clause added at the root keeps the discipline and the level. -/
theorem adds (h : s.Disciplined) (hroot : s.currentLevel = 0) {ls : List Literal}
    (ha : s.Adds ls next) : next.Disciplined ∧ next.currentLevel = 0 := by
  have hgrounded := h.toGrounded.adds hroot ha
  have hlevel : next.currentLevel = 0 ∧
      (next.status = s.status ∨ next.status = .unsatisfiable) := by
    cases ha with
    | refused _ => exact ⟨hroot, Or.inl rfl⟩
    | dropped _ => exact ⟨hroot, Or.inl rfl⟩
    | refuted _ => exact ⟨hroot, Or.inr rfl⟩
    | unit _ hp =>
      obtain ⟨iterating, counters, rfl⟩ := hp.next_eq
      exact ⟨hroot, Or.inl rfl⟩
    | stored _ _ => exact ⟨hroot, Or.inl rfl⟩
  refine ⟨⟨hgrounded, ?_, fun level hlt => ?_⟩, hlevel.1⟩
  · rcases hlevel.2 with hstatus | hunsat
    · rw [hstatus, hlevel.1]
      exact h.standing.imp_right fun hunsat => ⟨hunsat.1, rfl⟩
    · exact Or.inr ⟨hunsat, hlevel.1⟩
  · rw [hlevel.1] at hlt
    exact absurd hlt (Nat.not_lt_zero _)

/-- A decision in a quiet solver. -/
theorem decide (h : s.Disciplined) (hquiet : s.Quiet) (hready : s.status = .ready) {l : Literal}
    (hknown : l.var < s.numVariables) (hfree : s.trail.isAssigned l.var = false) :
    (s.withTrail (s.trail.openLevel.push l none)).Disciplined := by
  refine ⟨h.toGrounded.decide hknown hfree, Or.inl hready, fun level hlt c clause hc => ?_⟩
  have hle : level ≤ s.trail.currentLevel := by
    have hopen := Trail.currentLevel_openLevel s.trail
    have hlt : level < s.trail.openLevel.currentLevel := hlt
    omega
  have hsettled : s.trail.Settles level clause.literals := by
    rcases Nat.lt_or_eq_of_le hle with hlower | rfl
    · exact h.lower level hlower c clause hc
    · exact hquiet hready c clause hc
  exact hsettled.push_openLevel hknown hfree hle

/-- Undoing levels of a quiet solver. -/
theorem undo (h : s.Disciplined) (hquiet : s.Quiet) {level : Nat}
    (hok : s.undo level = .ok next) : next.Disciplined ∧ next.Quiet := by
  have hgrounded := h.toGrounded.undo hok
  obtain ⟨hle, rfl⟩ := undo_eq_ok hok
  have hlevel : (s.trail.cut level).currentLevel = level := by
    rw [Trail.currentLevel_cut]
    exact Nat.min_eq_left hle
  have hsettled : s.status = .ready → ∀ k ≤ level, ∀ c clause, s.clauses.get? c = some clause →
      (s.trail.cut level).Settles k clause.literals := by
    intro hready k hk c clause hc
    refine Trail.Settles.cut ?_ h.trail hk
    rcases Nat.lt_or_eq_of_le (Nat.le_trans hk hle) with hlower | rfl
    · exact h.lower k hlower c clause hc
    · exact hquiet hready c clause hc
  refine ⟨⟨hgrounded, ?_, fun k hk => ?_⟩, fun hready => ?_⟩
  · refine h.standing.imp_right fun hunsat => ⟨hunsat.1, ?_⟩
    have hroot : s.currentLevel = 0 := hunsat.2
    have hcut : (s.trail.cut level).currentLevel = 0 := by omega
    exact hcut
  · have hk : k < level := hlevel ▸ hk
    rcases h.standing with hready | ⟨-, hroot⟩
    · exact hsettled hready k (Nat.le_of_lt hk)
    · omega
  · exact hsettled hready _ (Nat.le_of_eq hlevel)

/-- The heuristic may change in a disciplined solver, and in a quiet one. -/
theorem idles (h : s.Disciplined) (hi : s.Idles next) : next.Disciplined where
  toGrounded := hi.grounded h.toGrounded
  standing := by
    unfold currentLevel
    rw [hi.status_eq, hi.trail_eq]
    exact h.standing
  lower := by
    unfold currentLevel SettledAt
    rw [hi.trail_eq, hi.clauses_eq]
    exact h.lower

/-- Propagation. -/
theorem spreads (h : s.Disciplined) (hp : s.Spreads next) : next.Disciplined where
  toGrounded := hp.grounded
  standing := by
    rw [hp.status_eq, hp.currentLevel_eq]
    exact h.standing
  lower := by
    intro level hlt c clause hc
    rw [hp.currentLevel_eq] at hlt
    rw [hp.clauses_eq] at hc
    exact hp.settles level hlt _ (h.lower level hlt c clause hc)

/-- Learning a clause from a conflict, after which no conflict is pending. -/
theorem of_learns (h : s.Grounded) (hlower : ∀ level < s.currentLevel, s.SettledAt level)
    {clause : List Literal} {learned : Learned} (hl : s.Learns clause learned next) :
    ({ next with status := .ready } : Solver).Disciplined := by
  have hnext := hl.grounded h
  refine ⟨hnext.congr rfl rfl hnext.serves rfl rfl, Or.inl rfl, fun level hlt d found hd => ?_⟩
  have hlt : level < learned.jump := hl.currentLevel_eq ▸ hlt
  have hd : next.clauses.get? d = some found := hd
  show next.trail.Settles level found.literals
  -- what a lower level settles is not touched by the jump
  have hkept : ∀ ls, s.trail.Settles level ls → next.trail.Settles level ls := by
    intro ls hs
    obtain ⟨hknown, hfree⟩ := hl.asserting_free h.toCoherent
    rw [hl.trail_eq]
    refine (hs.cut h.trail (Nat.le_of_lt hlt)).push hknown hfree ?_
    rw [Trail.currentLevel_cut]
    exact Nat.lt_min.2 ⟨hlt, Nat.lt_trans hlt hl.jump_lt⟩
  rcases hl.get?_cases hd with ⟨old, stamp, hold, rfl⟩ | ⟨-, rfl, k, hk, hne, hklevel⟩
  · exact hkept _ (hlower level (Nat.lt_trans hlt hl.jump_lt) d old hold)
  · refine hkept _ (Or.inr ⟨learned.asserting, hl.asserting.mem, k, hk, hne.symm, ?_, ?_⟩)
    · rintro ⟨-, hle⟩
      have hjump := hl.jump_lt
      rw [hl.asserting.current] at hle
      unfold currentLevel at hjump
      omega
    · rintro ⟨-, hle⟩
      omega

end Disciplined

/-- What the analysis of a conflict does to a disciplined solver: it learns a clause and jumps to a
lower level, or finds that the formula has no model. -/
structure Recovers (s next : Solver) : Prop extends Follows s next where
  disciplined : next.Disciplined
  progress : next.status = .unsatisfiable ∨
    (next.currentLevel < s.currentLevel ∧ next.trail.potential < s.trail.potential)

/-- A declared conflict leaves the solver grounded. -/
theorem Disciplined.declares (h : s.Disciplined) (c : ClauseId) :
    ({ s with status := .conflict c } : Solver).Grounded :=
  h.toGrounded.congr rfl rfl h.serves rfl rfl

/-- In a disciplined solver a false clause can be analysed. -/
theorem Disciplined.analyseConflict_yields {c : ClauseId} (h : s.Disciplined)
    (hready : s.status = .ready) (hfalse : s.Falsified c) :
    (s.analyseConflict c).Yields fun (next, _) => s.Recovers next := by
  have hdeclared : (s.declareConflict c).Yields
      fun declared => declared = { s with status := .conflict c } := by
    unfold declareConflict isUnsatisfiable
    rw [hready]
    refine .bind (.checkBy (Trail.holdsConflict_iff.2 hfalse)) fun _ _ => .pure rfl
  have hgrounded := h.declares c
  unfold analyseConflict
  refine .bind hdeclared ?_
  rintro _ rfl
  refine (analyse_yields hgrounded rfl hfalse
    (hfalse.meetsCurrent h.toCoherent h.lower)).mono ?_
  rintro ⟨next, outcome⟩ hnext
  have hnum : next.numVariables = s.numVariables := by
    cases hnext with
    | refuted _ heq =>
      obtain ⟨counters, rfl⟩ := heq
      rfl
    | learned _ hl => exact hl.numVariables_eq
  refine ⟨⟨hnext.grounded hgrounded, hnum, hnext.queued, fun start F lines hd => ?_⟩, ?_, ?_⟩
  · -- to declare the conflict logs nothing and fixes nothing
    have hkeep : Derives start F lines { s with status := .conflict c } :=
      hd.keep (fun _ => Iff.rfl) rfl rfl ⟨fun hno => (nomatch hno), fun hno => by
        rw [hready] at hno
        cases hno⟩
    exact hkeep.analyses hgrounded rfl hfalse hnext
  · cases hnext with
    | refuted hroot heq =>
      obtain ⟨counters, rfl⟩ := heq
      exact ⟨h.toGrounded.congr rfl rfl h.serves rfl rfl, Or.inr ⟨rfl, hroot⟩, h.lower⟩
    | learned _ hl => exact .of_learns hgrounded h.lower hl
  · cases hnext with
    | refuted _ heq =>
      obtain ⟨counters, rfl⟩ := heq
      exact Or.inl rfl
    | @learned _ learned mid _ hl =>
      refine Or.inr ⟨?_, ?_⟩
      · show mid.currentLevel < _
        rw [hl.currentLevel_eq]
        exact hl.jump_lt
      · show mid.trail.potential < _
        rw [hl.trail_eq]
        exact h.trail.potential_push_cut hl.jump_lt _ _

/-! ## Settling -/

/-- The solver after a part of the search that ended: disciplined and quiet. -/
structure Calms (s next : Solver) : Prop extends Follows s next where
  disciplined : next.Disciplined
  quiet : next.Quiet

/-- Propagation keeps a solver disciplined and ends with a false clause or a quiet solver. -/
theorem Disciplined.propagate_yields (h : s.Disciplined) :
    s.propagate.Yields fun (next, conflict) =>
      s.Spreads next ∧ next.Disciplined ∧ (∀ c, conflict = some c → next.Falsified c) ∧
        (conflict = none → next.Quiet) := by
  refine (Solver.propagate_yields h.toGrounded).mono ?_
  rintro ⟨next, conflict⟩ ⟨hnext, hconflict, hsettled⟩
  exact ⟨hnext, h.spreads hnext, hconflict, fun hnone _ => hsettled hnone⟩

/-- Propagating and analysing ends with a quiet solver, in more rounds than there are levels. -/
theorem Disciplined.settleFor_yields {rounds : Nat} (h : s.Disciplined) (hpos : 0 < rounds)
    (hrounds : s.status = .unsatisfiable ∨ s.currentLevel + 1 < rounds) :
    (settleFor rounds s).Yields fun (next, _) => s.Calms next := by
  induction rounds generalizing s with
  | zero => exact absurd hpos (Nat.lt_irrefl _)
  | succ rounds ih =>
    unfold settleFor
    split
    next hunsat =>
      refine .pure ⟨.refl h.toGrounded, h, fun hready => ?_⟩
      rw [beq_iff_eq.1 hunsat] at hready
      cases hready
    next hunsat =>
      have hready : s.status = .ready := h.ready fun heq => hunsat (beq_iff_eq.2 heq)
      refine .bind h.propagate_yields ?_
      rintro ⟨mid, conflict⟩ ⟨hmid, hdisciplined, hconflict, hquiet⟩
      cases conflict with
      | none => exact .pure ⟨hmid.toFollows, hdisciplined, hquiet rfl⟩
      | some c =>
        refine .bind (hdisciplined.analyseConflict_yields (hmid.status_eq.trans hready)
          (hconflict c rfl)) ?_
        rintro ⟨analysed, outcome⟩ hanalysed
        have hlevel := hmid.currentLevel_eq
        have hbound : s.currentLevel + 1 < rounds + 1 :=
          hrounds.resolve_left fun heq => hunsat (beq_iff_eq.2 heq)
        have hnext : analysed.status = .unsatisfiable ∨ analysed.currentLevel + 1 < rounds :=
          hanalysed.progress.imp_right fun hlower => by omega
        refine .bind (ih hanalysed.disciplined (by omega) hnext) ?_
        rintro ⟨settled, outcomes⟩ hsettled
        exact .pure ⟨(hmid.toFollows.trans hanalysed.toFollows).trans hsettled.toFollows,
          hsettled.disciplined, hsettled.quiet⟩

/-- A disciplined solver can be settled. -/
theorem Disciplined.settle_yields (h : s.Disciplined) :
    s.settle.Yields fun (next, _) => s.Calms next :=
  h.settleFor_yields (Nat.succ_pos _) (Or.inr (Nat.lt_succ_self _))

end Solver

end ClauseLearning
