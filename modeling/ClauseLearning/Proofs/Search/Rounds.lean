import ClauseLearning.Proofs.Search.Moves
import ClauseLearning.Proofs.Solver.Representation

/-!
# The rounds of a search

A round of a search that goes on is an analysis or a decision. The relation `Searches` leads from a
solver to those after some rounds and lists what was learned in them. Settling and solving make such
rounds, of which settling makes analyses only, and then a last one, without an analysis.

No part of a round loses a stored clause or a literal that is true at the root: clauses are only
ever added, and the trail evolves.
-/

set_option autoImplicit false

namespace ClauseLearning

/-- What was learned, unless the formula was found to have no model. -/
def Outcome.learnings : Outcome → List Learned
  | .unsatisfiable => []
  | .learned l => [l]

/-- No evolution undoes what is true at the root. -/
theorem Trail.Evolves.isRootTrue {D : Literal → Prop} {t u : Trail} (h : t.Evolves D u)
    (ht : t.WellFormed) {l : Literal} (hl : t.IsRootTrue l) : u.IsRootTrue l := by
  induction h with
  | refl => exact hl
  | grow _ ih =>
    unfold IsRootTrue
    rw [isTrue_grow, level_grow]
    exact ih
  | push r _ hk hfree ih => exact (isRootTrue_push hk hfree l).2 (Or.inr ih)
  | @decide u k _ hk hfree _ ih =>
    have hopen : u.openLevel.IsRootTrue l := ih
    exact (isRootTrue_push (t := u.openLevel) hk hfree l).2 (Or.inr hopen)
  | cut level hu ih => exact ((hu.wellFormed ht).isRootTrue_cut level l).2 ih

namespace Solver

variable {s next propagated : Solver}

/-- Some rounds of a search, each an analysis or a decision after a propagation, and what was
learned in them. -/
inductive Searches : Solver → List Learned → Solver → Prop where
  | refl (s : Solver) : Searches s [] s
  | analysed {s propagated analysed next : Solver} {c : ClauseId} {outcome : Outcome}
      {found : List Learned} : s.isUnsatisfiable = false →
      s.propagate.result = .ok (propagated, some c) →
      (propagated.analyseConflict c).result = .ok (analysed, outcome) →
      Searches analysed found next → Searches s (outcome.learnings ++ found) next
  | decided {s propagated reported searched decided next : Solver} {l : Literal}
      {found : List Learned} : s.isUnsatisfiable = false →
      s.propagate.result = .ok (propagated, none) →
      propagated.reportFixed.result = .ok reported →
      reported.nextDecision = .ok (searched, some l) →
      (searched.decide l).result = .ok decided → Searches decided found next →
      Searches s found next

/-- The last round: the formula has no model, or propagation meets no conflict and, if a decision
is looked for, there is none. -/
inductive Concludes (s : Solver) : Solver → Prop where
  | refuted : s.isUnsatisfiable = true → Concludes s s
  | settled {propagated : Solver} : s.propagate.result = .ok (propagated, none) →
      Concludes s propagated
  | satisfied {propagated reported searched : Solver} :
      s.propagate.result = .ok (propagated, none) →
      propagated.reportFixed.result = .ok reported →
      reported.nextDecision = .ok (searched, none) → Concludes s searched

/-- Settling makes rounds and a last one. -/
theorem searches_of_settleFor {rounds : Nat} {outcomes : List Outcome}
    (hok : (settleFor rounds s).result = .ok (next, outcomes)) :
    ∃ mid, s.Searches (outcomes.flatMap Outcome.learnings) mid ∧ mid.Concludes next := by
  induction rounds generalizing s next outcomes with
  | zero => cases hok
  | succ rounds ih =>
    unfold settleFor at hok
    split at hok
    next hunsat =>
      obtain ⟨rfl, rfl⟩ := Prod.mk.inj (Except.ok.inj hok)
      exact ⟨s, .refl s, .refuted hunsat⟩
    next hgo =>
      obtain ⟨⟨propagated, conflict⟩, hpropagate, hok⟩ := Traced.result_bind_eq_ok_iff.1 hok
      cases conflict with
      | none =>
        obtain ⟨rfl, rfl⟩ := Prod.mk.inj (Except.ok.inj hok)
        exact ⟨s, .refl s, .settled hpropagate⟩
      | some c =>
        obtain ⟨⟨analysed, outcome⟩, hanalyse, hok⟩ := Traced.result_bind_eq_ok_iff.1 hok
        obtain ⟨⟨settled, outcomes⟩, hsettle, hok⟩ := Traced.result_bind_eq_ok_iff.1 hok
        obtain ⟨rfl, rfl⟩ := Prod.mk.inj (Except.ok.inj hok)
        obtain ⟨mid, hsearches, hconcludes⟩ := ih hsettle
        exact ⟨mid, .analysed (Bool.eq_false_iff.2 hgo) hpropagate hanalyse hsearches, hconcludes⟩

/-- A search makes rounds and a last one. -/
theorem SearchEnds.searches {rounds : Nat} {result : SearchResult}
    (h : SearchEnds s rounds next result) :
    ∃ mid, s.Searches (result.outcomes.flatMap Outcome.learnings) mid ∧ mid.Concludes next := by
  induction h with
  | refuted hunsat => exact ⟨_, .refl _, .refuted hunsat⟩
  | analysed hgo hpropagate hanalyse _ ih =>
    obtain ⟨mid, hsearches, hconcludes⟩ := ih
    exact ⟨mid, .analysed hgo hpropagate hanalyse hsearches, hconcludes⟩
  | decided hgo hpropagate hreport hnext hdecide _ ih =>
    obtain ⟨mid, hsearches, hconcludes⟩ := ih
    exact ⟨mid, .decided hgo hpropagate hreport hnext hdecide hsearches, hconcludes⟩
  | satisfied _ hpropagate hreport hnext =>
    exact ⟨_, .refl _, .satisfied hpropagate hreport hnext⟩

/-! ## What no part of a round loses -/

/-- The stored clauses are kept, and so are the literals that are true at the root. -/
structure Preserves (s next : Solver) : Prop where
  clauses : s.clauses.KeptIn next.clauses
  root : ∀ l, s.trail.IsRootTrue l → next.trail.IsRootTrue l

namespace Preserves

/-- A state preserves itself. -/
theorem refl (s : Solver) : s.Preserves s := ⟨.refl _, fun _ hl => hl⟩

/-- What is preserved twice is preserved. -/
theorem trans {mid : Solver} (h : s.Preserves mid) (h' : mid.Preserves next) : s.Preserves next :=
  ⟨h.clauses.trans h'.clauses, fun l hl => h'.root l (h.root l hl)⟩

/-- A trail that evolves and clauses that are kept preserve a state. -/
theorem of_evolves {D : Literal → Prop} (ht : s.trail.WellFormed)
    (hclauses : s.clauses.KeptIn next.clauses) (h : s.trail.Evolves D next.trail) :
    s.Preserves next := ⟨hclauses, fun _ hl => h.isRootTrue ht hl⟩

end Preserves

/-- Idling preserves a state. -/
theorem Idles.preserves (h : s.Idles next) : s.Preserves next where
  clauses := h.clauses_eq ▸ .refl _
  root := by
    rw [h.trail_eq]
    exact fun _ hl => hl

/-- No stored clause is lost when a conflict is analysed. -/
theorem Analyses.keptIn {c : ClauseId} (h : s.Analyses c next) :
    s.clauses.KeptIn next.clauses := by
  cases h with
  | refuted _ heq =>
    obtain ⟨counters, rfl⟩ := heq
    exact .refl _
  | learned _ hlearns => exact hlearns.keptIn

/-- A pass through clauses makes assignments only. -/
theorem evolves_of_propagatePass {D : Literal → Prop} {entries : List (ClauseId × Clause)}
    {conflict : Option ClauseId} (hok : (s.propagatePass entries).result = .ok (next, conflict)) :
    s.trail.Evolves D next.trail := by
  induction entries generalizing s with
  | nil =>
    obtain ⟨rfl, -⟩ := Prod.mk.inj (Except.ok.inj hok)
    exact .refl
  | cons e entries ih =>
    unfold propagatePass at hok
    obtain ⟨standing, -, hok⟩ := Traced.result_bind_eq_ok_iff.1 hok
    split at hok
    · obtain ⟨rfl, -⟩ := Prod.mk.inj (Except.ok.inj hok)
      exact .refl
    · obtain ⟨mid, hassign, hok⟩ := Traced.result_bind_eq_ok_iff.1 hok
      exact (pushes_of_assign hassign).evolves.trans (ih hok)
    · exact ih hok

/-- Passes of propagation make assignments only. -/
theorem evolves_of_propagateFor {D : Literal → Prop} {rounds : Nat} {conflict : Option ClauseId}
    (hok : (propagateFor rounds s).result = .ok (next, conflict)) :
    s.trail.Evolves D next.trail := by
  induction rounds generalizing s with
  | zero => cases hok
  | succ rounds ih =>
    unfold propagateFor at hok
    obtain ⟨⟨mid, found⟩, hpass, hok⟩ := Traced.result_bind_eq_ok_iff.1 hok
    have hmid : s.trail.Evolves D mid.trail := evolves_of_propagatePass hpass
    dsimp only at hok
    split at hok
    · obtain ⟨rfl, -⟩ := Prod.mk.inj (Except.ok.inj hok)
      exact hmid
    · exact hmid.trans (ih hok)

/-- In a ready solver, what is analysed is the clause declared. -/
theorem analyse_of_analyseConflict {c : ClauseId} {outcome : Outcome}
    (hready : s.status = .ready) (hok : (s.analyseConflict c).result = .ok (next, outcome)) :
    ({ s with status := .conflict c } : Solver).analyse.result = .ok (next, outcome) := by
  obtain ⟨declared, hdeclare, hanalyse⟩ := Traced.result_bind_eq_ok_iff.1 hok
  rcases next_of_declareConflict hdeclare with ⟨hunsat, -⟩ | ⟨-, -, rfl⟩
  · rw [hready] at hunsat
    cases hunsat
  · exact hanalyse

/-- The declared clause is the pending one. -/
theorem Falsified.declared {c : ClauseId} (h : s.Falsified c) :
    ∀ d, Status.conflict c = .conflict d → s.Falsified d := by
  rintro _ ⟨rfl⟩
  exact h

namespace Disciplined

variable {c : ClauseId} {conflict : Option ClauseId} {outcome : Outcome}

/-- Propagation preserves a state. -/
theorem preserves_of_propagate (h : s.Disciplined)
    (hok : s.propagate.result = .ok (next, conflict)) : s.Preserves next := by
  obtain ⟨hspreads, -⟩ := h.propagate_yields.of_result hok
  exact .of_evolves (D := fun _ => False) h.trail (hspreads.clauses_eq ▸ .refl _)
    (evolves_of_propagateFor hok)

/-- A propagation that meets a conflict. -/
theorem conflicts (h : s.Disciplined) (hgo : s.isUnsatisfiable = false)
    (hok : s.propagate.result = .ok (propagated, some c)) :
    propagated.Disciplined ∧ propagated.status = .ready ∧ propagated.Falsified c := by
  obtain ⟨hspreads, hdisciplined, hfalse, -⟩ := h.propagate_yields.of_result hok
  have hready : s.status = .ready := h.ready (beq_eq_false_iff_ne.1 hgo)
  exact ⟨hdisciplined, hspreads.status_eq.trans hready, hfalse c rfl⟩

/-- The analysis of a false clause preserves a state. -/
theorem preserves_of_analyseConflict (h : s.Disciplined) (hready : s.status = .ready)
    (hfalse : s.Falsified c) (hok : (s.analyseConflict c).result = .ok (next, outcome)) :
    s.Preserves next := by
  have hanalyse := analyse_of_analyseConflict hready hok
  have hevolves : s.trail.Evolves (fun _ => False) next.trail :=
    evolves_of_analyse (s := { s with status := .conflict c }) hanalyse
  refine .of_evolves h.trail ?_ hevolves
  rcases (h.declares c).founded.of_analyse hfalse.declared hanalyse with rfl | ⟨d, -, hanalyses⟩
  · exact .refl _
  · exact hanalyses.keptIn

/-- Looking for a decision when propagation has met no conflict. -/
theorem chooses {reported searched : Solver} {decision : Option Literal} (h : s.Disciplined)
    (hpropagate : s.propagate.result = .ok (propagated, none))
    (hreport : propagated.reportFixed.result = .ok reported)
    (hnext : reported.nextDecision = .ok (searched, decision)) :
    searched.Disciplined ∧ searched.Quiet ∧ s.Preserves searched := by
  obtain ⟨-, hpropagated, -, hquiet⟩ := h.propagate_yields.of_result hpropagate
  have hidles : propagated.Idles reported :=
    ((reportFixed_yields hpropagated.toGrounded).of_result hreport).1
  have hidles' := hidles.trans ((hpropagated.idles hidles).idles_of_nextDecision hnext)
  exact ⟨hpropagated.idles hidles', hidles'.quiet (hquiet rfl),
    (h.preserves_of_propagate hpropagate).trans hidles'.preserves⟩

/-- A round that ends with a decision. -/
theorem decides {reported searched decided : Solver} {l : Literal} (h : s.Disciplined)
    (hpropagate : s.propagate.result = .ok (propagated, none))
    (hreport : propagated.reportFixed.result = .ok reported)
    (hnext : reported.nextDecision = .ok (searched, some l))
    (hdecide : (searched.decide l).result = .ok decided) :
    decided.Disciplined ∧ s.Preserves decided := by
  obtain ⟨hsearched, hquiet, hpreserves⟩ := h.chooses hpropagate hreport hnext
  obtain ⟨hready, hknown, hfree, rfl⟩ := decide_eq_ok_iff.1 hdecide
  refine ⟨hsearched.decide hquiet hready hknown hfree, hpreserves.trans ?_⟩
  exact .of_evolves (D := fun _ => True) hsearched.trail (.refl _)
    (.decide .refl hknown hfree trivial)

/-- The end of a search preserves a state. -/
theorem preserves_of_concludes (h : s.Disciplined) (hc : s.Concludes next) :
    s.Preserves next := by
  cases hc with
  | refuted _ => exact .refl s
  | settled hpropagate => exact h.preserves_of_propagate hpropagate
  | satisfied hpropagate hreport hnext => exact (h.chooses hpropagate hreport hnext).2.2

/-- A disciplined move that makes no rounds. -/
theorem preserves_of_perform {settled : Bool} {op : Operation} (h : s.Disciplined)
    (hallows : s.allows settled (.operate op) = true) (hok : s.perform op = .ok next) :
    s.Preserves next := by
  have hevolves : s.trail.Evolves _ next.trail := evolves_of_perform hok
  refine .of_evolves h.trail ?_ hevolves
  cases performs_of_perform hok with
  | newVariable => exact .refl _
  | addClause _ hadds =>
    cases hadds with
    | refused _ => exact .refl _
    | dropped _ => exact .refl _
    | refuted _ => exact .refl _
    | unit _ hp =>
      obtain ⟨iterating, counters, rfl⟩ := hp.next_eq
      exact .refl _
    | stored _ _ => exact ClauseStore.keptIn_insert _ _
  | decide _ _ _ => exact .refl _
  | nextDecision _ => exact .refl _
  | backtrack hundo =>
    obtain ⟨-, rfl⟩ := undo_eq_ok hundo
    exact .refl _
  | removeFromQueue _ => exact .refl _
  | assign _ => cases hallows
  | ignored _ => cases hallows
  | declared _ _ => cases hallows
  | analyse _ => cases hallows
  | iterate => cases hallows

end Disciplined

end Solver

end ClauseLearning
