import ClauseLearning.Proofs.Search.Discipline

/-!
# The search ends

Without a bound on its rounds, the search is described by the way in which it ends: each decision
and each analysis is a round, after which it goes on from the next solver. From a disciplined solver
it does end. Every round but the last lowers the potential of the trail, which is less than two to
the number of variables and one, whatever clauses are stored.
-/

set_option autoImplicit false

namespace ClauseLearning

namespace Solver

variable {s next : Solver}

/-- The search ends with a solver and a result, after a number of decisions and analyses: at once if
the formula is known to have no model or no decision is left, and otherwise a round later than it
does after the analysis or the decision. -/
inductive SearchEnds : Solver → Nat → Solver → SearchResult → Prop where
  | refuted {s : Solver} : s.isUnsatisfiable = true →
      SearchEnds s 0 s { satisfiable := false, outcomes := [] }
  | analysed {s propagated analysed next : Solver} {c : ClauseId} {outcome : Outcome}
      {rounds : Nat} {result : SearchResult} : s.isUnsatisfiable = false →
      s.propagate.result = .ok (propagated, some c) →
      (propagated.analyseConflict c).result = .ok (analysed, outcome) →
      SearchEnds analysed rounds next result →
      SearchEnds s (rounds + 1) next { result with outcomes := outcome :: result.outcomes }
  | decided {s propagated reported searched decided next : Solver} {l : Literal} {rounds : Nat}
      {result : SearchResult} : s.isUnsatisfiable = false →
      s.propagate.result = .ok (propagated, none) →
      propagated.reportFixed.result = .ok reported →
      reported.nextDecision = .ok (searched, some l) →
      (searched.decide l).result = .ok decided →
      SearchEnds decided rounds next result → SearchEnds s (rounds + 1) next result
  | satisfied {s propagated reported searched : Solver} : s.isUnsatisfiable = false →
      s.propagate.result = .ok (propagated, none) →
      propagated.reportFixed.result = .ok reported →
      reported.nextDecision = .ok (searched, none) →
      SearchEnds s 0 searched { satisfiable := true, outcomes := [] }

/-- With more rounds than it takes, the bounded search finds the end of the search. -/
theorem SearchEnds.solveFor_eq {rounds : Nat} {result : SearchResult}
    (h : SearchEnds s rounds next result) {bound : Nat} (hlt : rounds < bound) :
    (solveFor bound s).result = .ok (next, result) := by
  induction bound generalizing s rounds result with
  | zero => exact absurd hlt (Nat.not_lt_zero _)
  | succ bound ih =>
    unfold solveFor
    cases h with
    | refuted hunsat =>
      rw [if_pos hunsat]
      rfl
    | analysed hunsat hpropagate hanalyse hrest =>
      rw [if_neg (Bool.eq_false_iff.1 hunsat)]
      refine Traced.result_bind_eq_ok_iff.2 ⟨_, hpropagate, ?_⟩
      refine Traced.result_bind_eq_ok_iff.2 ⟨_, hanalyse, ?_⟩
      exact Traced.result_bind_eq_ok_iff.2 ⟨_, ih hrest (Nat.lt_of_succ_lt_succ hlt), rfl⟩
    | decided hunsat hpropagate hreport hnext hdecide hrest =>
      rw [if_neg (Bool.eq_false_iff.1 hunsat)]
      refine Traced.result_bind_eq_ok_iff.2 ⟨_, hpropagate, ?_⟩
      refine Traced.result_bind_eq_ok_iff.2 ⟨_, hreport, ?_⟩
      refine Traced.result_bind_eq_ok_iff.2 ⟨_, hnext, ?_⟩
      exact Traced.result_bind_eq_ok_iff.2 ⟨_, hdecide, ih hrest (Nat.lt_of_succ_lt_succ hlt)⟩
    | satisfied hunsat hpropagate hreport hnext =>
      rw [if_neg (Bool.eq_false_iff.1 hunsat)]
      refine Traced.result_bind_eq_ok_iff.2 ⟨_, hpropagate, ?_⟩
      refine Traced.result_bind_eq_ok_iff.2 ⟨_, hreport, ?_⟩
      exact Traced.result_bind_eq_ok_iff.2 ⟨_, hnext, rfl⟩

/-! ## The parts of a round -/

/-- The next decision is a queued variable that is free, or all queued variables are assigned. -/
theorem exists_nextDecision (h : s.Grounded) :
    ∃ next decision, s.nextDecision = .ok (next, decision) ∧ s.Idles next ∧
      next.heuristic.queue.toList = s.heuristic.queue.toList ∧
      (∀ l, decision = some l → l.var < s.numVariables ∧ s.trail.isAssigned l.var = false) ∧
      (decision = none → ∀ v ∈ s.heuristic.queue.toList, s.trail.isAssigned v = true) := by
  obtain ⟨queue, found, hnext, hserves, hlist, hsome, hnone⟩ := h.serves.exists_next
  refine ⟨_, _, Fault.bind_eq_ok_iff.2 ⟨_, hnext, rfl⟩, .of_serves hserves,
    hlist, fun l hl => ?_, fun hno => ?_⟩
  · cases found with
    | none => cases hl
    | some v =>
      obtain rfl := Option.some.inj hl
      exact hsome v rfl
  · cases found with
    | none => exact hnone rfl
    | some v => cases hno

/-- A report on literals fixed at the root is idling. -/
theorem reportFixed_yields (h : s.Grounded) :
    s.reportFixed.Yields fun next => s.Idles next ∧ next.heuristic = s.heuristic := by
  have hremaining : ({ s with iterating := false } : Solver).requireRemaining = .ok () :=
    if_pos (Nat.le_trans h.trail.numRoot_le_length h.trail.length_le_numVariables)
  unfold reportFixed
  split
  · refine .bind (.bind (.lift (P := fun _ => True) hremaining trivial) fun _ _ => .tell _) ?_
    exact fun _ _ => .pure ⟨⟨rfl, rfl, rfl, rfl, rfl, rfl, h.serves⟩, rfl⟩
  · exact .pure ⟨⟨rfl, rfl, rfl, rfl, rfl, rfl, h.serves⟩, rfl⟩

/-- After propagation a decision is found, or all queued variables are assigned. -/
theorem exists_choice (h : s.Grounded) :
    ∃ reported searched decision, s.reportFixed.result = .ok reported ∧
      reported.nextDecision = .ok (searched, decision) ∧ s.Idles searched ∧
      searched.heuristic.queue.toList = s.heuristic.queue.toList ∧
      (∀ l, decision = some l →
        l.var < searched.numVariables ∧ searched.trail.isAssigned l.var = false) ∧
      (decision = none → ∀ v ∈ searched.heuristic.queue.toList,
        searched.trail.isAssigned v = true) := by
  obtain ⟨reported, hreport, hidles, hheuristic⟩ := reportFixed_yields h
  obtain ⟨searched, decision, hnext, hidles', hlist, hsome, hnone⟩ :=
    exists_nextDecision (hidles.grounded h)
  refine ⟨reported, searched, decision, hreport, hnext, hidles.trans hidles', ?_, ?_, ?_⟩
  · rw [hlist, hheuristic]
  · unfold numVariables
    rw [hidles'.trail_eq]
    exact hsome
  · rw [hlist, hidles'.trail_eq]
    exact hnone

/-- What a decision does to a quiet solver: a level is opened and the potential falls. -/
structure Decides (s next : Solver) : Prop extends Follows s next where
  disciplined : next.Disciplined
  potential_lt : next.trail.potential < s.trail.potential

/-- A free literal can be decided, which lowers the potential. -/
theorem Disciplined.decide_yields (h : s.Disciplined) (hquiet : s.Quiet)
    (hready : s.status = .ready) {l : Literal} (hknown : l.var < s.numVariables)
    (hfree : s.trail.isAssigned l.var = false) :
    (s.decide l).Yields s.Decides := by
  have hdecided := h.decide hquiet hready hknown hfree
  refine ⟨_, decide_eq_ok_iff.2 ⟨hready, hknown, hfree, rfl⟩, ?_⟩
  refine ⟨⟨hdecided.toGrounded, Trail.numVariables_push _ _ _, fun _ => Iff.rfl,
    fun _ _ lines hd => ⟨lines, hd.decide hknown hfree⟩⟩, hdecided, ?_⟩
  refine Trail.potential_push_openLevel ?_ l none
  have hlength : (s.trail.openLevel.push l none).length ≤
      (s.trail.openLevel.push l none).numVariables := hdecided.trail.length_le_numVariables
  rw [Trail.length_push, Trail.numVariables_push] at hlength
  exact hlength

/-! ## All rounds -/

/-- What a search achieves: there is no model, or all queued variables are assigned. -/
structure Answers (s next : Solver) (result : SearchResult) : Prop extends Calms s next where
  refuted : result.satisfiable = false → next.status = .unsatisfiable
  found : result.satisfiable = true → next.status = .ready ∧
    ∀ v ∈ next.heuristic.queue.toList, next.trail.isAssigned v = true

/-- A round later the search achieves what it did before. -/
theorem Answers.of_follows {mid : Solver} {result : SearchResult} (h : mid.Answers next result)
    (hfollows : s.Follows mid) (outcomes : List Outcome) :
    s.Answers next { result with outcomes := outcomes } :=
  ⟨⟨hfollows.trans h.toFollows, h.disciplined, h.quiet⟩, h.refuted, h.found⟩

/-- Once the formula is known to have no model, the search is over. -/
theorem Disciplined.searchEnds_of_unsatisfiable (h : s.Disciplined)
    (hunsat : s.status = .unsatisfiable) :
    s.SearchEnds 0 s { satisfiable := false, outcomes := [] } ∧
      s.Answers s { satisfiable := false, outcomes := [] } := by
  refine ⟨.refuted (beq_iff_eq.2 hunsat), ⟨.refl h.toGrounded, h, fun hready => ?_⟩,
    fun _ => hunsat, fun hno => (nomatch hno)⟩
  rw [hunsat] at hready
  cases hready

/-- A search from a disciplined solver ends, and the potential of the trail bounds its rounds. -/
theorem Disciplined.exists_searchEnds (h : s.Disciplined) :
    ∃ rounds next result, rounds ≤ s.trail.potential + 1 ∧ s.SearchEnds rounds next result ∧
      s.Answers next result := by
  -- a decision lowers the potential, and so does an analysis that does not end the search
  induction hp : s.trail.potential using Nat.strongRecOn generalizing s with
  | ind potential ih =>
    by_cases hunsat : s.status = .unsatisfiable
    · obtain ⟨hends, hanswers⟩ := h.searchEnds_of_unsatisfiable hunsat
      exact ⟨0, s, _, Nat.zero_le _, hends, hanswers⟩
    · have hready := h.ready hunsat
      have hgo : s.isUnsatisfiable = false := beq_eq_false_iff_ne.2 hunsat
      obtain ⟨⟨propagated, conflict⟩, hpropagate, hspreads, hdisciplined, hfalse, hquiet⟩ :=
        h.propagate_yields
      have hstatus : propagated.status = .ready := hspreads.status_eq.trans hready
      have hle : propagated.trail.potential ≤ s.trail.potential :=
        Trail.potential_le hspreads.numVariables_eq hspreads.delimiters_eq hspreads.length_le
      cases conflict with
      | some c =>
        obtain ⟨⟨analysed, outcome⟩, hanalyse, hrecovers⟩ :=
          hdisciplined.analyseConflict_yields hstatus (hfalse c rfl)
        have hfollows := hspreads.toFollows.trans hrecovers.toFollows
        rcases hrecovers.progress with hrefuted | ⟨-, hlt⟩
        · obtain ⟨hends, hanswers⟩ :=
            hrecovers.disciplined.searchEnds_of_unsatisfiable hrefuted
          exact ⟨1, analysed, _, by omega, .analysed hgo hpropagate hanalyse hends,
            hanswers.of_follows hfollows _⟩
        · obtain ⟨rounds, next, result, hrounds, hends, hanswers⟩ :=
            ih _ (by omega) hrecovers.disciplined rfl
          exact ⟨rounds + 1, next, _, by omega, .analysed hgo hpropagate hanalyse hends,
            hanswers.of_follows hfollows _⟩
      | none =>
        obtain ⟨reported, searched, decision, hreport, hnext, hidles, hlist, hsome, hnone⟩ :=
          exists_choice hdisciplined.toGrounded
        have hsearched := hdisciplined.idles hidles
        have hcalm := hidles.quiet (hquiet rfl)
        have hready' : searched.status = .ready := hidles.status_eq.trans hstatus
        have hfollows := hspreads.toFollows.trans
          (hidles.follows hdisciplined.toGrounded fun v => by rw [hlist])
        cases decision with
        | none =>
          exact ⟨0, searched, _, Nat.zero_le _, .satisfied hgo hpropagate hreport hnext,
            ⟨hfollows, hsearched, hcalm⟩, fun hno => (nomatch hno),
            fun _ => ⟨hready', hnone rfl⟩⟩
        | some l =>
          obtain ⟨hknown, hfree⟩ := hsome l rfl
          obtain ⟨decided, hdecide, hdecides⟩ :=
            hsearched.decide_yields hcalm hready' hknown hfree
          have hlt := hdecides.potential_lt
          rw [hidles.trail_eq] at hlt
          obtain ⟨rounds, next, result, hrounds, hends, hanswers⟩ :=
            ih _ (by omega) hdecides.disciplined rfl
          exact ⟨rounds + 1, next, _, by omega,
            .decided hgo hpropagate hreport hnext hdecide hends,
            hanswers.of_follows (hfollows.trans hdecides.toFollows) result.outcomes⟩

/-- The number of variables bounds the rounds, and the bounded search is given enough of them. -/
theorem Disciplined.exists_solve (h : s.Disciplined) :
    ∃ rounds next result, rounds < 2 ^ (s.numVariables + 1) ∧ s.SearchEnds rounds next result ∧
      s.solve.result = .ok (next, result) ∧ s.Answers next result := by
  obtain ⟨rounds, next, result, hrounds, hends, hanswers⟩ := h.exists_searchEnds
  have hpotential : s.trail.potential + 1 < 2 ^ (s.numVariables + 1) :=
    h.trail.potential_lt
  have hlt : rounds < s.roundBound + 1 := by
    unfold roundBound
    rw [Nat.one_shiftLeft]
    omega
  exact ⟨rounds, next, result, by omega, hends, hends.solveFor_eq hlt, hanswers⟩

/-- A search from a disciplined solver succeeds. -/
theorem Disciplined.solve_yields (h : s.Disciplined) :
    s.solve.Yields fun (next, result) => s.Answers next result := by
  obtain ⟨-, next, result, -, -, hok, hanswers⟩ := h.exists_solve
  exact ⟨(next, result), hok, hanswers⟩

end Solver

end ClauseLearning
