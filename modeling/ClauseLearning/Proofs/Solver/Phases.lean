import ClauseLearning.Proofs.Solver.Operations
import ClauseLearning.Solver.Analysis

/-!
# The phases of an analysis

An analysis that learns goes through phases, and each of them touches few parts of the solver. In
front of the backjump these are the workspace, the stored clauses, the proof and the figures; the
backjump cuts the trail and releases variables in the heuristic; then one literal is assigned, and
at last the heuristic and the workspace change.

An analysis that ends is taken apart here, and of each phase it is said what it left alone. Nothing
is assumed of the solver: the conflict need not be false, and reasons may imply nothing.
-/

set_option autoImplicit false

namespace ClauseLearning

namespace Solver

variable {s next : Solver}

/-! ## What a phase leaves alone -/

/-- Deriving a clause ends with the negated implication point at its end. -/
theorem next_of_deriveClause {c : ClauseId} {asserting : Literal}
    (hok : (s.deriveClause c).result = .ok (next, asserting)) :
    ∃ w uip, (s.workspace.firstUip s.view c).result = .ok (w, uip) ∧ asserting = uip.negate ∧
      next = { s with workspace := { w with learned := w.learned ++ [uip.negate] } } := by
  unfold deriveClause at hok
  obtain ⟨⟨w, uip⟩, hfirst, hok⟩ := Traced.result_bind_eq_ok_iff.1 hok
  obtain ⟨_, -, hok⟩ := Traced.result_bind_eq_ok_iff.1 hok
  obtain ⟨_, -, hok⟩ := Traced.result_bind_eq_ok_iff.1 hok
  obtain ⟨rfl, rfl⟩ := Prod.mk.inj (Except.ok.inj hok)
  exact ⟨w, uip, hfirst, rfl, rfl⟩

/-- Whether or not the clauses that waited could carry stamps, none waits any more. -/
theorem next_of_stampResolved (hok : s.stampResolved = .ok next) :
    ∃ activity store, activity.pending = [] ∧
      s.workspace.activity.flush s.clauses = .ok (activity, store) ∧ next =
      { s with clauses := store, workspace := { s.workspace with activity := activity } } := by
  unfold stampResolved at hok
  obtain ⟨⟨activity, store⟩, hflush, hok⟩ := Fault.bind_eq_ok_iff.1 hok
  obtain rfl := Except.ok.inj hok
  refine ⟨activity, store, ?_, hflush, rfl⟩
  unfold Activity.flush at hflush
  obtain ⟨_, -, hflush⟩ := Fault.bind_eq_ok_iff.1 hflush
  obtain ⟨stamped, -, hflush⟩ := Fault.bind_eq_ok_iff.1 hflush
  obtain ⟨rfl, -⟩ := Prod.mk.inj (Except.ok.inj hflush)
  rfl

/-- Recording the glue changes the counters only. -/
theorem next_of_recordGlue (hok : s.recordGlue.result = .ok next) :
    next = { s with counters := s.counters.addGlue s.currentGlue } := by
  unfold recordGlue at hok
  obtain ⟨_, -, hok⟩ := Traced.result_bind_eq_ok_iff.1 hok
  obtain ⟨_, -, hok⟩ := Traced.result_bind_eq_ok_iff.1 hok
  exact (Except.ok.inj hok).symm

/-- Shrinking changes the clause under construction and the counters, if it is asked for. -/
theorem next_of_shrinkClause (hok : s.shrinkClause.result = .ok next) :
    next = s ∨ ∃ w kept removed,
      (s.workspace.minimise s.view s.options.minimiseDepth s.workspace.learned).result =
        .ok (w, kept) ∧
      next = { s with
        workspace := { w with learned := kept }, counters := s.counters.addMinimised removed } := by
  unfold shrinkClause at hok
  split at hok
  · obtain ⟨⟨w, kept⟩, hminimise, hok⟩ := Traced.result_bind_eq_ok_iff.1 hok
    exact Or.inr ⟨w, kept, _, hminimise, (Except.ok.inj hok).symm⟩
  · exact Or.inl (Except.ok.inj hok).symm

/-- A clause under construction with two literals is logged and stored as it is listed, the latest
assigned literals first; a shorter one is not. -/
theorem installs_of_installClause {asserting : Literal} {glue jump : Nat} {c : Option ClauseId}
    (hok : (s.installClause asserting glue).result = .ok (next, jump, c)) :
    2 ≤ s.workspace.learned.length ∧ (∃ ls, ls = s.latestFirst s.workspace.learned ∧ next = { s with
      proof := (s.proof.logClause ls).1
      clauses := s.clauses.insert (.ofLearned ls glue (s.options.tracks ls.length glue)) }) ∨
    s.workspace.learned.length < 2 ∧ next = s := by
  have hlength : (s.latestFirst s.workspace.learned).length = s.workspace.learned.length :=
    length_stableSort _ _
  unfold installClause at hok
  split at hok
  next first second rest hlatest =>
    rw [hlatest] at hlength
    obtain ⟨_, -, hok⟩ := Traced.result_bind_eq_ok_iff.1 hok
    obtain ⟨_, -, hok⟩ := Traced.result_bind_eq_ok_iff.1 hok
    obtain ⟨⟨stored, d⟩, hstore, hok⟩ := Traced.result_bind_eq_ok_iff.1 hok
    obtain ⟨rfl, -⟩ := Prod.mk.inj (Except.ok.inj hok)
    unfold storeLearned at hstore
    obtain ⟨_, -, hstore⟩ := Traced.result_bind_eq_ok_iff.1 hstore
    obtain ⟨rfl, -⟩ := Prod.mk.inj (Except.ok.inj hstore)
    refine Or.inl ⟨?_, _, hlatest.symm, rfl⟩
    rw [← hlength]
    simp
  next hshort =>
    obtain ⟨rfl, -⟩ := Prod.mk.inj (Except.ok.inj hok)
    refine Or.inr ⟨?_, rfl⟩
    rw [← hlength]
    match hlatest : s.latestFirst s.workspace.learned with
    | [] => simp
    | [_] => simp
    | first :: second :: rest => exact absurd hlatest (hshort first second rest)

/-- Installing a clause changes the proof and the clauses only. -/
theorem next_of_installClause {asserting : Literal} {glue jump : Nat} {c : Option ClauseId}
    (hok : (s.installClause asserting glue).result = .ok (next, jump, c)) :
    ∃ proof store, next = { s with proof := proof, clauses := store } := by
  rcases installs_of_installClause hok with ⟨-, ls, -, rfl⟩ | ⟨-, rfl⟩
  · exact ⟨_, _, rfl⟩
  · exact ⟨next.proof, next.clauses, rfl⟩

/-- The first of some literals is bumped and loses its mark, then the others are. -/
theorem exists_of_bumpAll_cons {l : Literal} {ls : List Literal}
    (hok : (s.bumpAll (l :: ls)).result = .ok next) :
    ∃ heuristic, (s.heuristic.bump l.var (s.trail.isAssigned l.var)).result = .ok heuristic ∧
      (bumpAll { s with heuristic := heuristic, workspace := s.workspace.unmarkSeen l.var }
        ls).result = .ok next := by
  unfold bumpAll at hok
  obtain ⟨_, -, hok⟩ := Traced.result_bind_eq_ok_iff.1 hok
  obtain ⟨_, -, hok⟩ := Traced.result_bind_eq_ok_iff.1 hok
  obtain ⟨_, -, hok⟩ := Traced.result_bind_eq_ok_iff.1 hok
  exact Traced.result_bind_eq_ok_iff.1 hok

/-- Bumping variables changes the heuristic and the workspace only. -/
theorem next_of_bumpAll {ls : List Literal} (hok : (s.bumpAll ls).result = .ok next) :
    ∃ heuristic workspace, next = { s with heuristic := heuristic, workspace := workspace } := by
  induction ls generalizing s with
  | nil =>
    obtain rfl := Except.ok.inj hok
    exact ⟨s.heuristic, s.workspace, rfl⟩
  | cons l ls ih =>
    obtain ⟨_, -, hok⟩ := exists_of_bumpAll_cons hok
    obtain ⟨heuristic, workspace, rfl⟩ := ih hok
    exact ⟨heuristic, workspace, rfl⟩

/-- The literals met are bumped in their order. The scores decay then, and nothing is met. -/
theorem exists_of_bumpSeen (hok : s.bumpSeen.result = .ok next) :
    ∃ sequence bumped heuristic, s.bumpSequence = .ok sequence ∧
      (s.bumpAll sequence).result = .ok bumped ∧
      bumped.heuristic.decay.result = .ok heuristic ∧
      next = { bumped with
        heuristic := heuristic, workspace := { bumped.workspace with seen := [] } } := by
  unfold bumpSeen at hok
  obtain ⟨sequence, hsequence, hok⟩ := Traced.result_bind_eq_ok_iff.1 hok
  obtain ⟨bumped, hbump, hok⟩ := Traced.result_bind_eq_ok_iff.1 hok
  obtain ⟨heuristic, hdecay, hok⟩ := Traced.result_bind_eq_ok_iff.1 hok
  exact ⟨sequence, bumped, heuristic, hsequence, hbump, hdecay, (Except.ok.inj hok).symm⟩

/-- Bumping what was met changes the heuristic and the workspace only. -/
theorem next_of_bumpSeen (hok : s.bumpSeen.result = .ok next) :
    ∃ heuristic workspace, next = { s with heuristic := heuristic, workspace := workspace } := by
  obtain ⟨_, bumped, heuristic, -, hbump, -, rfl⟩ := exists_of_bumpSeen hok
  obtain ⟨_, workspace, rfl⟩ := next_of_bumpAll hbump
  exact ⟨heuristic, _, rfl⟩

/-! ## An analysis taken apart -/

/-- How an analysis that learned from a clause went, phase by phase. -/
inductive Phases (s : Solver) (c : ClauseId) : Solver → Learned → Prop where
  | intro {derived stamped recorded shrunk installed undone asserted bumped : Solver}
      {asserting : Literal} {jump : Nat} {clause : Option ClauseId} :
      (s.deriveClause c).result = .ok (derived, asserting) →
      derived.stampResolved = .ok stamped →
      stamped.recordGlue.result = .ok recorded →
      recorded.shrinkClause.result = .ok shrunk →
      (shrunk.recordSize.installClause asserting derived.currentGlue).result =
        .ok (installed, jump, clause) →
      (installed.recordJump jump).undo jump = .ok undone →
      (undone.imply asserting clause).result = .ok asserted →
      asserted.bumpSeen.result = .ok bumped →
      Phases s c bumped.clearWorkspace
        { asserting := asserting
          jump := jump
          glue := derived.currentGlue
          size := shrunk.workspace.learned.length
          clause := clause }

/-- Learning goes through its phases one after the other. -/
theorem phases_of_learn {c : ClauseId} {learned : Learned}
    (hok : (s.learn c).result = .ok (next, learned)) : s.Phases c next learned := by
  unfold learn at hok
  obtain ⟨_, -, hok⟩ := Traced.result_bind_eq_ok_iff.1 hok
  obtain ⟨_, -, hok⟩ := Traced.result_bind_eq_ok_iff.1 hok
  obtain ⟨_, -, hok⟩ := Traced.result_bind_eq_ok_iff.1 hok
  obtain ⟨⟨derived, asserting⟩, hderive, hok⟩ := Traced.result_bind_eq_ok_iff.1 hok
  obtain ⟨stamped, hstamp, hok⟩ := Traced.result_bind_eq_ok_iff.1 hok
  obtain ⟨recorded, hrecord, hok⟩ := Traced.result_bind_eq_ok_iff.1 hok
  obtain ⟨shrunk, hshrink, hok⟩ := Traced.result_bind_eq_ok_iff.1 hok
  obtain ⟨⟨installed, jump, clause⟩, hinstall, hok⟩ := Traced.result_bind_eq_ok_iff.1 hok
  obtain ⟨undone, hundo, hok⟩ := Traced.result_bind_eq_ok_iff.1 hok
  obtain ⟨asserted, himply, hok⟩ := Traced.result_bind_eq_ok_iff.1 hok
  obtain ⟨bumped, hbump, hok⟩ := Traced.result_bind_eq_ok_iff.1 hok
  obtain ⟨rfl, rfl⟩ := Prod.mk.inj (Except.ok.inj hok)
  exact .intro hderive hstamp hrecord hshrink hinstall hundo himply hbump

/-- The analysis jumped back from a solver with the trail and the heuristic from before, and
assigned one literal. -/
theorem Phases.jumps {c : ClauseId} {learned : Learned} (h : s.Phases c next learned) :
    ∃ prepared undone asserted bumped : Solver,
      (∃ workspace store proof counters, prepared = { s with
        workspace := workspace, clauses := store, proof := proof, counters := counters }) ∧
      prepared.undo learned.jump = .ok undone ∧
      undone.Pushes learned.asserting learned.clause asserted ∧
      asserted.bumpSeen.result = .ok bumped ∧ next = bumped.clearWorkspace := by
  obtain ⟨hderive, hstamp, hrecord, hshrink, hinstall, hundo, himply, hbump⟩ := h
  obtain ⟨w, uip, -, -, rfl⟩ := next_of_deriveClause hderive
  obtain ⟨activity, store, -, -, rfl⟩ := next_of_stampResolved hstamp
  obtain rfl := next_of_recordGlue hrecord
  obtain ⟨proof, store', rfl⟩ := next_of_installClause hinstall
  rcases next_of_shrinkClause hshrink with rfl | ⟨w', kept, counters', -, rfl⟩
  · exact ⟨_, _, _, _, ⟨_, _, _, _, rfl⟩, hundo, pushes_of_imply himply, hbump, rfl⟩
  · exact ⟨_, _, _, _, ⟨_, _, _, _, rfl⟩, hundo, pushes_of_imply himply, hbump, rfl⟩

/-- How an analysis went: it repeated that there is no model, found this out at the root, or
learned from the pending conflict. -/
inductive Course (s : Solver) : Solver → Outcome → Prop where
  | repeated : s.status = .unsatisfiable → Course s s .unsatisfiable
  | refuted {c : ClauseId} : s.status = .conflict c → s.currentLevel = 0 → Course s
      { s with
        proof := (s.proof.logClause []).1
        status := .unsatisfiable
        counters := s.counters.countConflict } .unsatisfiable
  | learned {c : ClauseId} {mid : Solver} {learned : Learned} : s.status = .conflict c →
      0 < s.currentLevel → (s.countConflict.learn c).result = .ok (mid, learned) →
      Course s { mid with status := .ready } (.learned learned)

/-- An analysis repeats that there is no model, refutes the formula, or learns. -/
theorem course_of_analyse {outcome : Outcome} (hok : s.analyse.result = .ok (next, outcome)) :
    s.Course next outcome := by
  unfold analyse at hok
  split at hok
  next hunsat =>
    obtain ⟨rfl, rfl⟩ := Prod.mk.inj (Except.ok.inj hok)
    exact .repeated hunsat
  next => cases hok
  next c hstatus =>
    obtain ⟨⟨mid, _⟩, hresolve, hok⟩ := Traced.result_bind_eq_ok_iff.1 hok
    obtain ⟨_, -, hok⟩ := Traced.result_bind_eq_ok_iff.1 hok
    obtain ⟨rfl, rfl⟩ := Prod.mk.inj (Except.ok.inj hok)
    unfold resolveConflict at hresolve
    split at hresolve
    next hroot =>
      obtain ⟨refuted, hrefute, hresolve⟩ := Traced.result_bind_eq_ok_iff.1 hresolve
      obtain ⟨rfl, rfl⟩ := Prod.mk.inj (Except.ok.inj hresolve)
      obtain ⟨-, rfl⟩ := learnEmpty_eq_ok_iff.1 hrefute
      exact .refuted hstatus hroot
    next habove =>
      obtain ⟨⟨mid, learned⟩, hlearn, hresolve⟩ := Traced.result_bind_eq_ok_iff.1 hresolve
      obtain ⟨rfl, rfl⟩ := Prod.mk.inj (Except.ok.inj hresolve)
      exact .learned hstatus (Nat.pos_of_ne_zero habove) hlearn

end Solver

end ClauseLearning
