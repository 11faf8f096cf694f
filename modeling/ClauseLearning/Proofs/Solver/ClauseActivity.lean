import ClauseLearning.Proofs.Conflict.MoveToFront
import ClauseLearning.Proofs.Conflict.Walk
import ClauseLearning.Proofs.Solver.Cleanliness

/-!
# The activity of clauses along a run

An analysis flushes the activity once, after it found the first unique implication point and before
it stores a clause. What waits then are the clauses used that qualify for a stamp. As long as the
glue of a learned clause is stored as it is, a clause qualifies exactly if it was given a stamp when
it was stored, so the flush succeeds and moves these clauses to the front; nothing else touches a
stamp. The only faults left to an analysis of a false clause are those of its caller: that there is
no conflict, that the conflict has no literal of the current level, and that a literal without a
reason has to be resolved.
-/

set_option autoImplicit false

namespace ClauseLearning

namespace Workspace

variable {v : View} {w : Workspace} {c : ClauseId} {conflict : Clause}

/-- The resolution of a false clause finds the first unique implication point, unless the clause has
no literal of the current level, or a literal lacks a reason that it should have. -/
theorem firstUip_faults (ht : v.trail.WellFormed)
    (he : v.trail.Justified v.clauses) (hs : v.clauses.Stampable v.options)
    (hpos : 0 < v.trail.currentLevel) (h : Tracks v.trail w) (hseen : w.seen = [])
    (hpending : w.activity.Pending v.clauses) (hc : v.clauses.get? c = some conflict)
    (hfalse : ∀ l ∈ conflict.literals, v.trail.isFalse l = true) :
    ((w.firstUip v c).Yields fun (next, uip) => FindsUip v conflict next uip) ∨
      (w.firstUip v c).result = .error .noLiteralOfCurrentLevel ∨
      (w.firstUip v c).result = .error .decisionResolved := by
  by_cases hcurrent : ∃ l ∈ conflict.literals, v.trail.level l.var = v.trail.currentLevel
  · have hcases := firstUip_cases ht he hs hpos h hseen hpending hc hfalse hcurrent
    exact hcases.imp_right fun hno => Or.inr hno.1
  · -- nothing is open after the conflict was met
    have hget : (liftM (v.clauses.get c) : Traced Clause).result = .ok conflict :=
      ClauseStore.get_eq_ok_iff.2 hc
    obtain ⟨next, n, hresolve⟩ := exists_resolve ht hs h hc fun l hl => Or.inr (hfalse l hl)
    obtain ⟨⟨a, hmeets⟩, -⟩ := meets_of_resolve ht hs h hpending hc hresolve
    have hn : n = 0 := by
      obtain ⟨new, -, hnew, hcount⟩ := hmeets.seen_eq
      rw [hcount, List.countP_eq_zero]
      intro l hl hlevel
      exact hcurrent ⟨l, (hnew l hl).1, beq_iff_eq.1 hlevel⟩
    subst hn
    refine Or.inr (Or.inl ?_)
    unfold firstUip
    rw [Traced.result_bind_of_ok hget, Traced.result_bind_of_ok hresolve]
    rfl

end Workspace

namespace Solver

variable {s next start : Solver} {ops : List Operation} {c : ClauseId}

/-- Bumping variables leaves the activity of clauses. -/
theorem activity_of_bumpAll {ls : List Literal} (hok : (s.bumpAll ls).result = .ok next) :
    next.workspace.activity = s.workspace.activity := by
  induction ls generalizing s with
  | nil =>
    obtain rfl := Except.ok.inj hok
    rfl
  | cons l ls ih =>
    obtain ⟨_, -, hok⟩ := exists_of_bumpAll_cons hok
    have hrest := ih hok
    exact hrest

/-- Bumping what was met leaves the activity of clauses. -/
theorem activity_of_bumpSeen (hok : s.bumpSeen.result = .ok next) :
    next.workspace.activity = s.workspace.activity := by
  obtain ⟨_, bumped, _, -, hbump, -, rfl⟩ := exists_of_bumpSeen hok
  have hbumped := activity_of_bumpAll hbump
  exact hbumped

/-- An analysis that learned flushed the activity once, and stored at most one clause. -/
theorem Phases.flushes {learned : Learned} (hs : s.Coherent) (h : s.Phases c next learned) :
    ∃ w uip store, (s.workspace.firstUip s.view c).result = .ok (w, uip) ∧
      learned.asserting = uip.negate ∧
      w.activity.flush s.clauses = .ok (next.workspace.activity, store) ∧
      (next.clauses = store ∨ ∃ ls glue tracked,
        next.clauses = store.insert (.ofLearned ls glue tracked)) := by
  cases h with
  | @intro derived stamped recorded shrunk installed undone asserted bumped asserting jump clause
    hderive hstamp hrecord hshrink hinstall hundo himply hbump =>
  obtain ⟨w, uip, activity, store, hfirst, hasserting, hw, -, hflush, rfl⟩ :=
    hs.recorded hderive hstamp hrecord
  obtain ⟨kept, counters, hshrunk⟩ := workspace_of_shrinkClause hshrink hs.trail hw rfl
  -- neither the jump nor the bumps touch the stored clauses and the activity
  have hafter : bumped.clearWorkspace.clauses = installed.clauses ∧
      bumped.clearWorkspace.workspace.activity = installed.workspace.activity := by
    have hactivity := activity_of_bumpSeen hbump
    obtain ⟨_, _, rfl⟩ := next_of_bumpSeen hbump
    obtain ⟨_, _, rfl⟩ := (pushes_of_imply himply).next_eq
    obtain ⟨-, rfl⟩ := undo_eq_ok hundo
    exact ⟨rfl, hactivity⟩
  rw [hafter.1, hafter.2]
  rcases installs_of_installClause hinstall with ⟨-, ls, -, rfl⟩ | ⟨-, rfl⟩
  · rw [hshrunk]
    exact ⟨w, uip, store, hfirst, hasserting, hflush, Or.inr ⟨_, _, _, rfl⟩⟩
  · rw [hshrunk]
    exact ⟨w, uip, store, hfirst, hasserting, hflush, Or.inl rfl⟩

/-! ## Faults of an analysis -/

/-- From a false clause a clause is derived, unless a literal of the current level or a reason is
missing. -/
theorem Founded.deriveClause_faults {conflict : Clause} (h : s.Founded)
    (hpos : 0 < s.currentLevel) (hc : s.clauses.get? c = some conflict)
    (hfalse : ∀ l ∈ conflict.literals, s.trail.isFalse l = true) :
    ((s.deriveClause c).Yields fun (derived, asserting) => s.Reaches conflict derived asserting) ∨
      (s.deriveClause c).result = .error .noLiteralOfCurrentLevel ∨
      (s.deriveClause c).result = .error .decisionResolved := by
  have hfirst := Workspace.firstUip_faults (v := s.view) h.trail h.justified h.stampable hpos
    (h.rests.tracks h.marks) h.toCoherent.seen_eq h.toCoherent.pending hc hfalse
  refine Or.imp deriveClause_yields_of_firstUip (Or.imp ?_ ?_) hfirst
  · intro hno
    unfold deriveClause
    exact Traced.result_bind_of_error hno
  · intro hno
    unfold deriveClause
    exact Traced.result_bind_of_error hno

/-- A clause is learned from a false clause, unless a literal of the current level or a reason is
missing. -/
theorem Founded.learn_faults {conflict : Clause} (h : s.Founded)
    (hpos : 0 < s.currentLevel) (hc : s.clauses.get? c = some conflict)
    (hfalse : ∀ l ∈ conflict.literals, s.trail.isFalse l = true) :
    ((s.learn c).Yields fun (next, _) => next.Founded) ∨
      (s.learn c).result = .error .noLiteralOfCurrentLevel ∨
      (s.learn c).result = .error .decisionResolved := by
  rcases h.deriveClause_faults hpos hc hfalse with hderive | hno
  · refine Or.inl ((learn_yields_of_derived h hpos hc hfalse hderive).mono ?_)
    rintro ⟨next, learned⟩ ⟨clause, hlearns, -⟩
    exact hlearns.founded h
  · right
    have hclear : (s.audit.check s.workspace.isClear .auditWorkspace).result = .ok () :=
      AuditLevel.result_check_eq_ok_iff.2 (Or.inr h.rests.clear)
    have hget : (liftM (s.clauses.get c) : Traced Clause).result = .ok conflict :=
      ClauseStore.get_eq_ok_iff.2 hc
    unfold learn
    rw [Traced.result_bind_of_ok hclear, Traced.result_bind_of_ok hget,
      Traced.result_bind_of_ok (Traced.result_tell _)]
    exact hno.imp Traced.result_bind_of_error Traced.result_bind_of_error

/-- The analysis of a false clause can only fail because the clause has no literal of the current
level or because a literal lacks a reason that it should have. -/
theorem Founded.analyse_faults (h : s.Founded)
    (hfalse : ∀ c, s.status = .conflict c → s.Falsified c) {e : Fault}
    (hfault : s.analyse.result = .error e) :
    e = .noDeclaredConflict ∨ e = .noLiteralOfCurrentLevel ∨ e = .decisionResolved := by
  cases hstatus : s.status with
  | unsatisfiable =>
    unfold Solver.analyse at hfault
    rw [hstatus] at hfault
    cases hfault
  | ready =>
    unfold Solver.analyse at hfault
    rw [hstatus] at hfault
    exact Or.inl (Except.error.inj hfault).symm
  | conflict c =>
    rcases Nat.eq_zero_or_pos s.currentLevel with hroot | hpos
    · obtain ⟨_, hok, -⟩ := analyse_refutes h hroot hstatus
      rw [hok] at hfault
      cases hfault
    · obtain ⟨conflict, hc, hfalse⟩ := hfalse c hstatus
      have hcount : s.countConflict.Founded := h.congr rfl rfl h.serves rfl rfl
      have habove : ¬ s.countConflict.currentLevel = 0 := Nat.ne_of_gt hpos
      unfold Solver.analyse resolveConflict at hfault
      rw [hstatus] at hfault
      simp only [if_neg habove] at hfault
      right
      -- what learning leaves passes the audit of the cursor, so a fault is one of learning
      rcases hcount.learn_faults hpos hc hfalse with ⟨⟨mid, learned⟩, hlearn, hmid⟩ | hno
      · have haudit : ({ mid with status := .ready } : Solver).auditCursor.Yields fun _ => True :=
          (hmid.congr rfl rfl hmid.serves rfl rfl).auditCursor_yields
        obtain ⟨_, haudit, -⟩ := haudit
        rw [Traced.result_bind_of_ok (Traced.result_bind_of_ok hlearn),
          Traced.result_bind_of_ok haudit] at hfault
        cases hfault
      · rcases hno with hno | hno
        · rw [Traced.result_bind_of_error (Traced.result_bind_of_error hno)] at hfault
          exact Or.inl (Except.error.inj hfault).symm
        · rw [Traced.result_bind_of_error (Traced.result_bind_of_error hno)] at hfault
          exact Or.inr (Except.error.inj hfault).symm

/-! ## Stamps along a run -/

/-- Whether a stored clause carries a stamp. -/
def tracks (s : Solver) (c : ClauseId) : Bool := (s.clauses.get? c).any Clause.tracked

/-- The latest stamp. -/
def numStamps (s : Solver) : Nat := s.workspace.activity.numStamps

/-- The learned clauses that are too long and of too high a glue to be kept anyway carry stamps, and
the stamps tell clauses apart. -/
structure Stamped (s : Solver) : Prop where
  tracked_iff : ∀ c clause, s.clauses.get? c = some clause →
    (clause.tracked = true ↔
      clause.learned = true ∧ s.options.tracks clause.size clause.glue = true)
  ordered : Activity.Ordered s.numStamps s.clauses

namespace Stamped

/-- In a new solver no clause carries a stamp. -/
theorem empty (o : Options) (audit : AuditLevel) (proof : ProofLog) :
    (Solver.empty o audit proof).Stamped where
  tracked_iff := by
    intro c clause hc
    rw [get?_clauses_empty] at hc
    cases hc
  ordered := by
    have hzero : ∀ c, Activity.stampOf (Solver.empty o audit proof).clauses c = 0 := by
      intro c
      unfold Activity.stampOf
      rw [get?_clauses_empty]
      rfl
    refine ⟨fun c d hpos => ?_, fun c => ?_⟩
    · rw [hzero] at hpos
      exact absurd hpos (Nat.lt_irrefl 0)
    · rw [hzero]
      exact Nat.zero_le _

/-- The order by stamps depends on the clauses, the options and the latest stamp only. -/
theorem congr (h : s.Stamped) (hclauses : next.clauses = s.clauses)
    (hoptions : next.options = s.options) (hstamps : next.numStamps = s.numStamps) :
    next.Stamped := by
  refine ⟨?_, ?_⟩
  · rw [hclauses, hoptions]
    exact h.tracked_iff
  · rw [hclauses, hstamps]
    exact h.ordered

/-- Clauses of the formula carry no stamp. -/
theorem adds (h : s.Stamped) {ls : List Literal} (ha : s.Adds ls next) : next.Stamped := by
  cases ha with
  | refused _ => exact h
  | dropped _ => exact h
  | refuted _ => exact h.congr rfl rfl rfl
  | unit _ hp =>
    obtain ⟨_, _, rfl⟩ := hp.next_eq
    exact h.congr rfl rfl rfl
  | @stored rest _ _ =>
    refine ⟨fun c clause hc => ?_, h.ordered.insert rfl⟩
    rw [ClauseStore.get?_insert] at hc
    split at hc
    · obtain rfl := Option.some.inj hc
      simp [Clause.ofFormula]
    · exact h.tracked_iff c clause hc

/-- The clauses that qualify for a stamp are those that carry one. -/
theorem qualifies_eq (h : s.Stamped) (c : ClauseId) : s.view.qualifies c = s.tracks c := by
  unfold View.qualifies tracks
  show (s.clauses.get? c).any _ = _
  cases hc : s.clauses.get? c with
  | none => rfl
  | some clause =>
    rw [Option.any_some, Option.any_some, Bool.eq_iff_iff, Bool.and_eq_true]
    exact (h.tracked_iff c clause hc).symm

/-- An analysis that learned moved the clauses with stamps among those it used to the front. -/
theorem moves {learned : Learned} (h : s.Stamped) (hs : s.Founded) (hfalse : s.Falsified c)
    (hstatus : s.status = .conflict c) (hok : s.analyse.result = .ok (next, .learned learned)) :
    Activity.MovesToFront s.numStamps s.clauses
      ((s.view.resolvedClauses c learned.asserting.negate).filter s.tracks) next.numStamps
      next.clauses := by
  cases course_of_analyse hok with
  | @learned c' mid _ hstatus' _ hlearn =>
    obtain rfl : c' = c := Status.conflict.inj (hstatus'.symm.trans hstatus)
    have hcount : s.countConflict.Coherent := hs.toCoherent.congr rfl hs.serves rfl
    obtain ⟨w, uip, store, hfirst, hasserting, hflush, hclauses⟩ :=
      (phases_of_learn hlearn).flushes hcount
    have hused : Workspace.Used s.view s.numStamps (s.view.resolvedClauses c' uip) w :=
      Workspace.firstUip_used (v := s.view) hs.trail (hs.rests.used hs.marks) c' _ hfirst
    have hqualifies : (s.view.resolvedClauses c' uip).filter s.view.qualifies =
        (s.view.resolvedClauses c' uip).filter s.tracks :=
      List.filter_congr fun d _ => h.qualifies_eq d
    obtain ⟨conflict, hc, hliterals⟩ := hfalse
    have hnodup := View.nodup_resolvedClauses (v := s.view) hs.trail hs.justified hc hliterals uip
    have hactivity := hused.activity_eq
    rw [hqualifies] at hactivity
    have hmoves := Activity.movesToFront_of_flush (a := w.activity)
      (by rw [hactivity]; exact h.ordered) (by rw [hactivity]; exact hnodup.filter _) hflush
    rw [hactivity] at hmoves
    rw [hasserting, Literal.negate_negate]
    rcases hclauses with heq | ⟨ls, glue, tracked, heq⟩
    · show Activity.MovesToFront _ _ _ _ mid.clauses
      rw [heq]
      exact hmoves
    · show Activity.MovesToFront _ _ _ _ mid.clauses
      rw [heq]
      exact hmoves.insert rfl

/-- Learning a clause whose glue is stored as it is. -/
theorem analyse {outcome : Outcome} (h : s.Stamped) (hs : s.Founded)
    (hfalse : ∀ c, s.status = .conflict c → s.Falsified c)
    (hok : s.analyse.result = .ok (next, outcome))
    (hglue : ∀ learned, outcome = .learned learned → learned.glue ≤ Clause.maxGlue) :
    next.Stamped := by
  cases course_of_analyse hok with
  | repeated _ => exact h
  | refuted _ _ => exact h.congr rfl rfl rfl
  | @learned c mid learned hstatus _ _ =>
    have hmoves := h.moves hs (hfalse c hstatus) hstatus hok
    obtain ⟨-, clause, mid', hlearns, hnext⟩ := hs.learns_of_analyse hfalse hok
    refine ⟨fun d found hd => ?_, hmoves.ordered h.ordered⟩
    rw [hnext] at hd ⊢
    show _ ↔ _ ∧ mid'.options.tracks found.size found.glue = true
    rw [hlearns.options_eq]
    rcases hlearns.get?_cases hd with ⟨old, stamp, hold, rfl⟩ | ⟨-, rfl, -⟩
    · exact h.tracked_iff d old hold
    · have hmin : min learned.glue Clause.maxGlue = learned.glue :=
        Nat.min_eq_left (hglue learned rfl)
      show s.options.tracks clause.length learned.glue = true ↔
        true = true ∧ s.options.tracks clause.length (min learned.glue Clause.maxGlue) = true
      rw [hmin]
      simp

end Stamped

/-- The rule that operations are truthful and that the glue of a learned clause can be stored. -/
def shallow (s : Solver) (op : Operation) : Bool :=
  truthful s op && match op, s.analyse.result with
    | .analyse, .ok (_, .learned learned) => Nat.ble learned.glue Clause.maxGlue
    | _, _ => true

/-- Operations keep the clauses in the order of their stamps. -/
theorem Stamped.perform (h : s.Stamped) (hs : s.Founded) {op : Operation}
    (hallows : shallow s op = true) (hok : s.perform op = .ok next) : next.Stamped := by
  obtain ⟨htruthful, hglue⟩ := Bool.and_eq_true_iff.1 hallows
  cases performs_of_perform hok with
  | newVariable => exact h.congr rfl rfl rfl
  | addClause _ hadds => exact h.adds hadds
  | decide _ _ _ => exact h.congr rfl rfl rfl
  | nextDecision _ => exact h.congr rfl rfl rfl
  | assign hp =>
    obtain ⟨_, _, rfl⟩ := hp.next_eq
    exact h.congr rfl rfl rfl
  | ignored _ => exact h
  | declared _ _ => exact h.congr rfl rfl rfl
  | analyse hanalyse =>
    refine h.analyse hs (fun _ hstatus => falsified_of_permits htruthful hstatus) hanalyse ?_
    rintro learned rfl
    rw [hanalyse] at hglue
    exact Nat.le_of_ble_eq_true hglue
  | backtrack hundo =>
    obtain ⟨-, rfl⟩ := undo_eq_ok hundo
    exact h.congr rfl rfl rfl
  | removeFromQueue _ => exact h.congr rfl rfl rfl
  | iterate => exact h.congr rfl rfl rfl

/-- Along a run the clauses stay in the order of their stamps. -/
theorem Run.stamped (h : Run shallow start ops s) (hstart : start.Founded)
    (hstamped : start.Stamped) : s.Founded ∧ s.Stamped := by
  induction h with
  | start => exact ⟨hstart, hstamped⟩
  | step _ hallows hok ih =>
    obtain ⟨hs, h⟩ := ih
    exact ⟨hs.perform (Bool.and_eq_true_iff.1 hallows).1 hok, h.perform hs hallows hok⟩

/-- How the activity of clauses is recorded. The clauses with stamps are the learned ones that are
too long and of too high a glue to be kept anyway, and their stamps can be read and written; stamps
tell clauses apart; and an analysis above the root moves the clauses with stamps among those it
used to the front. -/
structure RecordsActivity (s : Solver) : Prop where
  tracked_iff : ∀ c clause, s.clauses.get? c = some clause →
    (clause.tracked = true ↔ clause.learned = true ∧ s.options.keepSize < clause.size ∧
      s.options.keepGlue < clause.glue)
  accessible : ∀ c clause, s.clauses.get? c = some clause → s.view.qualifies c = true →
    clause.getStamp = .ok clause.stamp ∧ ∀ n, ∃ store, s.clauses.setStamp c n = .ok store
  faults : truthful s .analyse = true → ∀ e, s.analyse.result = .error e →
    e = .noDeclaredConflict ∨ e = .noLiteralOfCurrentLevel ∨ e = .decisionResolved
  distinct : ∀ c d, 0 < Activity.stampOf s.clauses c →
    Activity.stampOf s.clauses c = Activity.stampOf s.clauses d → c = d
  bounded : ∀ c, Activity.stampOf s.clauses c ≤ s.numStamps
  analyses : ∀ c next outcome, truthful s .analyse = true → s.status = .conflict c →
    0 < s.currentLevel → s.analyse.result = .ok (next, outcome) →
    ∃ learned, outcome = .learned learned ∧
      (s.view.resolvedClauses c learned.asserting.negate).Nodup ∧
      Activity.MovesToFront s.numStamps s.clauses
        ((s.view.resolvedClauses c learned.asserting.negate).filter s.tracks) next.numStamps
        next.clauses

/-- Clauses in the order of their stamps record the activity. -/
theorem Stamped.recordsActivity (h : s.Stamped) (hs : s.Founded) : s.RecordsActivity where
  tracked_iff := by
    intro c clause hc
    rw [h.tracked_iff c clause hc, Options.tracks, Bool.and_eq_true, decide_eq_true_eq,
      decide_eq_true_eq]
  accessible := by
    intro c clause hc hqualifies
    have htracked : clause.tracked = true := by
      rw [h.qualifies_eq, tracks, hc] at hqualifies
      exact hqualifies
    refine ⟨if_pos htracked, fun n => ?_⟩
    obtain ⟨store, hset, -⟩ := ClauseStore.exists_setStamp hc htracked n
    exact ⟨store, hset⟩
  faults := fun hallows _ hfault =>
    hs.analyse_faults (fun _ hstatus => falsified_of_permits hallows hstatus) hfault
  distinct := h.ordered.distinct
  bounded := h.ordered.bounded
  analyses := by
    intro c next outcome hallows hstatus hpos hok
    have hfalse := falsified_of_permits hallows hstatus
    cases course_of_analyse hok with
    | repeated hunsat => simp [hstatus] at hunsat
    | refuted _ hroot => omega
    | @learned _ mid learned _ _ _ =>
      obtain ⟨conflict, hc, hliterals⟩ := id hfalse
      exact ⟨learned, rfl, View.nodup_resolvedClauses (v := s.view) hs.trail hs.justified hc
        hliterals _, h.moves hs hfalse hstatus hok⟩

/-- Under every choice of the sizes and glues to be kept, in every state that truthful operations
lead to from a new solver, as long as glues can be stored, clause activity is recorded by stamps. -/
theorem Run.records_activity {o : Options} {audit : AuditLevel} {proof : ProofLog}
    (hnew : Solver.new o audit proof = .ok start) (hrun : Run shallow start ops s) :
    s.RecordsActivity := by
  obtain rfl := eq_empty_of_new hnew
  obtain ⟨hs, h⟩ := hrun.stamped (grounded_empty o audit proof).founded (.empty o audit proof)
  exact h.recordsActivity hs

/-- A clause of two literals is learned and carries a stamp. After a jump to the root it is the
reason of a literal that another clause contradicts. -/
def reusingRun : List Operation :=
  [.newVariable, .newVariable, .newVariable,
    .addClause [⟨0, false⟩, ⟨1, false⟩, ⟨2, true⟩], .addClause [⟨0, false⟩, ⟨1, false⟩, ⟨2, false⟩],
    .addClause [⟨0, true⟩, ⟨1, false⟩], .decide ⟨0, true⟩, .decide ⟨1, true⟩,
    .assign ⟨2, true⟩ (some 0), .declareConflict 1, .analyse, .backtrack 0, .decide ⟨1, true⟩,
    .assign ⟨0, false⟩ (some 3), .declareConflict 2]

/-- The analysis that follows gives the learned clause the first stamp. -/
theorem reusingRun_records_activity : ∃ s next outcome,
    runBy shallow (Solver.empty { keepSize := 1, keepGlue := 1 } .full ⟨none⟩) reusingRun = some s ∧
      s.RecordsActivity ∧ s.analyse.result = .ok (next, outcome) ∧
      Activity.stampOf next.clauses 3 = 1 := by
  have hnew : Solver.new { keepSize := 1, keepGlue := 1 } .full ⟨none⟩ =
      .ok (Solver.empty { keepSize := 1, keepGlue := 1 } .full ⟨none⟩) := rfl
  have hend : ((runBy shallow (Solver.empty { keepSize := 1, keepGlue := 1 } .full ⟨none⟩)
      reusingRun).map fun s => s.analyse.result.toOption.map fun p =>
        Activity.stampOf p.1.clauses 3) = some (some 1) := by decide +kernel
  obtain ⟨s, hrun, hend⟩ := Option.map_eq_some_iff.1 hend
  obtain ⟨⟨next, outcome⟩, hanalyse, hstamp⟩ := Option.map_eq_some_iff.1 hend
  exact ⟨s, next, outcome, hrun, Run.records_activity hnew (Run.start.of_runBy hrun),
    toOption_eq_some_iff.1 hanalyse, hstamp⟩

end Solver

end ClauseLearning
