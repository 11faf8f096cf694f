import ClauseLearning.Proofs.Solver.Learning

/-!
# Analysing a declared conflict

The analysis of a false clause at the root ends the search; above the root it learns a clause, if
the conflict has a literal of the current level. Either way the solver stays grounded, and the audit
of the decision cursor passes.
-/

set_option autoImplicit false

namespace ClauseLearning

namespace Solver

variable {s next : Solver} {clause : List Literal} {learned : Learned}

/-- A stored clause is false. -/
def Falsified (s : Solver) (c : ClauseId) : Prop :=
  ∃ conflict, s.clauses.get? c = some conflict ∧ ∀ l ∈ conflict.literals, s.trail.isFalse l = true

/-- A stored clause has a literal of the current level. -/
def MeetsCurrent (s : Solver) (c : ClauseId) : Prop :=
  ∃ conflict, s.clauses.get? c = some conflict ∧
    ∃ l ∈ conflict.literals, s.trail.level l.var = s.currentLevel

/-- A clause of which both is known. -/
theorem Falsified.exists_conflict {c : ClauseId} (h : s.Falsified c) (h' : s.MeetsCurrent c) :
    ∃ conflict, s.clauses.get? c = some conflict ∧
      (∀ l ∈ conflict.literals, s.trail.isFalse l = true) ∧
      ∃ l ∈ conflict.literals, s.trail.level l.var = s.currentLevel := by
  obtain ⟨conflict, hc, hfalse⟩ := h
  obtain ⟨conflict', hc', hcurrent⟩ := h'
  obtain rfl : conflict = conflict' := Option.some.inj (hc.symm.trans hc')
  exact ⟨conflict, hc, hfalse, hcurrent⟩

/-- What becomes of the solver when a false clause is analysed. -/
inductive Analyses (s : Solver) (c : ClauseId) : Solver → Prop where
  | refuted {next : Solver} : s.currentLevel = 0 →
      (∃ counters, next = { s with
        proof := (s.proof.logClause []).1, status := .unsatisfiable, counters := counters }) →
      Analyses s c next
  | learned {clause : List Literal} {learned : Learned} {mid : Solver} :
      0 < s.currentLevel → s.Learns clause learned mid →
      Analyses s c { mid with status := .ready }

/-- Counting a conflict has no influence on what is learned. -/
theorem Learns.of_countConflict (h : s.countConflict.Learns clause learned next) :
    s.Learns clause learned next :=
  ⟨⟨h.asserting, h.rup, h.jump_lt, h.jump_ge, h.stored, h.trail_eq, h.proof_eq, h.options_eq,
    h.audit_eq, h.status_eq⟩, h.coherent, h.queued⟩

namespace Learns

/-- The level that was jumped to is the current one. -/
theorem currentLevel_eq (h : s.Learns clause learned next) : next.currentLevel = learned.jump := by
  have hlt := h.jump_lt
  unfold currentLevel at hlt ⊢
  rw [h.trail_eq, Trail.currentLevel_push, Trail.currentLevel_cut]
  exact Nat.min_eq_left (Nat.le_of_lt hlt)

/-- Learning creates no variable. -/
theorem numVariables_eq (h : s.Learns clause learned next) :
    next.numVariables = s.numVariables := by
  unfold numVariables
  rw [h.trail_eq, Trail.numVariables_push, Trail.numVariables_cut]

/-- The variable of the asserting literal exists and is free after the jump. -/
theorem asserting_free (h : s.Learns clause learned next) (hs : s.Coherent) :
    learned.asserting.var < (s.trail.cut learned.jump).numVariables ∧
      (s.trail.cut learned.jump).isAssigned learned.asserting.var = false := by
  have hassigned := Trail.isAssigned_of_isFalse (h.asserting.falsified _ h.asserting.mem)
  constructor
  · rw [Trail.numVariables_cut]
    exact Trail.lt_numVariables_of_isAssigned hassigned
  · rw [Bool.eq_false_iff, ne_eq, hs.trail.isAssigned_cut, h.asserting.current]
    exact fun hle => absurd h.jump_lt (Nat.not_lt.2 hle.2)

/-- The other literals of the clause are false after the jump. -/
theorem isFalse_of_ne (h : s.Learns clause learned next) (hs : s.Coherent) {l : Literal}
    (hl : l ∈ clause) (hne : l ≠ learned.asserting) :
    (s.trail.cut learned.jump).isFalse l = true :=
  (hs.trail.isFalse_cut _ l).2 ⟨h.asserting.falsified l hl, h.jump_ge l hl hne⟩

/-- A stored clause is one of those from before, up to its stamp, or the learned one. -/
theorem get?_cases (h : s.Learns clause learned next) {d : ClauseId} {found : Clause}
    (hd : next.clauses.get? d = some found) :
    (∃ old stamp, s.clauses.get? d = some old ∧ found = { old with stamp := stamp }) ∨
      (learned.clause = some d ∧ found = .ofLearned clause learned.glue
        (s.options.tracks clause.length learned.glue) ∧
        ∃ k ∈ clause, k ≠ learned.asserting ∧ s.trail.level k.var = learned.jump) := by
  rcases h.stored with ⟨-, -, -, hstore⟩ | ⟨hsecond, hc, store, hstore, heq⟩
  · exact Or.inl (hstore.exists_of_get? hd)
  · rw [heq, ClauseStore.get?_insert] at hd
    split at hd
    next hnew =>
      refine Or.inr ⟨?_, (Option.some.inj hd).symm, hsecond⟩
      rw [hc, hnew, hstore.size_eq]
    next => exact Or.inl (hstore.exists_of_get? hd)

/-- Learning keeps all clauses. -/
theorem keptIn (h : s.Learns clause learned next) : s.clauses.KeptIn next.clauses := by
  rcases h.stored with ⟨-, -, -, hstore⟩ | ⟨-, -, store, hstore, heq⟩
  · exact hstore.keptIn
  · rw [heq]
    exact hstore.keptIn.trans (ClauseStore.keptIn_insert _ _)

/-- The learned clause is stored under its name. -/
theorem get?_clause (h : s.Learns clause learned next) {c : ClauseId}
    (hc : learned.clause = some c) : next.clauses.get? c = some
      (.ofLearned clause learned.glue (s.options.tracks clause.length learned.glue)) := by
  rcases h.stored with ⟨-, -, hnone, -⟩ | ⟨-, hsome, store, hstore, heq⟩
  · rw [hnone] at hc
    cases hc
  · rw [hsome] at hc
    obtain rfl := Option.some.inj hc
    rw [heq, ClauseStore.get?_insert, if_pos hstore.size_eq.symm]

/-- A clause that is not stored has one literal, and the jump leads to the root. -/
theorem eq_singleton (h : s.Learns clause learned next) (hnone : learned.clause = none) :
    clause = [learned.asserting] ∧ learned.jump = 0 := by
  rcases h.stored with ⟨heq, hjump, -, -⟩ | ⟨-, hsome, -⟩
  · exact ⟨heq, hjump⟩
  · rw [hnone] at hsome
    cases hsome

/-- The learned clause implies the asserting literal after the jump. -/
theorem implies (h : s.Learns clause learned next) (hs : s.Coherent) {c : ClauseId}
    (hc : learned.clause = some c) :
    (s.trail.cut learned.jump).Implies next.clauses learned.asserting c :=
  ⟨_, h.get?_clause hc, h.asserting.mem, fun _ hk hne => h.isFalse_of_ne hs hk hne⟩

/-- A clause with a literal besides the asserting one is proper. -/
theorem proper (h : s.Learns clause learned next) {k : Literal} (hk : k ∈ clause)
    (hne : k ≠ learned.asserting) (glue : Nat) (tracked : Bool) :
    (Clause.ofLearned clause glue tracked).Proper s.numVariables := by
  refine ⟨?_, h.asserting.distinct, fun l hl =>
    Trail.lt_numVariables_of_isAssigned (Trail.isAssigned_of_isFalse (h.asserting.falsified l hl))⟩
  show 2 ≤ clause.length
  have hsub : [learned.asserting, k] ⊆ clause := by
    intro x hx
    rcases List.mem_cons.1 hx with rfl | hx
    · exact h.asserting.mem
    · exact List.mem_singleton.1 hx ▸ hk
  have hnodup : [learned.asserting, k].Nodup := by
    simp only [List.nodup_cons, List.mem_singleton, List.not_mem_nil, not_false_eq_true,
      List.nodup_nil, and_true]
    exact fun heq => hne heq.symm
  exact (List.subperm_of_subset hnodup hsub).length_le

/-- A solver that learned a clause is founded. -/
theorem founded (h : s.Learns clause learned next) (hs : s.Founded) : next.Founded := by
  obtain ⟨hknown, hfree⟩ := h.asserting_free hs.toCoherent
  refine ⟨h.coherent, ?_, ?_, ?_⟩
  · rw [h.trail_eq]
    exact Trail.Justified.push (hs.trail.cut _) ((hs.justified.cut hs.trail _).mono h.keptIn)
      hknown hfree fun c hc => h.implies hs.toCoherent hc
  · intro d found hd
    rw [h.numVariables_eq]
    rcases h.get?_cases hd with ⟨old, stamp, hold, rfl⟩ | ⟨-, rfl, k, hk, hne, -⟩
    · have hproper := hs.proper d old hold
      exact ⟨hproper.two, hproper.distinct, hproper.known⟩
    · exact h.proper hk hne _ _
  · intro d found hd hlearned htracks
    rw [h.options_eq] at htracks
    rcases h.get?_cases hd with ⟨old, stamp, hold, rfl⟩ | ⟨-, rfl, -⟩
    · exact hs.stampable d old hold hlearned htracks
    · exact Options.tracks_of_stored htracks

/-- A literal without a reason is asserted at the root only. -/
theorem grounded (h : s.Learns clause learned next) (hs : s.Grounded) : next.Grounded := by
  obtain ⟨hknown, hfree⟩ := h.asserting_free hs.toCoherent
  refine (h.founded hs.founded).grounded ?_
  rw [h.trail_eq]
  refine Trail.Explained.push (hs.trail.cut _) ((hs.explained.cut hs.trail _).mono h.keptIn)
    hknown hfree (fun c hc => h.implies hs.toCoherent hc) fun hnone => ?_
  rcases h.stored with ⟨-, hjump, -⟩ | ⟨-, hsome, -⟩
  · rw [Trail.currentLevel_cut, hjump]
    exact Nat.zero_min _
  · rw [hsome] at hnone
    cases hnone

end Learns

namespace Analyses

variable {c : ClauseId}

/-- An analysis keeps the solver founded. -/
theorem founded (h : s.Analyses c next) (hs : s.Founded) : next.Founded := by
  cases h with
  | refuted _ heq =>
    obtain ⟨counters, rfl⟩ := heq
    exact hs.congr rfl rfl hs.serves rfl rfl
  | @learned _ _ mid _ hlearns =>
    have hmid := hlearns.founded hs
    exact hmid.congr rfl rfl hmid.serves rfl rfl

/-- An analysis keeps the solver grounded. -/
theorem grounded (h : s.Analyses c next) (hs : s.Grounded) : next.Grounded := by
  cases h with
  | refuted _ heq =>
    obtain ⟨counters, rfl⟩ := heq
    exact hs.congr rfl rfl hs.serves rfl rfl
  | @learned _ _ mid _ hlearns =>
    have hmid := hlearns.grounded hs
    exact hmid.congr rfl rfl hmid.serves rfl rfl

/-- No variable leaves the queue. -/
theorem queued (h : s.Analyses c next) (v : Variable) :
    v ∈ next.heuristic.queue.toList ↔ v ∈ s.heuristic.queue.toList := by
  cases h with
  | refuted _ heq =>
    obtain ⟨counters, rfl⟩ := heq
    exact Iff.rfl
  | learned _ hlearns => exact hlearns.queued v

end Analyses

/-- Above the root a false clause with a literal of the current level is analysed by learning. -/
theorem analyse_learns {c : ClauseId} (h : s.Grounded) (hpos : 0 < s.currentLevel)
    (hstatus : s.status = .conflict c) (hfalse : s.Falsified c) (hcurrent : s.MeetsCurrent c) :
    s.analyse.Yields fun (next, outcome) => ∃ clause learned mid, s.Learns clause learned mid ∧
      s.Lists clause learned ∧ next = { mid with status := .ready } ∧
        outcome = .learned learned := by
  obtain ⟨conflict, hc, hfalse, hl⟩ := hfalse.exists_conflict hcurrent
  have hcount : s.countConflict.Grounded := h.congr rfl rfl h.serves rfl rfl
  have hroot : ¬ s.countConflict.currentLevel = 0 := Nat.ne_of_gt hpos
  unfold analyse
  rw [hstatus]
  refine .bind (P := fun p => ∃ clause learned mid, s.Learns clause learned mid ∧
    s.Lists clause learned ∧ p.1 = { mid with status := .ready } ∧ p.2 = .learned learned) ?_ ?_
  · unfold resolveConflict
    rw [if_neg hroot]
    refine .bind (learn_yields hcount hpos hc hfalse hl) ?_
    rintro ⟨mid, learned⟩ ⟨clause, hlearns, hlists⟩
    exact .pure ⟨clause, learned, mid, hlearns.of_countConflict,
      ⟨hlists.head_eq, hlists.latest_first, hlists.size_eq⟩, rfl, rfl⟩
  · rintro ⟨next, outcome⟩ ⟨clause, learned, mid, hlearns, hlists, rfl, rfl⟩
    have hnext := (Analyses.learned (c := c) hpos hlearns).grounded h
    exact .bind hnext.auditCursor_yields fun _ _ => .pure ⟨clause, learned, mid, hlearns, hlists,
      rfl, rfl⟩

/-- At the root a false clause is analysed by refuting the formula. -/
theorem analyse_refutes {c : ClauseId} (h : s.Founded) (hroot : s.currentLevel = 0)
    (hstatus : s.status = .conflict c) : s.analyse.Yields fun (next, _) => s.Analyses c next := by
  have hcount : s.countConflict.currentLevel = 0 := hroot
  unfold analyse
  rw [hstatus]
  refine .bind (P := fun p => s.Analyses c p.1) ?_ fun (next, _) hnext =>
    .bind (hnext.founded h).auditCursor_yields fun _ _ => .pure hnext
  unfold resolveConflict
  rw [if_pos hcount]
  have hgo : s.countConflict.status ≠ .unsatisfiable := fun hno => nomatch hstatus.symm.trans hno
  refine .bind ⟨_, learnEmpty_eq_ok_iff.2 ⟨hgo, rfl⟩, rfl⟩ ?_
  rintro _ rfl
  exact .pure (.refuted hroot ⟨_, rfl⟩)

/-- A false clause can be analysed at the root, and above it if it has a literal of the current
level. -/
theorem analyse_yields {c : ClauseId} (h : s.Grounded) (hstatus : s.status = .conflict c)
    (hfalse : s.Falsified c) (hcurrent : 0 < s.currentLevel → s.MeetsCurrent c) :
    s.analyse.Yields fun (next, _) => s.Analyses c next := by
  rcases Nat.eq_zero_or_pos s.currentLevel with hroot | hpos
  · exact analyse_refutes h.founded hroot hstatus
  · refine (analyse_learns h hpos hstatus hfalse (hcurrent hpos)).mono ?_
    rintro ⟨next, outcome⟩ ⟨clause, learned, mid, hlearns, -, rfl, -⟩
    exact .learned hpos hlearns

/-- An analysis of a false clause that ends by learning has learned a clause, also if some literals
lack a reason. -/
theorem Founded.learns_of_analyse (h : s.Founded)
    (hfalse : ∀ c, s.status = .conflict c → s.Falsified c)
    (hok : s.analyse.result = .ok (next, .learned learned)) :
    0 < s.currentLevel ∧ ∃ clause mid, s.Learns clause learned mid ∧
      next = { mid with status := .ready } := by
  have hcourse := course_of_analyse hok
  cases hcourse with
  | @learned c mid _ hstatus hpos hlearn =>
    obtain ⟨conflict, hc, hfalse⟩ := hfalse c hstatus
    have hcount : s.countConflict.Founded := h.congr rfl rfl h.serves rfl rfl
    obtain ⟨clause, hlearns, -⟩ := hcount.learn_ensures hpos hc hfalse _ hlearn
    exact ⟨hpos, clause, mid, hlearns.of_countConflict, rfl⟩

/-- An analysis that ends has repeated that there is no model, or resolved the pending conflict. -/
theorem Founded.of_analyse {outcome : Outcome} (h : s.Founded)
    (hfalse : ∀ c, s.status = .conflict c → s.Falsified c)
    (hok : s.analyse.result = .ok (next, outcome)) :
    next = s ∨ ∃ c, s.status = .conflict c ∧ s.Analyses c next := by
  have hcourse := course_of_analyse hok
  cases hcourse with
  | repeated _ => exact Or.inl rfl
  | refuted hstatus hroot => exact Or.inr ⟨_, hstatus, .refuted hroot ⟨_, rfl⟩⟩
  | learned hstatus _ _ =>
    obtain ⟨hpos, clause, mid, hlearns, hnext⟩ := h.learns_of_analyse hfalse hok
    exact Or.inr ⟨_, hstatus, hnext ▸ .learned hpos hlearns⟩

end Solver

end ClauseLearning
