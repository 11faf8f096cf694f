import ClauseLearning.Proofs.Solver.Run

/-!
# What an analysis leaves behind

In a state of a legal run a false clause with a literal of the current level can be analysed. The
learned clause is asserting and lists its literals from the latest assigned to the earliest. The
solver jumps back to the second highest level of the clause and keeps the trail up to there as it
was; the asserting literal is the only new entry, and the learned clause is its reason.
-/

set_option autoImplicit false

namespace ClauseLearning

namespace Trail

variable {t : Trail} {ls : List Literal} {a : Literal}

/-- What a cut leaves are the entries of the levels that are kept. -/
theorem WellFormed.entries_cut_eq_filter (h : t.WellFormed) (level : Nat) :
    (t.cut level).entries = t.entries.filter fun l => t.level l.var ≤ level := by
  have hkept : ∀ l ∈ t.entries.take (t.lengthAt level), t.level l.var ≤ level := by
    intro l hl
    rw [← entries_cut, ← (h.cut level).isTrue_iff_mem, h.isTrue_cut] at hl
    exact hl.2
  have hundone : ∀ l ∈ t.entries.drop (t.lengthAt level), ¬ t.level l.var ≤ level := by
    intro l hl
    have hmem : l ∈ t.above level := by
      rw [above_eq, List.mem_reverse]
      exact hl
    have habove := h.any_above_iff.1 (List.any_eq_true.2 ⟨l, hmem, beq_self_eq_true l.var⟩)
    exact Nat.not_le.2 habove.2
  calc (t.cut level).entries
    _ = t.entries.take (t.lengthAt level) := entries_cut t level
    _ = (t.entries.take (t.lengthAt level) ++ t.entries.drop (t.lengthAt level)).filter
          fun l => t.level l.var ≤ level := by
      rw [List.filter_append, List.filter_eq_self.2 (by simpa using hkept),
        List.filter_eq_nil_iff.2 (by simpa using hundone), List.append_nil]
    _ = _ := by rw [List.take_append_drop]

namespace Asserting

/-- The literals of an asserting clause have different positions. -/
theorem pairwise_position_lt (h : t.Asserting ls a) (ht : t.WellFormed)
    (hlatest : ls.Pairwise fun k l => t.position l.var ≤ t.position k.var) :
    ls.Pairwise fun k l => t.position l.var < t.position k.var := by
  refine (hlatest.and (List.pairwise_map.1 h.distinct)).imp_of_mem ?_
  rintro k l hk hl ⟨hle, hne⟩
  refine Nat.lt_of_le_of_ne hle fun heq => hne ?_
  exact ht.eq_of_position_eq (isAssigned_of_isFalse (h.falsified k hk))
    (isAssigned_of_isFalse (h.falsified l hl)) heq.symm

end Asserting

end Trail

namespace Solver

variable {s next : Solver} {clause : List Literal} {learned : Learned}

/-- What an analysis learned and what became of the solver.

Under the assignment of the conflict the literals of the learned clause are false and stand on
different variables, none of them fixed at the root. They are listed from the latest assigned to the
earliest; the first one is the asserting literal, and only it is of the current level. The level
jumped to is the highest of the others, and the root exactly if there are none.

Afterwards no conflict is pending, the trail consists of the entries up to that level, whose cells
did not change, and of the asserting literal. Its reason is the learned clause, which is stored
under a new name unless it is a unit; of the other clauses only stamps may have changed. -/
structure Backjumps (s : Solver) (clause : List Literal) (learned : Learned) (next : Solver) :
    Prop where
  distinct : (clause.map Literal.var).Nodup
  falsified : ∀ l ∈ clause, s.trail.isFalse l = true
  above_root : ∀ l ∈ clause, 0 < s.trail.level l.var
  head_eq : clause.head? = some learned.asserting
  current : ∀ l ∈ clause, s.trail.level l.var = s.currentLevel ↔ l = learned.asserting
  latest_first : clause.Pairwise fun k l => s.trail.position l.var < s.trail.position k.var
  size_eq : learned.size = clause.length
  jump_lt : learned.jump < s.currentLevel
  jump_eq_zero_iff : learned.jump = 0 ↔ clause = [learned.asserting]
  level_le : ∀ l ∈ clause.tail, s.trail.level l.var ≤ learned.jump
  level_second : ∀ second rest, clause.tail = second :: rest →
    s.trail.level second.var = learned.jump
  ready : next.status = .ready
  currentLevel_eq : next.currentLevel = learned.jump
  entries_eq : next.trail.entries =
    (s.trail.entries.filter fun l => s.trail.level l.var ≤ learned.jump) ++ [learned.asserting]
  delimiters_eq : next.trail.delimiters = s.trail.delimiters.take learned.jump
  kept : ∀ v, s.trail.isAssigned v = true → s.trail.level v ≤ learned.jump →
    next.trail.cell v = s.trail.cell v
  asserted : next.trail.cell learned.asserting.var =
    { value := some learned.asserting.positive
      level := learned.jump
      position := next.trail.length - 1
      reason := learned.clause }
  stored : (clause = [learned.asserting] ∧ learned.clause = none ∧
      s.clauses.Restamped next.clauses) ∨
    (2 ≤ clause.length ∧ learned.clause = some s.clauses.nextId ∧
      ∃ store, s.clauses.Restamped store ∧ next.clauses = store.insert
        (.ofLearned clause learned.glue (s.options.tracks clause.length learned.glue)))
  clear : next.workspace.isClear = true

namespace Learns

/-- The second literal of the clause has the level that is jumped to. -/
theorem level_second (h : s.Learns clause learned next) (ht : s.trail.WellFormed)
    (hl : s.Lists clause learned) {second : Literal} {rest : List Literal}
    (htail : clause = learned.asserting :: second :: rest) :
    s.trail.level second.var = learned.jump := by
  subst htail
  have hne : ∀ l ∈ second :: rest, l ≠ learned.asserting := fun l hl =>
    h.asserting.ne_of_mem_tail hl
  have hassigned : ∀ l ∈ second :: rest, s.trail.isAssigned l.var = true := fun l hl =>
    Trail.isAssigned_of_isFalse (h.asserting.falsified l (List.mem_cons_of_mem _ hl))
  have hsecond : second ∈ second :: rest := List.mem_cons_self
  refine Nat.le_antisymm (h.jump_ge second (List.mem_cons_of_mem _ hsecond) (hne _ hsecond)) ?_
  rcases h.stored with ⟨hunit, -⟩ | ⟨⟨k, hk, hkne, hkjump⟩, -⟩
  · cases hunit
  · rw [← hkjump]
    have hk := (List.mem_cons.1 hk).resolve_left hkne
    rcases List.mem_cons.1 hk with rfl | hrest
    · exact Nat.le_refl _
    · have hle := (List.pairwise_cons.1 (List.pairwise_cons.1 hl.latest_first).2).1 k hrest
      exact ht.level_mono (hassigned k hk) (hassigned second hsecond) hle

/-- The jump goes to the root exactly if the asserting literal is the whole clause. -/
theorem jump_eq_zero_iff (h : s.Learns clause learned next) :
    learned.jump = 0 ↔ clause = [learned.asserting] := by
  rcases h.stored with ⟨hunit, hjump, -⟩ | ⟨⟨k, hk, hkne, hkjump⟩, -⟩
  · exact iff_of_true hjump hunit
  · have hlower := (h.asserting.lower k hk hkne).1
    refine iff_of_false (by omega) ?_
    rintro rfl
    exact hkne (List.mem_singleton.1 hk)

/-- The levels up to the one jumped to are kept as they were. -/
theorem cell_eq (h : s.Learns clause learned next) (hs : s.Coherent) {v : Variable}
    (hv : s.trail.isAssigned v = true) (hle : s.trail.level v ≤ learned.jump) :
    next.trail.cell v = s.trail.cell v := by
  have hne : learned.asserting.var ≠ v := by
    rintro rfl
    rw [h.asserting.current] at hle
    exact absurd h.jump_lt (Nat.not_lt.2 hle)
  rw [h.trail_eq, Trail.cell_push _ (h.asserting_free hs).1, if_neg hne, hs.trail.cell_cut_eq,
    if_neg fun hundone => absurd hundone.2 (Nat.not_lt.2 hle)]

/-- The asserting literal is the last one on the trail, on the level of the jump, implied by the
clause. -/
theorem cell_asserting (h : s.Learns clause learned next) (hs : s.Coherent) :
    next.trail.cell learned.asserting.var =
      ⟨some learned.asserting.positive, learned.jump, next.trail.length - 1, learned.clause⟩ := by
  have hlevel : (s.trail.cut learned.jump).currentLevel = learned.jump := by
    rw [Trail.currentLevel_cut]
    exact Nat.min_eq_left (Nat.le_of_lt h.jump_lt)
  rw [h.trail_eq, Trail.cell_push _ (h.asserting_free hs).1, if_pos rfl, hlevel,
    Trail.length_push, Nat.add_sub_cancel]

/-- Whoever learned a clause jumped back and asserted it. -/
theorem backjumps (h : s.Learns clause learned next) (hs : s.Coherent)
    (hl : s.Lists clause learned) :
    s.Backjumps clause learned { next with status := .ready } := by
  have ha := h.asserting
  have hpos : 0 < s.currentLevel := Nat.zero_lt_of_lt h.jump_lt
  obtain ⟨rest, rfl⟩ := List.head?_eq_some_iff.1 hl.head_eq
  refine ⟨ha.distinct, ha.falsified, fun l hl => ha.above_root hpos hl, hl.head_eq,
    fun l hl => ha.level_eq_iff hl, ha.pairwise_position_lt hs.trail hl.latest_first, hl.size_eq,
    h.jump_lt, h.jump_eq_zero_iff, fun l hl => ?_, fun second rest' htail => ?_, rfl,
    h.currentLevel_eq, ?_, ?_, fun v hv hle => h.cell_eq hs hv hle, h.cell_asserting hs, ?_,
    h.coherent.rests.clear⟩
  · exact h.jump_ge l (List.mem_cons_of_mem _ hl) (ha.ne_of_mem_tail hl)
  · exact h.level_second hs.trail hl (by rw [← htail, List.tail_cons])
  · show next.trail.entries = _
    rw [h.trail_eq, Trail.entries_push, hs.trail.entries_cut_eq_filter]
  · show next.trail.delimiters = _
    rw [h.trail_eq, Trail.delimiters_push, Trail.delimiters_cut]
  · rcases h.stored with ⟨hunit, -, hnone, hstore⟩ | ⟨⟨k, hk, hkne, -⟩, hsome, hstore⟩
    · exact Or.inl ⟨hunit, hnone, hstore⟩
    · exact Or.inr ⟨(h.proper hk hkne learned.glue false).two, hsome, hstore⟩

end Learns

/-- In a state of a legal run above the root a pending conflict can be analysed if its clause is
false and has a literal of the current level. -/
theorem LegalRun.analyse_backjumps {o : Options} {audit : AuditLevel} {proof : ProofLog}
    {start : Solver} {F : Formula} {c : ClauseId}
    (hnew : Solver.new o audit proof = .ok start) (hrun : LegalRun start F s)
    (hpos : 0 < s.currentLevel) (hstatus : s.status = .conflict c) (hfalse : s.Falsified c)
    (hcurrent : s.MeetsCurrent c) :
    ∃ next clause learned, s.analyse.result = .ok (next, .learned learned) ∧
      s.Backjumps clause learned next := by
  obtain rfl := eq_empty_of_new hnew
  obtain ⟨hs, -⟩ := hrun.derives (grounded_empty o audit proof) (.empty o audit proof)
  obtain ⟨⟨next, outcome⟩, hok, clause, learned, mid, hlearns, hlists, rfl, rfl⟩ :=
    analyse_learns hs hpos hstatus hfalse hcurrent
  exact ⟨_, clause, learned, hok, hlearns.backjumps hs.toCoherent hlists⟩

/-- The decisions of the first and the third level lead to a conflict; the second level has nothing
to do with it. -/
def skippingRun : List Operation :=
  [.newVariable, .newVariable, .newVariable, .newVariable,
    .addClause [⟨0, false⟩, ⟨1, false⟩, ⟨2, true⟩], .addClause [⟨1, false⟩, ⟨2, false⟩],
    .decide ⟨0, true⟩, .decide ⟨3, true⟩, .decide ⟨1, true⟩, .assign ⟨2, true⟩ (some 0),
    .declareConflict 1]

/-- The analysis jumps over a level. -/
theorem skippingRun_analyse_backjumps : ∃ F s,
    runLegal [] (Solver.empty {} .full ⟨some {}⟩) skippingRun = some (F, s) ∧
      s.currentLevel = 3 ∧ s.status = .conflict 1 ∧ s.Falsified 1 ∧ s.MeetsCurrent 1 ∧
      ∃ next clause learned, s.analyse.result = .ok (next, .learned learned) ∧
        s.Backjumps clause learned next ∧ next.currentLevel = 1 ∧
        next.trail.entries = [⟨0, true⟩, ⟨1, false⟩] := by
  have hnew : Solver.new {} .full ⟨some {}⟩ = .ok (Solver.empty {} .full ⟨some {}⟩) := rfl
  have hend : ((runLegal [] (Solver.empty {} .full ⟨some {}⟩) skippingRun).map fun p =>
      ((p.2.currentLevel, p.2.status, accepts (p.2.trail.holdsConflict p.2.clauses 1).result),
        (p.2.clauses.get? 1).map Clause.literals, p.2.trail.level 2)) =
      some ((3, .conflict 1, true), some [⟨1, false⟩, ⟨2, false⟩], 3) := by decide +kernel
  have hafter : ((runLegal [] (Solver.empty {} .full ⟨some {}⟩) skippingRun).bind fun p =>
      p.2.analyse.result.toOption.map fun q => (q.1.currentLevel, q.1.trail.entries)) =
      some (1, [⟨0, true⟩, ⟨1, false⟩]) := by decide +kernel
  obtain ⟨⟨F, s⟩, hrun, hend⟩ := Option.map_eq_some_iff.1 hend
  simp only [Prod.mk.injEq] at hend
  obtain ⟨⟨hlevel, hstatus, haccepts⟩, hclause, hmeets⟩ := hend
  have hfalse : s.Falsified 1 := Trail.holdsConflict_iff.1 (accepts_iff.1 haccepts)
  have hcurrent : s.MeetsCurrent 1 := by
    obtain ⟨conflict, hc, hliterals⟩ := Option.map_eq_some_iff.1 hclause
    exact ⟨conflict, hc, ⟨2, false⟩, by rw [hliterals]; simp, hmeets.trans hlevel.symm⟩
  obtain ⟨next, clause, learned, hok, hjumps⟩ := LegalRun.analyse_backjumps hnew
    (LegalRun.start.of_runLegal hrun) (by omega) hstatus hfalse hcurrent
  rw [hrun, Option.bind_some, hok] at hafter
  obtain ⟨hnext, hentries⟩ := Prod.mk.inj (Option.some.inj hafter)
  exact ⟨F, s, hrun, hlevel, hstatus, hfalse, hcurrent, next, clause, learned, hok, hjumps, hnext,
    hentries⟩

end Solver

end ClauseLearning
