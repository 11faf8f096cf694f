import ClauseLearning.Proofs.Conflict.LevelStructure
import ClauseLearning.Proofs.Conflict.Twins
import ClauseLearning.Proofs.Solver.Backjump
import ClauseLearning.Proofs.Solver.Cleanliness

/-!
# What shrinking a clause leaves alone

The glue of a learned clause is counted before minimisation and stored after it, and the level to
jump back to is read from what minimisation left. Both agree, because minimisation keeps the levels
of the clause. So whether the options ask for it, and at which depth it gives up, can be seen from
the literals and the size of the learned clause only: the asserting literal, the glue and the jump
are those of the clause of the first unique implication point.
-/

set_option autoImplicit false

namespace ClauseLearning

namespace Solver

variable {s next : Solver} {c : ClauseId} {uip : Literal} {clause kept : List Literal}
  {learned : Learned}

/-- The solver with other options for minimisation. -/
def withMinimisation (s : Solver) (minimise : Bool) (depth : Nat) : Solver :=
  { s with options := { s.options with minimise := minimise, minimiseDepth := depth } }

/-- Other options of minimisation keep the solver grounded. -/
theorem Grounded.withMinimisation (h : s.Grounded) (minimise : Bool) (depth : Nat) :
    (s.withMinimisation minimise depth).Grounded :=
  ⟨⟨h.trail, h.serves, h.rests, h.marks⟩, h.explained, h.proper, h.stampable⟩

/-- From a conflict the clause of a first unique implication point was derived, and minimisation was
applied to it if the options ask for it. -/
def Condenses (s : Solver) (c : ClauseId) (uip : Literal) (clause kept : List Literal) : Prop :=
  ∃ w activity store, (s.workspace.firstUip s.view c).result = .ok (w, uip) ∧
    w.activity.flush s.clauses = .ok (activity, store) ∧ clause = w.learned ++ [uip.negate] ∧
    (s.options.minimise = true → ∃ cleared,
      (({ w with activity := activity, learned := clause } : Workspace).minimise
        { s.view with clauses := store } s.options.minimiseDepth clause).result =
          .ok (cleared, kept)) ∧
    (s.options.minimise = false → kept = clause)

/-- Literals were stored under a new name, the latest assigned first; a unit is not stored. -/
def Stores (s : Solver) (ls : List Literal) (d : Option ClauseId) (next : Solver) : Prop :=
  (ls.length < 2 ∧ d = none) ∨
    (2 ≤ ls.length ∧ d = some s.clauses.nextId ∧
      (next.clauses.get? s.clauses.nextId).map Clause.literals = some (s.latestFirst ls))

/-- What an analysis reports, read off the clause of the first unique implication point and what
was left of it.

Each level of the clause keeps its first literal, and one literal is left only if there was no
other. The asserting literal is left. The glue reported is that of the whole clause and of what was
left, and the level jumped to is the second level of the whole clause. -/
structure Reports (t : Trail) (uip : Literal) (clause kept : List Literal) (learned : Learned) :
    Prop where
  keeps : t.KeepsLevels clause kept
  asserting_kept : uip.negate ∈ kept
  levels_iff : ∀ level,
    (∃ l ∈ kept, t.level l.var = level) ↔ ∃ l ∈ clause, t.level l.var = level
  glueOf_kept : t.glueOf kept = .ok learned.glue
  glue_pos : 1 ≤ learned.glue
  glue_le_size : learned.glue ≤ learned.size
  size_eq : learned.size = kept.length
  unit_of_unit : kept.length = 1 → clause.length = 1
  asserting_eq : learned.asserting = uip.negate
  glue_eq : learned.glue = t.glue clause
  jump_eq : learned.jump = t.secondLevel clause

/-- The level jumped to is the second level of the clause. -/
theorem Installs.jump_eq {asserting : Literal} {rest : List Literal} {glue jump : Nat}
    {d : Option ClauseId} (h : s.Installs asserting rest glue jump d next)
    (ha : s.trail.Asserting s.workspace.learned asserting) :
    jump = s.trail.secondLevel s.workspace.learned := by
  have hfirst := ha.perm h.perm
  have hmem : ∀ l ∈ rest, l ∈ s.workspace.learned := fun l hl =>
    h.perm.mem_iff.1 (List.mem_cons_of_mem _ hl)
  symm
  refine Trail.secondLevel_eq (fun l hl hlower => ?_) ?_
  · rcases List.mem_cons.1 (h.perm.mem_iff.2 hl) with rfl | hrest
    · exact absurd (ha.current ▸ hlower) (Nat.lt_irrefl _)
    · exact h.level_le l hrest
  · rcases h.stored with ⟨-, hzero, -⟩ | ⟨⟨k, hk, hkjump⟩, -⟩
    · exact Or.inl hzero
    · refine Or.inr ⟨k, hmem k hk, ?_, hkjump⟩
      exact (hfirst.lower k (List.mem_cons_of_mem _ hk) (hfirst.ne_of_mem_tail hk)).2

/-- The figures are those of the clause before it was shrunk. -/
theorem reports_of_keepsLevels (hpos : 0 < s.currentLevel)
    (hkeeps : s.trail.KeepsLevels clause kept) (ha : s.trail.Asserting clause uip.negate)
    (hasserting : learned.asserting = uip.negate) (hsize : learned.size = kept.length)
    (hglue : learned.glue = s.trail.glue clause)
    (hjump : learned.jump = s.trail.secondLevel kept) :
    Reports s.trail uip clause kept learned := by
  have hmem := hkeeps.asserting_mem ha
  have hkept := ha.sublist hkeeps.sublist hmem
  have hassigned : ∀ l ∈ kept, s.trail.isAssigned l.var = true := fun l hl =>
    Trail.isAssigned_of_isFalse (hkept.falsified l hl)
  have hglue_kept : learned.glue = s.trail.glue kept := by rw [hglue, hkeeps.glue_eq ha]
  refine ⟨hkeeps, hmem, hkeeps.levels_iff, ?_, ?_, ?_, hsize, fun hunit => ?_, hasserting, hglue,
    ?_⟩
  · rw [Trail.glueOf_eq fun l hl => Trail.lt_numVariables_of_isAssigned (hassigned l hl),
      hglue_kept]
  · rw [hglue_kept]
    exact Trail.glue_pos hmem (hassigned _ hmem) (hkept.above_root hpos hmem)
  · rw [hglue_kept, hsize]
    exact Trail.glue_le_length _ _
  · rw [hkeeps.eq_of_length ha hunit, hunit]
  · rw [hjump, hkeeps.secondLevel_eq]

/-- A clause that was derived is shrunk as the options ask for. -/
theorem minimise_of_shrinkClause (hok : s.shrinkClause.result = .ok next) :
    (s.options.minimise = true → ∃ cleared,
      (s.workspace.minimise s.view s.options.minimiseDepth s.workspace.learned).result =
        .ok (cleared, next.workspace.learned)) ∧
    (s.options.minimise = false → next.workspace.learned = s.workspace.learned) := by
  unfold shrinkClause at hok
  split at hok
  next hon =>
    obtain ⟨⟨cleared, kept⟩, hminimise, hok⟩ := Traced.result_bind_eq_ok_iff.1 hok
    obtain rfl := Except.ok.inj hok
    exact ⟨fun _ => ⟨cleared, hminimise⟩, fun hoff => absurd hon (by simp [hoff])⟩
  next hoff =>
    obtain rfl := Except.ok.inj hok
    exact ⟨fun hon => absurd hon hoff, fun _ => rfl⟩

/-- The clause is condensed before it is installed. Its glue is counted before that. -/
theorem Grounded.condenses {conflict : Clause} {asserting : Literal}
    {derived stamped recorded shrunk : Solver} (hs : s.Grounded) (hpos : 0 < s.currentLevel)
    (hc : s.clauses.get? c = some conflict)
    (hfalse : ∀ l ∈ conflict.literals, s.trail.isFalse l = true)
    (hcurrent : ∃ l ∈ conflict.literals, s.trail.level l.var = s.currentLevel)
    (hderive : (s.deriveClause c).result = .ok (derived, asserting))
    (hstamp : derived.stampResolved = .ok stamped)
    (hrecord : stamped.recordGlue.result = .ok recorded)
    (hshrink : recorded.shrinkClause.result = .ok shrunk) :
    ∃ uip clause, asserting = uip.negate ∧ s.Condenses c uip clause shrunk.workspace.learned ∧
      s.trail.Asserting clause uip.negate ∧
      s.trail.KeepsLevels clause shrunk.workspace.learned ∧
      derived.currentGlue = s.trail.glue clause ∧ shrunk.trail = s.trail ∧
      s.clauses.Alike shrunk.clauses := by
  obtain ⟨w, uip, activity, store, hfirst, rfl, hw, -, hflush, rfl⟩ :=
    hs.recorded hderive hstamp hrecord
  have hfinds : Workspace.FindsUip s.view conflict w uip :=
    (hs.firstUip_yields hpos hc hfalse hcurrent).of_result hfirst
  have ha := hfinds.asserting
  -- the levels are counted before the clause is shrunk
  have hglue : derived.currentGlue = s.trail.glue (w.learned ++ [uip.negate]) := by
    obtain ⟨w', uip', hfirst', -, rfl⟩ := next_of_deriveClause hderive
    obtain ⟨rfl, rfl⟩ := Prod.mk.inj (Except.ok.inj (hfirst'.symm.trans hfirst))
    exact hfinds.length_levels_eq hs.trail
  obtain ⟨hon, hoff⟩ := minimise_of_shrinkClause hshrink
  obtain ⟨kept, counters, rfl⟩ := workspace_of_shrinkClause hshrink hs.trail hw rfl
  refine ⟨uip, _, rfl, ⟨w, activity, store, hfirst, hflush, rfl, hon, hoff⟩, ha, ?_, hglue, rfl,
    .of_flush hflush⟩
  cases hminimise : s.options.minimise with
  | false =>
    rw [hoff hminimise]
    exact .refl _ _
  | true =>
    obtain ⟨cleared, hkept⟩ := hon hminimise
    exact (hw.withActivity activity).minimise_keepsLevels (v := { s.view with clauses := store })
      ha (List.subset_append_left _ _) (fun l hl => ha.above_root hpos hl) _ _ hkept

/-- The clause under construction is stored. -/
theorem Installs.stores {asserting : Literal} {rest : List Literal} {glue jump : Nat}
    {d : Option ClauseId} (h : s.Installs asserting rest glue jump d next)
    (hlatest : s.latestFirst s.workspace.learned = asserting :: rest) :
    s.Stores s.workspace.learned d next := by
  have hlength := h.perm.length_eq
  rw [List.length_cons] at hlength
  rcases h.stored with ⟨rfl, -, hnone, -⟩ | ⟨⟨k, hk, -⟩, hsome, -, hstore⟩
  · refine Or.inl ⟨?_, hnone⟩
    rw [← hlength]
    exact Nat.lt_succ_self 1
  · refine Or.inr ⟨?_, hsome, ?_⟩
    · rw [← hlength]
      exact Nat.succ_le_succ (List.length_pos_of_mem hk)
    · rw [hstore, ClauseStore.get?_insert, if_pos rfl, hlatest]
      rfl

/-- After a clause was installed the stored clauses do not change. -/
theorem clauses_of_jump {installed undone asserted bumped : Solver} {asserting : Literal}
    {jump : Nat} {d : Option ClauseId} (hundo : (installed.recordJump jump).undo jump = .ok undone)
    (himply : (undone.imply asserting d).result = .ok asserted)
    (hbump : asserted.bumpSeen.result = .ok bumped) :
    bumped.clearWorkspace.clauses = installed.clauses := by
  obtain ⟨heuristic, workspace, rfl⟩ := next_of_bumpSeen hbump
  obtain ⟨iterating, counters, rfl⟩ := (pushes_of_imply himply).next_eq
  obtain ⟨-, rfl⟩ := undo_eq_ok hundo
  rfl

/-- What an analysis above the root learns is what was left of the clause of the first unique
implication point. -/
theorem Grounded.reports_of_learn {conflict : Clause} (hs : s.Grounded) (hpos : 0 < s.currentLevel)
    (hc : s.clauses.get? c = some conflict)
    (hfalse : ∀ l ∈ conflict.literals, s.trail.isFalse l = true)
    (hcurrent : ∃ l ∈ conflict.literals, s.trail.level l.var = s.currentLevel)
    (hok : (s.learn c).result = .ok (next, learned)) :
    ∃ uip clause kept, s.Condenses c uip clause kept ∧ s.Stores kept learned.clause next ∧
      Reports s.trail uip clause kept learned := by
  cases phases_of_learn hok with
  | @intro derived stamped recorded shrunk installed undone asserted bumped asserting jump d
    hderive hstamp hrecord hshrink hinstall hundo himply hbump =>
  obtain ⟨uip, clause, rfl, hcondenses, ha, hkeeps, hglue, htrail, halike⟩ :=
    hs.condenses hpos hc hfalse hcurrent hderive hstamp hrecord hshrink
  have hwell : shrunk.recordSize.trail.WellFormed := htrail.symm ▸ hs.trail
  have hkept : shrunk.recordSize.trail.Asserting shrunk.recordSize.workspace.learned uip.negate :=
    htrail.symm ▸ ha.sublist hkeeps.sublist (hkeeps.asserting_mem ha)
  obtain ⟨rest, hlatest, hinstalls⟩ := (installClause_yields hwell hkept).of_result hinstall
  refine ⟨uip, clause, shrunk.workspace.learned, hcondenses, ?_,
    reports_of_keepsLevels hpos hkeeps ha rfl rfl hglue (htrail ▸ hinstalls.jump_eq hkept)⟩
  have hstores := hinstalls.stores hlatest
  unfold Stores at hstores ⊢
  rw [clauses_of_jump hundo himply hbump, ← halike.nextId_eq]
  unfold latestFirst at hstores ⊢
  rw [← htrail]
  exact hstores

/-- A pending conflict above the root that is false and has a literal of the current level is
analysed by learning what was left of a clause. -/
theorem Grounded.reports_of_analyse (hs : s.Grounded) (hpos : 0 < s.currentLevel)
    (hstatus : s.status = .conflict c) (hfalse : s.Falsified c) (hcurrent : s.MeetsCurrent c) :
    ∃ uip clause kept learned next, s.analyse.result = .ok (next, .learned learned) ∧
      s.Condenses c uip clause kept ∧ s.Stores kept learned.clause next ∧
      Reports s.trail uip clause kept learned := by
  obtain ⟨⟨next, outcome⟩, hok, -, learned, -, -, -, -, rfl⟩ :=
    analyse_learns hs hpos hstatus hfalse hcurrent
  obtain ⟨conflict, hc, hall, hmeets⟩ := hfalse.exists_conflict hcurrent
  have hcourse := course_of_analyse hok
  cases hcourse with
  | @learned d mid _ hstatus' _ hlearn =>
    obtain rfl : d = c := Status.conflict.inj (hstatus'.symm.trans hstatus)
    have hcount : s.countConflict.Grounded := hs.congr rfl rfl hs.serves rfl rfl
    obtain ⟨uip, clause, kept, hcondenses, hstores, hreports⟩ :=
      hcount.reports_of_learn hpos hc hall hmeets hlearn
    exact ⟨uip, clause, kept, learned, _, hok, hcondenses, hstores, hreports⟩

/-- Which clause is derived does not depend on the options for minimisation. -/
theorem Grounded.condenses_unique (hs : s.Grounded) {m m' : Bool} {depth depth' : Nat}
    {uip uip' : Literal} {clause clause' kept kept' : List Literal}
    (h : (s.withMinimisation m depth).Condenses c uip clause kept)
    (h' : (s.withMinimisation m' depth').Condenses c uip' clause' kept') :
    uip' = uip ∧ clause' = clause := by
  obtain ⟨w, -, -, hfirst, -, rfl, -⟩ := h
  obtain ⟨w', -, -, hfirst', -, rfl, -⟩ := h'
  have htwins : (s.withMinimisation m depth).view.Twins (s.withMinimisation m' depth').view :=
    ⟨rfl, rfl, .refl _, hs.stampable, hs.stampable⟩
  have hwaiting : Workspace.WaitingTwins (s.withMinimisation m depth).view
      (s.withMinimisation m' depth').view s.workspace s.workspace :=
    ⟨_, rfl, hs.pending, hs.pending⟩
  have hmatches := hwaiting.firstUip htwins c
  unfold Traced.Matches at hmatches
  rw [show (s.workspace.firstUip (s.withMinimisation m depth).view c).result = _ from hfirst,
    show (s.workspace.firstUip (s.withMinimisation m' depth').view c).result = _ from hfirst']
    at hmatches
  cases hmatches with
  | value hsame =>
    obtain ⟨⟨activity, hworkspace, -⟩, huip⟩ := hsame
    obtain rfl : uip = uip' := huip
    obtain rfl : w' = { w with activity := activity } := hworkspace
    exact ⟨rfl, rfl⟩

/-- In a state of a legal run above the root let a clause that is false and has a literal of the
current level be the pending conflict. Whether it is analysed with minimisation or without, and at
whichever depth minimisation gives up: the analysis learns what is left of one and the same clause,
of which each level keeps the literal assigned first, and reports the asserting literal, the glue
and the jump of that clause. -/
theorem LegalRun.minimisation_keeps_levels {o : Options} {audit : AuditLevel} {proof : ProofLog}
    {start : Solver} {F : Formula} (hnew : Solver.new o audit proof = .ok start)
    (hrun : LegalRun start F s) (hpos : 0 < s.currentLevel) (hstatus : s.status = .conflict c)
    (hfalse : s.Falsified c) (hcurrent : s.MeetsCurrent c) :
    ∃ uip clause, ∀ (minimise : Bool) (depth : Nat), ∃ kept learned next,
      (s.withMinimisation minimise depth).analyse.result = .ok (next, .learned learned) ∧
      (s.withMinimisation minimise depth).Condenses c uip clause kept ∧
      s.Stores kept learned.clause next ∧ Reports s.trail uip clause kept learned := by
  obtain rfl := eq_empty_of_new hnew
  obtain ⟨hs, -⟩ := hrun.derives (grounded_empty o audit proof) (.empty o audit proof)
  have hreports : ∀ (minimise : Bool) (depth : Nat), ∃ uip clause kept learned next,
      (s.withMinimisation minimise depth).analyse.result = .ok (next, .learned learned) ∧
      (s.withMinimisation minimise depth).Condenses c uip clause kept ∧
      s.Stores kept learned.clause next ∧ Reports s.trail uip clause kept learned :=
    fun minimise depth =>
      (hs.withMinimisation minimise depth).reports_of_analyse hpos hstatus hfalse hcurrent
  obtain ⟨uip, clause, _, _, _, -, hfound, -⟩ := hreports false 0
  refine ⟨uip, clause, fun minimise depth => ?_⟩
  obtain ⟨uip', clause', kept, learned, next, hok, hcondenses, hstores, hreport⟩ :=
    hreports minimise depth
  obtain ⟨rfl, rfl⟩ := hs.condenses_unique hfound hcondenses
  exact ⟨kept, learned, next, hok, hcondenses, hstores, hreport⟩

/-- A decision implies a literal of its level, and the decision after it leads to a conflict with
both, so one of the two can be left out of the clause. -/
def shrinkingRun : List Operation :=
  [.newVariable, .newVariable, .newVariable, .addClause [⟨0, false⟩, ⟨1, true⟩],
    .addClause [⟨0, false⟩, ⟨1, false⟩, ⟨2, false⟩], .decide ⟨0, true⟩, .assign ⟨1, true⟩ (some 0),
    .decide ⟨2, true⟩, .declareConflict 1]

/-- With minimisation two literals are left, without it all three. -/
theorem shrinkingRun_minimisation_keeps_levels : ∃ F s,
    runLegal [] (Solver.empty {} .full ⟨some {}⟩) shrinkingRun = some (F, s) ∧
      s.currentLevel = 2 ∧ s.status = .conflict 1 ∧ s.Falsified 1 ∧ s.MeetsCurrent 1 ∧
      ∃ uip clause, ∀ minimise, ∃ kept learned next,
        (s.withMinimisation minimise 1000).analyse.result = .ok (next, .learned learned) ∧
        Reports s.trail uip clause kept learned ∧ learned.size = if minimise then 2 else 3 := by
  have hnew : Solver.new {} .full ⟨some {}⟩ = .ok (Solver.empty {} .full ⟨some {}⟩) := rfl
  have hend : ((runLegal [] (Solver.empty {} .full ⟨some {}⟩) shrinkingRun).map fun p =>
      ((p.2.currentLevel, p.2.status, accepts (p.2.trail.holdsConflict p.2.clauses 1).result),
        (p.2.clauses.get? 1).map Clause.literals, p.2.trail.level 2)) =
      some ((2, .conflict 1, true), some [⟨0, false⟩, ⟨1, false⟩, ⟨2, false⟩], 2) := by
    decide +kernel
  have hsizes : ∀ minimise, ((runLegal [] (Solver.empty {} .full ⟨some {}⟩) shrinkingRun).map
      fun p => (p.2.withMinimisation minimise 1000).analyse.result.toOption.map fun q =>
        match q.2 with
        | .learned learned => learned.size
        | .unsatisfiable => 0) = some (some (if minimise then 2 else 3)) := by decide +kernel
  obtain ⟨⟨F, s⟩, hrun, hend⟩ := Option.map_eq_some_iff.1 hend
  simp only [Prod.mk.injEq] at hend
  obtain ⟨⟨hlevel, hstatus, haccepts⟩, hclause, hmeets⟩ := hend
  have hfalse : s.Falsified 1 := Trail.holdsConflict_iff.1 (accepts_iff.1 haccepts)
  have hcurrent : s.MeetsCurrent 1 := by
    obtain ⟨conflict, hc, hliterals⟩ := Option.map_eq_some_iff.1 hclause
    exact ⟨conflict, hc, ⟨2, false⟩, by rw [hliterals]; simp, hmeets.trans hlevel.symm⟩
  obtain ⟨uip, clause, hkeeps⟩ := LegalRun.minimisation_keeps_levels hnew
    (LegalRun.start.of_runLegal hrun) (by omega) hstatus hfalse hcurrent
  refine ⟨F, s, hrun, hlevel, hstatus, hfalse, hcurrent, uip, clause, fun minimise => ?_⟩
  obtain ⟨kept, learned, next, hok, -, -, hreports⟩ := hkeeps minimise 1000
  have hsize := hsizes minimise
  rw [hrun, Option.map_some, hok] at hsize
  exact ⟨kept, learned, next, hok, hreports, Option.some.inj (Option.some.inj hsize)⟩

end Solver

end ClauseLearning
