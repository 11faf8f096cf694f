import ClauseLearning.Proofs.Conflict.Consequence
import ClauseLearning.Proofs.Solver.Bumping
import ClauseLearning.Proofs.Solver.Grounded
import ClauseLearning.Proofs.Solver.Phases

/-!
# Learning a clause

From a false clause with a literal of the current level an analysis learns an asserting clause that
follows by reverse unit propagation. It jumps back to the highest level among the other literals of
the clause, where the asserting literal is put on the trail with the clause as its reason; a clause
of one literal is not stored and asserted at the root.
-/

set_option autoImplicit false

namespace ClauseLearning

/-- More assumptions propagate as much. -/
theorem Propagated.assume_more {G : Formula} {as bs : List Literal} (hsub : as ⊆ bs) {l : Literal}
    (h : Propagated G as l) : Propagated G bs l := by
  induction h with
  | assumption hl => exact .assumption (hsub hl)
  | unit hls hl _ ih => exact .unit hls hl ih

/-- More literals make a clause weaker. -/
theorem Rup.weaken {G : Formula} {as bs : List Literal} (hsub : as ⊆ bs) (h : Rup G as) :
    Rup G bs := by
  obtain ⟨refuted, hmem, hall⟩ := h
  exact ⟨refuted, hmem, fun k hk => (hall k hk).assume_more (List.map_subset _ hsub)⟩

/-- What minimisation found does not depend on stamps. -/
theorem Workspace.Judges.of_restamped {v v' : View} {w₀ w : Workspace} (h : Judges v' w₀ w)
    (htrail : v'.trail = v.trail) (hclauses : v.clauses.Restamped v'.clauses) :
    Judges v w₀ w := by
  refine ⟨h.rest_eq, h.size_eq, h.seen_eq, h.listed, h.placed, fun x hx => ?_⟩
  obtain ⟨hlevel, c, clause', hr, hc, hrest⟩ := h.supported x hx
  rw [htrail] at hlevel hr hrest
  obtain ⟨clause, stamp, hold, rfl⟩ := hclauses.exists_of_get? hc
  exact ⟨hlevel, c, clause, hr, hold, hrest⟩

namespace Solver

variable {s next : Solver}

/-- The solver when the clause of the first unique implication point was found. -/
def Reaches (s : Solver) (conflict : Clause) (derived : Solver) (asserting : Literal) : Prop :=
  ∃ w uip, Workspace.FindsUip s.view conflict w uip ∧ asserting = uip.negate ∧
    derived = { s with workspace := { w with learned := w.learned ++ [uip.negate] } }

/-- At rest no clause waits for a stamp. -/
theorem Coherent.pending (h : s.Coherent) : s.workspace.activity.Pending s.clauses := by
  obtain ⟨-, -, -, hpending, -, -⟩ := Workspace.isClear_iff.1 h.rests.clear
  intro c hc
  rw [hpending] at hc
  exact absurd hc List.not_mem_nil

/-- Between analyses no literal is listed as met. -/
theorem Coherent.seen_eq (h : s.Coherent) : s.workspace.seen = [] :=
  (Workspace.isClear_iff.1 h.rests.clear).1

/-- The clause of a first unique implication point passes the audit of learned clauses. -/
theorem deriveClause_yields_of_firstUip {c : ClauseId} {conflict : Clause}
    (hfirst : (s.workspace.firstUip s.view c).Yields fun (w, uip) =>
      Workspace.FindsUip s.view conflict w uip) :
    (s.deriveClause c).Yields fun (derived, asserting) => s.Reaches conflict derived asserting := by
  unfold deriveClause
  refine .bind hfirst ?_
  rintro ⟨w, uip⟩ huip
  refine .bind (.tell _) fun _ _ => .bind (.checkBy huip.asserting.holdsLearned_eq) fun _ _ => ?_
  exact .pure ⟨w, uip, huip, rfl, rfl⟩

/-- From a false clause with a literal of the current level the first unique implication point is
found. -/
theorem Grounded.firstUip_yields {c : ClauseId} {conflict : Clause} (h : s.Grounded)
    (hpos : 0 < s.currentLevel) (hc : s.clauses.get? c = some conflict)
    (hfalse : ∀ l ∈ conflict.literals, s.trail.isFalse l = true)
    (hcurrent : ∃ l ∈ conflict.literals, s.trail.level l.var = s.currentLevel) :
    (s.workspace.firstUip s.view c).Yields fun (w, uip) =>
      Workspace.FindsUip s.view conflict w uip :=
  Workspace.firstUip_yields (v := s.view) h.trail h.explained h.stampable hpos
    (h.rests.tracks h.marks) h.toCoherent.seen_eq h.toCoherent.pending hc hfalse hcurrent

/-- The clause of the first unique implication point is found. -/
theorem deriveClause_yields {c : ClauseId} {conflict : Clause} (h : s.Grounded)
    (hpos : 0 < s.currentLevel) (hc : s.clauses.get? c = some conflict)
    (hfalse : ∀ l ∈ conflict.literals, s.trail.isFalse l = true)
    (hcurrent : ∃ l ∈ conflict.literals, s.trail.level l.var = s.currentLevel) :
    (s.deriveClause c).Yields fun (derived, asserting) => s.Reaches conflict derived asserting :=
  deriveClause_yields_of_firstUip (h.firstUip_yields hpos hc hfalse hcurrent)

/-- A derivation that ends has found the clause of the first unique implication point. -/
theorem Founded.deriveClause_yields {c : ClauseId} {conflict : Clause} {derived : Solver × Literal}
    (h : s.Founded) (hpos : 0 < s.currentLevel) (hc : s.clauses.get? c = some conflict)
    (hfalse : ∀ l ∈ conflict.literals, s.trail.isFalse l = true)
    (hok : (s.deriveClause c).result = .ok derived) :
    (s.deriveClause c).Yields fun (derived, asserting) => s.Reaches conflict derived asserting := by
  apply deriveClause_yields_of_firstUip
  unfold deriveClause at hok
  obtain ⟨found, hfirst, -⟩ := Traced.result_bind_eq_ok_iff.1 hok
  have huip := Workspace.firstUip_ensures (v := s.view) h.trail h.justified h.stampable hpos
    (h.rests.tracks h.marks) h.toCoherent.seen_eq h.toCoherent.pending hc hfalse
  exact ⟨found, hfirst, huip found hfirst⟩

/-- The clauses that took part are stamped. -/
theorem exists_stampResolved (hpending : s.workspace.activity.Pending s.clauses) :
    ∃ stamped, s.stampResolved = .ok stamped ∧ ∃ activity store, stamped = { s with
        clauses := store, workspace := { s.workspace with activity := activity } } ∧
      activity.pending = [] ∧ s.clauses.Restamped store := by
  obtain ⟨activity, store, hflush, hnone, hstore⟩ := Activity.exists_flush hpending
  exact ⟨_, Fault.bind_eq_ok_iff.2 ⟨_, hflush, rfl⟩, activity, store, rfl, hnone, hstore⟩

/-- The glue is recorded: the literals of the clause can be looked at, and they have as many levels
as were met. -/
theorem recordGlue_yields (hknown : ∀ l ∈ s.workspace.learned, l.var < s.numVariables)
    (hglue : s.currentGlue = s.trail.glue s.workspace.learned) :
    s.recordGlue.Yields fun next => ∃ counters, next = { s with counters := counters } := by
  have hholds : s.holdsGlue = .ok true := by
    unfold holdsGlue
    rw [Trail.glueOf_eq hknown, hglue]
    exact congrArg Except.ok (beq_self_eq_true _)
  unfold recordGlue
  exact .bind (.checkBy hholds) fun _ _ => .bind (.tell _) fun _ _ => .pure ⟨_, rfl⟩

/-- The clause is shrunk if the options ask for it, and nothing else changes. -/
theorem shrinkClause_yields (ht : s.trail.WellFormed) (he : s.trail.Justified s.clauses)
    (hsize : s.workspace.marks.size = s.numVariables)
    (hclean : ∀ x, (s.workspace.marksOf x).poison = false ∧
      (s.workspace.marksOf x).removable = false)
    (hminimised : s.workspace.minimised = [])
    (hknown : ∀ l ∈ s.workspace.learned, l.var < s.numVariables) :
    s.shrinkClause.Yields fun next => ∃ kept counters,
      next = { s with workspace := { s.workspace with learned := kept }, counters := counters } ∧
      kept.Sublist s.workspace.learned ∧
      ∃ judged, Workspace.Judges s.view s.workspace judged ∧
        ∀ l ∈ s.workspace.learned, l ∈ kept ∨ Workspace.Passes s.view judged 0 l.var := by
  unfold shrinkClause
  split
  · refine .bind (Workspace.minimise_yields (v := s.view) ht he hsize hclean hminimised
      s.options.minimiseDepth hknown) ?_
    rintro ⟨w, kept⟩ ⟨rfl, hsub, hjudged⟩
    exact .pure ⟨kept, _, rfl, hsub, hjudged⟩
  · exact .pure ⟨_, s.counters, rfl, List.Sublist.refl _, s.workspace,
      .start s.view hclean hminimised, fun l hl => Or.inl hl⟩

/-- The solver after the clause under construction, its asserting literal first, was logged and
stored; a clause of one literal is neither. The jump leads to the highest level of the other
literals. -/
structure Installs (s : Solver) (asserting : Literal) (rest : List Literal) (glue jump : Nat)
    (c : Option ClauseId) (next : Solver) : Prop where
  perm : (asserting :: rest).Perm s.workspace.learned
  level_le : ∀ l ∈ rest, s.trail.level l.var ≤ jump
  stored : (rest = [] ∧ jump = 0 ∧ c = none ∧ next.proof = s.proof ∧ next.clauses = s.clauses) ∨
    ((∃ k ∈ rest, s.trail.level k.var = jump) ∧ c = some s.clauses.nextId ∧
      next.proof = (s.proof.logClause (asserting :: rest)).1 ∧
      next.clauses = s.clauses.insert (.ofLearned (asserting :: rest) glue
        (s.options.tracks (asserting :: rest).length glue)))
  next_eq : next = { s with
    proof := next.proof, clauses := next.clauses, counters := next.counters }

/-- The jump leaves the current level. -/
theorem Installs.jump_lt {asserting : Literal} {rest : List Literal} {glue jump : Nat}
    {c : Option ClauseId} (h : s.Installs asserting rest glue jump c next)
    (hpos : 0 < s.currentLevel) (ha : s.trail.Asserting s.workspace.learned asserting) :
    jump < s.currentLevel := by
  have hfirst := ha.perm h.perm
  rcases h.stored with ⟨-, hzero, -⟩ | ⟨⟨k, hk, hkjump⟩, -⟩
  · rw [hzero]
    exact hpos
  · rw [← hkjump]
    exact (hfirst.lower k (List.mem_cons_of_mem _ hk) (hfirst.ne_of_mem_tail hk)).2

/-- An asserting clause is stored with its asserting literal first, unless it is the only one. -/
theorem installClause_yields {glue : Nat} (ht : s.trail.WellFormed) {asserting : Literal}
    (h : s.trail.Asserting s.workspace.learned asserting) :
    (s.installClause asserting glue).Yields fun (next, jump, c) =>
      ∃ rest, s.latestFirst s.workspace.learned = asserting :: rest ∧
        s.Installs asserting rest glue jump c (next.recordJump jump) := by
  obtain ⟨rest, hsorted, hhighest⟩ := h.exists_latest_first ht
  have hperm : (asserting :: rest).Perm s.workspace.learned :=
    hsorted ▸ stableSort_perm _ s.workspace.learned
  have hlatest : s.latestFirst s.workspace.learned = asserting :: rest := hsorted
  unfold installClause
  rw [hlatest]
  cases rest with
  | nil => exact .pure ⟨[], rfl, hperm, by simp, Or.inl ⟨rfl, rfl, rfl, rfl, rfl⟩, rfl⟩
  | cons second rest =>
    have hknown : s.trail.requireAll (asserting :: second :: rest) = .ok () :=
      Trail.requireAll_eq_ok_iff.2 fun l hl => h.lt_numVariables (hperm.mem_iff.1 hl)
    refine .bind (.lift (P := fun _ => True) hknown trivial) fun _ _ => ?_
    refine .bind (.require (beq_self_eq_true asserting)) fun _ _ => ?_
    refine .bind (P := fun p => p.2 = s.clauses.nextId ∧ p.1 = { s with
      proof := (s.proof.logClause (asserting :: second :: rest)).1
      clauses := s.clauses.insert (.ofLearned (asserting :: second :: rest) glue
        (s.options.tracks (asserting :: second :: rest).length glue)) }) ?_ ?_
    · exact .bind (.tellAll _) fun _ _ => .pure ⟨rfl, rfl⟩
    · rintro ⟨stored, c⟩ ⟨rfl, rfl⟩
      exact .pure ⟨second :: rest, rfl, hperm, hhighest second rest rfl,
        Or.inr ⟨⟨second, List.mem_cons_self, rfl⟩, rfl, rfl, rfl⟩, rfl⟩

/-- The solver after it jumped back to a level and put a literal on the trail there. -/
structure Jumps (s : Solver) (jump : Nat) (l : Literal) (c : Option ClauseId) (next : Solver) :
    Prop where
  trail_eq : next.trail = (s.trail.cut jump).push l c
  proof_eq : next.proof = if jump = 0 then (s.proof.logClause [l]).1 else s.proof
  serves : next.heuristic.Serves next.trail
  queue_eq : next.heuristic.queue.toList = s.heuristic.queue.toList
  next_eq : next = { s with
    trail := next.trail
    heuristic := next.heuristic
    proof := next.proof
    iterating := next.iterating
    counters := next.counters }

/-- The asserting literal is free after the backjump, so it can be asserted. -/
theorem assert_yields (ht : s.trail.WellFormed) (hs : s.heuristic.Serves s.trail)
    {asserting : Literal} {jump : Nat} {c : Option ClauseId}
    (hassigned : s.trail.isAssigned asserting.var = true)
    (hjump : jump < s.trail.level asserting.var) :
    ∃ undone, s.undo jump = .ok undone ∧
      (undone.imply asserting c).Yields (s.Jumps jump asserting c) := by
  have hlevel : jump ≤ s.currentLevel :=
    Nat.le_trans (Nat.le_of_lt hjump) (ht.level_le asserting.var)
  have hknown : asserting.var < (s.trail.cut jump).numVariables := by
    rw [Trail.numVariables_cut]
    exact Trail.lt_numVariables_of_isAssigned hassigned
  have hfree : (s.trail.cut jump).isAssigned asserting.var = false := by
    rw [Bool.eq_false_iff, ne_eq, ht.isAssigned_cut]
    rintro ⟨-, hle⟩
    omega
  have hcurrent : (s.trail.cut jump).currentLevel = jump := by
    rw [Trail.currentLevel_cut]
    exact Nat.min_eq_left hlevel
  obtain ⟨hserves, hqueue⟩ := hs.release ht jump
  have himply := imply_yields (r := c) (s := { s with
    trail := s.trail.cut jump
    heuristic := s.heuristic.release (s.trail.above jump) }) hknown hfree
  refine ⟨_, undo_eq ht hs hlevel, himply.mono fun next hp => ?_⟩
  obtain ⟨iterating, counters, hnext⟩ := hp.next_eq
  unfold currentLevel at hnext
  rw [hcurrent] at hnext
  have htrail : next.trail = (s.trail.cut jump).push asserting c := by rw [hnext]
  have hheuristic : next.heuristic = s.heuristic.release (s.trail.above jump) := by rw [hnext]
  refine ⟨htrail, by rw [hnext], ?_, hheuristic ▸ hqueue, by rw [hnext]⟩
  rw [htrail, hheuristic]
  exact hserves.push hknown c

/-- The solver when the learned clause is complete: only the clause, stamps and figures differ from
what the resolution left. -/
structure Completes (s : Solver) (conflict : Clause) (kept : List Literal) (asserting : Literal)
    (next : Solver) : Prop where
  derived : ∃ w uip w₀ judged activity, Workspace.FindsUip s.view conflict w uip ∧
    asserting = uip.negate ∧ next.workspace = { w with activity := activity, learned := kept } ∧
    activity.pending = [] ∧ kept.Sublist (w.learned ++ [uip.negate]) ∧ w₀.marks = w.marks ∧
    Workspace.Judges s.view w₀ judged ∧
    ∀ l ∈ w.learned ++ [uip.negate], l ∈ kept ∨ Workspace.Passes s.view judged 0 l.var
  restamped : s.clauses.Restamped next.clauses
  next_eq : ∃ counters, next =
    { s with clauses := next.clauses, workspace := next.workspace, counters := counters }

namespace Completes

variable {conflict : Clause} {kept : List Literal} {asserting : Literal}

/-- The clause that was kept is asserting. -/
theorem asserting_kept (h : s.Completes conflict kept asserting next) :
    s.trail.Asserting kept asserting := by
  obtain ⟨w, uip, w₀, judged, activity, huip, rfl, -, -, hsub, -, hjudged, hkept⟩ := h.derived
  exact huip.asserting.sublist hsub (huip.asserting_kept hjudged hkept)

/-- The clause that was kept follows by reverse unit propagation. -/
theorem rup {c : ClauseId} (hs : s.Founded) (hc : s.clauses.get? c = some conflict)
    (hfalse : ∀ l ∈ conflict.literals, s.trail.isFalse l = true)
    (h : s.Completes conflict kept asserting next) {G : Formula}
    (hG : G.Backs s.trail s.clauses) : Rup G kept := by
  obtain ⟨w, uip, w₀, judged, activity, huip, -, -, -, -, hw₀, hjudged, hkept⟩ := h.derived
  exact huip.rup hG hs.trail hs.justified hc hfalse hw₀ hjudged hkept

/-- Completing a clause leaves the trail. -/
theorem trail_eq (h : s.Completes conflict kept asserting next) : next.trail = s.trail := by
  obtain ⟨counters, hnext⟩ := h.next_eq
  rw [hnext]

/-- What was kept is the clause under construction. -/
theorem learned_eq (h : s.Completes conflict kept asserting next) :
    next.workspace.learned = kept := by
  obtain ⟨w, uip, w₀, judged, activity, -, -, hworkspace, -⟩ := h.derived
  rw [hworkspace]

/-- The jump goes below the current level. -/
theorem jump_lt {rest : List Literal} {glue jump : Nat} {c : Option ClauseId} {installed : Solver}
    (h : s.Completes conflict kept asserting next) (hpos : 0 < s.currentLevel)
    (hi : next.Installs asserting rest glue jump c installed) : jump < s.currentLevel := by
  have hlevel : next.currentLevel = s.currentLevel := by rw [currentLevel, h.trail_eq]; rfl
  rw [← hlevel] at hpos ⊢
  refine hi.jump_lt hpos ?_
  rw [h.trail_eq, h.learned_eq]
  exact h.asserting_kept

/-- The figures do not matter. -/
theorem recordSize (h : s.Completes conflict kept asserting next) :
    s.Completes conflict kept asserting next.recordSize := by
  obtain ⟨counters, hnext⟩ := h.next_eq
  refine ⟨h.derived, h.restamped, next.recordSize.counters, ?_⟩
  rw [hnext]
  rfl

end Completes

/-- If the workspace tracks what was met on a trail, bumping and clearing bring it to rest. -/
theorem bumpSeen_yields_coherent {t : Trail} {w : Workspace} {activity : Activity}
    {kept : List Literal} (htrail : s.trail.WellFormed) (hserves : s.heuristic.Serves s.trail)
    (ht : t.WellFormed) (hw : Workspace.Tracks t w) (hnum : s.numVariables = t.numVariables)
    (hpending : activity.pending = [])
    (hworkspace : s.workspace = { w with activity := activity, learned := kept }) :
    s.bumpSeen.Yields fun bumped => bumped.clearWorkspace.Coherent ∧
      (∀ v, v ∈ bumped.clearWorkspace.heuristic.queue.toList ↔ v ∈ s.heuristic.queue.toList) ∧
      ∃ heuristic workspace, bumped.clearWorkspace =
        { s with heuristic := heuristic, workspace := workspace } := by
  have hsize : s.workspace.marks.size = s.numVariables := by
    rw [hworkspace, hnum]
    exact hw.size_marks
  have hseen : ∀ l ∈ s.workspace.seen,
      l.var < s.numVariables ∧ s.workspace.isSeen l.var = true := by
    rw [hworkspace, hnum]
    intro l hl
    exact ⟨Trail.lt_numVariables_of_isAssigned (hw.isAssigned ht hl),
      (hw.isSeen_iff l.var).2 ⟨l, hl, rfl⟩⟩
  have hdistinct : (s.workspace.seen.map Literal.var).Nodup := by
    rw [hworkspace]
    exact hw.distinct
  refine (bumpSeen_yields hserves hsize hdistinct hseen).mono ?_
  rintro bumped ⟨⟨unmarked, hunmarks, hbumped⟩, hserves', hqueue⟩
  have hmarks : unmarked.marks.size = s.numVariables := hunmarks.size_eq.trans hsize
  rw [hworkspace] at hunmarks
  generalize bumped.heuristic = heuristic at hbumped hserves' hqueue
  subst hbumped
  have hrests := hw.rests hpending hunmarks
  exact ⟨⟨htrail, hserves', hrests, hmarks⟩, hqueue, _, _, rfl⟩

/-- The solver when the asserting literal was put on the trail. The learned clause is asserting,
follows, and is logged; the jump leads to the highest level of its other literals, where the clause
is the reason of the asserting literal, or to the root if there are none. -/
structure Asserts (s : Solver) (clause : List Literal) (learned : Learned) (next : Solver) :
    Prop where
  asserting : s.trail.Asserting clause learned.asserting
  rup : ∀ G : Formula, G.Backs s.trail s.clauses → Rup G clause
  jump_lt : learned.jump < s.currentLevel
  jump_ge : ∀ l ∈ clause, l ≠ learned.asserting → s.trail.level l.var ≤ learned.jump
  stored : (clause = [learned.asserting] ∧ learned.jump = 0 ∧ learned.clause = none ∧
      s.clauses.Restamped next.clauses) ∨
    ((∃ k ∈ clause, k ≠ learned.asserting ∧ s.trail.level k.var = learned.jump) ∧
      learned.clause = some s.clauses.nextId ∧ ∃ store, s.clauses.Restamped store ∧
        next.clauses = store.insert
          (.ofLearned clause learned.glue (s.options.tracks clause.length learned.glue)))
  trail_eq : next.trail = (s.trail.cut learned.jump).push learned.asserting learned.clause
  proof_eq : next.proof = (s.proof.logClause clause).1
  options_eq : next.options = s.options
  audit_eq : next.audit = s.audit
  status_eq : next.status = s.status

/-- The solver after it learned a clause: between two operations again. -/
structure Learns (s : Solver) (clause : List Literal) (learned : Learned) (next : Solver) :
    Prop extends Asserts s clause learned next where
  coherent : next.Coherent
  queued : ∀ v, v ∈ next.heuristic.queue.toList ↔ v ∈ s.heuristic.queue.toList

namespace Asserts

variable {clause : List Literal} {learned : Learned}

/-- Asserting a clause creates no variable. -/
theorem numVariables_eq (h : s.Asserts clause learned next) :
    next.numVariables = s.numVariables := by
  unfold numVariables
  rw [h.trail_eq, Trail.numVariables_push, Trail.numVariables_cut]

/-- Asserting a clause keeps the trail well formed. -/
theorem wellFormed (h : s.Asserts clause learned next) (ht : s.trail.WellFormed) :
    next.trail.WellFormed := by
  have hassigned := Trail.isAssigned_of_isFalse (h.asserting.falsified _ h.asserting.mem)
  rw [h.trail_eq]
  refine (ht.cut _).push _ ?_ ?_
  · rw [Trail.numVariables_cut]
    exact Trail.lt_numVariables_of_isAssigned hassigned
  · rw [Bool.eq_false_iff, ne_eq, ht.isAssigned_cut, h.asserting.current]
    exact fun hle => absurd h.jump_lt (Nat.not_lt.2 hle.2)

/-- The bumps and the clearing change the heuristic and the workspace only. -/
theorem of_eq {heuristic : Heuristic} {workspace : Workspace} (h : s.Asserts clause learned next) :
    s.Asserts clause learned { next with heuristic := heuristic, workspace := workspace } :=
  ⟨h.asserting, h.rup, h.jump_lt, h.jump_ge, h.stored, h.trail_eq, h.proof_eq, h.options_eq,
    h.audit_eq, h.status_eq⟩

/-- Bumping and clearing bring the solver back to the state between two operations. -/
theorem bumpSeen_yields {w : Workspace} {activity : Activity} {kept : List Literal}
    (h : s.Asserts clause learned next) (hs : s.Coherent)
    (hserves : next.heuristic.Serves next.trail)
    (hqueue : next.heuristic.queue.toList = s.heuristic.queue.toList)
    (hw : Workspace.Tracks s.trail w) (hpending : activity.pending = [])
    (hworkspace : next.workspace = { w with activity := activity, learned := kept }) :
    next.bumpSeen.Yields fun bumped => s.Learns clause learned bumped.clearWorkspace := by
  refine (bumpSeen_yields_coherent (h.wellFormed hs.trail) hserves hs.trail hw
    h.numVariables_eq hpending hworkspace).mono ?_
  rintro bumped ⟨hcoherent, hqueue', heuristic, workspace, heq⟩
  refine ⟨?_, hcoherent, fun v => (hqueue' v).trans (by rw [hqueue])⟩
  rw [heq]
  exact h.of_eq

end Asserts

/-- The clause is completed: derived from the conflict, stamped, counted and shrunk. -/
theorem completes_of_shrink {conflict : Clause} (h : s.Founded) {w : Workspace} {uip : Literal}
    (huip : Workspace.FindsUip s.view conflict w uip) {recorded : Solver}
    {activity : Activity} {store : ClauseStore} {counters : Counters}
    (hrecorded : recorded = { s with
      clauses := store
      workspace := { w with activity := activity, learned := w.learned ++ [uip.negate] }
      counters := counters })
    (hpending : activity.pending = []) (hstore : s.clauses.Restamped store) :
    recorded.shrinkClause.Yields fun next =>
      ∃ kept, s.Completes conflict kept uip.negate next ∧ next.workspace.learned = kept := by
  have htrail : recorded.trail = s.trail := by rw [hrecorded]
  have hclauses : recorded.clauses = store := by rw [hrecorded]
  have hworkspace : recorded.workspace =
      { w with activity := activity, learned := w.learned ++ [uip.negate] } := by rw [hrecorded]
  have hasserting := huip.asserting
  have hnum : recorded.numVariables = s.numVariables := by rw [hrecorded]; rfl
  have hshrink := recorded.shrinkClause_yields (htrail ▸ h.trail)
    (by rw [htrail, hclauses]; exact h.justified.mono hstore.keptIn)
    (by rw [hworkspace, hnum]; exact huip.tracks.size_marks)
    (by rw [hworkspace]; exact huip.tracks.no_verdict)
    (by rw [hworkspace]; exact huip.tracks.minimised_eq)
    (by
      rw [hworkspace, hnum]
      exact fun l hl => hasserting.lt_numVariables hl)
  refine hshrink.mono ?_
  rintro next ⟨kept, counters', rfl, hsub, judged, hjudged, hkept⟩
  have hview : recorded.view.trail = s.view.trail := htrail
  -- the stamps given before the shrinking change no literal
  have hstamps : s.clauses.Restamped recorded.clauses := hclauses ▸ hstore
  have hjudged := hjudged.of_restamped (v := s.view) hview hstamps
  refine ⟨kept, ⟨⟨w, uip, recorded.workspace, judged, activity, huip, rfl, ?_, hpending, ?_, ?_,
    hjudged, ?_⟩, hstamps, counters', ?_⟩, rfl⟩
  · rw [hworkspace]
  · rw [hworkspace] at hsub
    exact hsub
  · rw [hworkspace]
  · intro l hl
    have hpass := hkept l (by rw [hworkspace]; exact hl)
    unfold Workspace.Passes at hpass ⊢
    rw [hview] at hpass
    exact hpass
  · rw [hrecorded]

/-- A completed clause is stored and asserted. -/
theorem Completes.asserts {c : ClauseId} {conflict : Clause} {kept rest : List Literal}
    {completed installed : Solver} {r : Learned} (hs : s.Founded)
    (hpos : 0 < s.currentLevel) (hc : s.clauses.get? c = some conflict)
    (hfalse : ∀ l ∈ conflict.literals, s.trail.isFalse l = true)
    (h : s.Completes conflict kept r.asserting completed)
    (hi : completed.Installs r.asserting rest r.glue r.jump r.clause installed)
    (hj : installed.Jumps r.jump r.asserting r.clause next) :
    s.Asserts (r.asserting :: rest) r next := by
  obtain ⟨counters, hcompleted⟩ := h.next_eq
  have hperm := hi.perm
  rw [h.learned_eq] at hperm
  have hasserting := h.asserting_kept.perm hperm
  have hne : ∀ k ∈ rest, k ≠ r.asserting := fun k hk => hasserting.ne_of_mem_tail hk
  have hstored := hi.stored
  have hproof : completed.proof = s.proof := by rw [hcompleted]
  have hoptions : completed.options = s.options := by rw [hcompleted]
  have hnext_id : completed.clauses.nextId = s.clauses.nextId := h.restamped.size_eq
  rw [h.trail_eq, hproof, hoptions, hnext_id] at hstored
  have hclauses : next.clauses = installed.clauses := by rw [hj.next_eq]
  refine ⟨hasserting, fun G hG => (h.rup hs hc hfalse hG).weaken hperm.symm.subset,
    h.jump_lt hpos hi, fun l hl hne => ?_, ?_, ?_, ?_, ?_, ?_, ?_⟩
  · rw [← h.trail_eq]
    exact hi.level_le l ((List.mem_cons.1 hl).resolve_left hne)
  · rw [hclauses]
    rcases hstored with ⟨rfl, hjump, hnone, -, heq⟩ | ⟨⟨k, hk, hkjump⟩, hsome, -, heq⟩
    · exact Or.inl ⟨rfl, hjump, hnone, heq ▸ h.restamped⟩
    · exact Or.inr ⟨⟨k, List.mem_cons_of_mem _ hk, hne k hk, hkjump⟩, hsome, completed.clauses,
        h.restamped, heq⟩
  · rw [hj.trail_eq, hi.next_eq, h.trail_eq]
  · -- a unit is logged when it is put on the trail at the root, a longer clause when it is stored
    rw [hj.proof_eq]
    rcases hstored with ⟨rfl, hjump, -, heq, -⟩ | ⟨⟨k, hk, hkjump⟩, -, heq, -⟩
    · rw [if_pos hjump, heq]
    · have hlower := (hasserting.lower k (List.mem_cons_of_mem _ hk) (hne k hk)).1
      rw [if_neg (by omega), heq]
  · rw [hj.next_eq, hi.next_eq, hcompleted]
  · rw [hj.next_eq, hi.next_eq, hcompleted]
  · rw [hj.next_eq, hi.next_eq, hcompleted]

/-- A completed clause is stored, the solver jumps back, and the rest of the analysis succeeds. -/
theorem Completes.finish_yields {c : ClauseId} {conflict : Clause} {kept : List Literal}
    {asserting : Literal} {completed : Solver} {glue : Nat} (hs : s.Founded)
    (hpos : 0 < s.currentLevel) (hc : s.clauses.get? c = some conflict)
    (hfalse : ∀ l ∈ conflict.literals, s.trail.isFalse l = true)
    (h : s.Completes conflict kept asserting completed) :
    (completed.installClause asserting glue).Yields fun (installed, jump, stored) =>
      ∃ rest undone, completed.latestFirst completed.workspace.learned = asserting :: rest ∧
        (installed.recordJump jump).undo jump = .ok undone ∧
        (undone.imply asserting stored).Yields fun asserted =>
          asserted.bumpSeen.Yields fun bumped => ∀ size, s.Learns (asserting :: rest)
            { asserting := asserting, jump := jump, glue := glue, size := size, clause := stored }
            bumped.clearWorkspace := by
  obtain ⟨w, uip, -, -, activity, huip, -, hworkspace, hpending, -⟩ := h.derived
  obtain ⟨counters, hcompleted⟩ := h.next_eq
  have hasserting := h.asserting_kept
  refine (installClause_yields (h.trail_eq ▸ hs.trail) ?_).mono ?_
  · rw [h.trail_eq, h.learned_eq]
    exact hasserting
  rintro ⟨installed, jump, stored⟩ ⟨rest, hlatest, hi⟩
  dsimp only
  generalize installed.recordJump jump = i at hi ⊢
  have htrail : i.trail = s.trail := by rw [hi.next_eq, h.trail_eq]
  have hheuristic : i.heuristic = s.heuristic := by rw [hi.next_eq, hcompleted]
  have hassigned : i.trail.isAssigned asserting.var = true := by
    rw [htrail]
    exact Trail.isAssigned_of_isFalse (hasserting.falsified _ hasserting.mem)
  have hjump : jump < i.trail.level asserting.var := by
    rw [htrail, hasserting.current]
    exact h.jump_lt hpos hi
  obtain ⟨undone, hundo, himply⟩ := assert_yields (s := i) (c := stored)
    (htrail ▸ hs.trail) (by rw [htrail, hheuristic]; exact hs.serves) hassigned hjump
  refine ⟨rest, undone, hlatest, hundo, himply.mono fun asserted hj => ?_⟩
  have hasserted : asserted.workspace = { w with activity := activity, learned := kept } := by
    rw [hj.next_eq, hi.next_eq, hworkspace]
  have hqueue := hj.queue_eq
  rw [hheuristic] at hqueue
  have hbump : ∀ size, asserted.bumpSeen.Yields fun bumped => s.Learns (asserting :: rest)
      { asserting := asserting, jump := jump, glue := glue, size := size, clause := stored }
      bumped.clearWorkspace := by
    intro size
    have hasserts := h.asserts (r := ⟨asserting, jump, glue, size, stored⟩) hs hpos hc hfalse hi hj
    exact hasserts.bumpSeen_yields hs.toCoherent hj.serves hqueue huip.tracks hpending hasserted
  -- the run of the bumps does not depend on the size that is reported
  obtain ⟨bumped, hok, -⟩ := hbump 0
  exact ⟨bumped, hok, fun size => (hbump size).of_result hok⟩

/-- The clause is listed with the asserting literal first and the later assigned literals before the
earlier ones, and its size is reported. -/
structure Lists (s : Solver) (clause : List Literal) (learned : Learned) : Prop where
  head_eq : clause.head? = some learned.asserting
  latest_first : clause.Pairwise fun k l => s.trail.position l.var ≤ s.trail.position k.var
  size_eq : learned.size = clause.length

/-- An analysis that finds the clause of the first unique implication point learns a clause. -/
theorem learn_yields_of_derived {c : ClauseId} {conflict : Clause} (h : s.Founded)
    (hpos : 0 < s.currentLevel) (hc : s.clauses.get? c = some conflict)
    (hfalse : ∀ l ∈ conflict.literals, s.trail.isFalse l = true)
    (hderive : (s.deriveClause c).Yields fun (derived, asserting) =>
      s.Reaches conflict derived asserting) :
    (s.learn c).Yields fun (next, learned) =>
      ∃ clause, s.Learns clause learned next ∧ s.Lists clause learned := by
  unfold learn
  -- the phases one after the other; each succeeds on what the one before it left
  refine .bind (.check h.rests.clear) fun _ _ => ?_
  refine .bind (.lift (ClauseStore.get_eq_ok_iff.2 hc) rfl) ?_
  rintro _ rfl
  refine .bind (.tell _) fun _ _ => .bind hderive ?_
  rintro ⟨derived, asserting⟩ ⟨w, uip, huip, rfl, hderived⟩
  obtain ⟨stamped, hstamp, activity, store, hstamped, hpending, hstore⟩ :=
    derived.exists_stampResolved (by rw [hderived]; exact huip.pending)
  refine .bind (.lift hstamp rfl) ?_
  rintro _ rfl
  refine .bind (recordGlue_yields ?_ ?_) ?_
  · rw [hstamped, hderived]
    exact fun l hl => huip.asserting.lt_numVariables hl
  · rw [hstamped, hderived]
    have hlength := huip.length_levels_eq h.trail
    exact hlength
  rintro recorded ⟨counters, hrecorded⟩
  rw [hstamped, hderived] at hrecorded
  have hrestamped : s.clauses.Restamped store := by
    rw [hderived] at hstore
    exact hstore
  refine .bind (completes_of_shrink h huip hrecorded hpending hrestamped) ?_
  rintro completed ⟨kept, hcompleted, -⟩
  refine .bind (hcompleted.recordSize.finish_yields h hpos hc hfalse) ?_
  rintro ⟨installed, jump, stored⟩ ⟨rest, undone, hlatest, hundo, hasserted⟩
  refine .bind (.lift hundo rfl) ?_
  rintro _ rfl
  refine .bind hasserted fun asserted hbumped => .bind hbumped fun bumped hlearns => ?_
  refine .pure ⟨_, hlearns _, rfl, ?_, ?_⟩
  · rw [← hlatest, ← hcompleted.trail_eq]
    exact Trail.pairwise_latest_first _ _
  · rw [← hlatest]
    exact (length_stableSort _ _).symm

/-- From a false clause with a literal of the current level an analysis learns a clause. -/
theorem learn_yields {c : ClauseId} {conflict : Clause} (h : s.Grounded)
    (hpos : 0 < s.currentLevel) (hc : s.clauses.get? c = some conflict)
    (hfalse : ∀ l ∈ conflict.literals, s.trail.isFalse l = true)
    (hcurrent : ∃ l ∈ conflict.literals, s.trail.level l.var = s.currentLevel) :
    (s.learn c).Yields fun (next, learned) =>
      ∃ clause, s.Learns clause learned next ∧ s.Lists clause learned :=
  learn_yields_of_derived h.founded hpos hc hfalse (deriveClause_yields h hpos hc hfalse hcurrent)

/-- An analysis of a false clause above the root that ends has learned a clause. -/
theorem Founded.learn_ensures {c : ClauseId} {conflict : Clause} (h : s.Founded)
    (hpos : 0 < s.currentLevel) (hc : s.clauses.get? c = some conflict)
    (hfalse : ∀ l ∈ conflict.literals, s.trail.isFalse l = true) :
    (s.learn c).Ensures fun (next, learned) =>
      ∃ clause, s.Learns clause learned next ∧ s.Lists clause learned := by
  rintro ⟨next, learned⟩ hok
  refine (learn_yields_of_derived h hpos hc hfalse ?_).of_result hok
  -- the derivation is a phase of the analysis, so it ends as well
  obtain ⟨hderive⟩ := phases_of_learn hok
  exact h.deriveClause_yields hpos hc hfalse hderive

end Solver

end ClauseLearning
