import ClauseLearning.Proofs.Conflict.Anchors
import ClauseLearning.Proofs.Conflict.Contents
import ClauseLearning.Proofs.Solver.Cleanliness
import ClauseLearning.Proofs.Trail.Evolution

/-!
# How the figures account for what was derived

Units reach the root level when a clause is added, when the caller assigns a literal, and when an
analysis asserts one; learned clauses reach the store at the end of an analysis. Each time the
trail or the store, the counters and the proof are brought up to date in different places. A step
*enters* lines if all of them agree on it: the lines of several literals are the clauses that the
store got, the lines of one literal are those that the root level got, and the counters rose by
their numbers. Steps that enter lines can be put one after the other.

An analysis that learns enters a line of several literals, or counts a learned unit, and never both
or neither; that it is not neither takes a clause that minimisation did not empty. So a conflict is
accounted for by a learned clause, by a learned unit, or by the discovery that there is no model.
Nothing is assumed of the reasons and of the conflicts.
-/

set_option autoImplicit false

namespace ClauseLearning

/-- The lines of at least two literals. -/
def Formula.long (lines : Formula) : Formula := lines.filter fun ls => decide (2 ≤ ls.length)

/-- The lines of one literal. -/
def Formula.units (lines : Formula) : Formula := lines.filter fun ls => decide (ls.length = 1)

/-- The long lines of two parts are those of the one and those of the other. -/
theorem Formula.long_append (lines lines' : Formula) :
    (lines ++ lines').long = lines.long ++ lines'.long := List.filter_append ..

/-- The units of two parts are those of the one and those of the other. -/
theorem Formula.units_append (lines lines' : Formula) :
    (lines ++ lines').units = lines.units ++ lines'.units := List.filter_append ..

namespace Trail

variable {t : Trail}

/-- The entries of the root level. -/
def root (t : Trail) : List Literal := t.entries.take t.numRoot

/-- The root level has as many entries as it counts. -/
theorem length_root (ht : t.WellFormed) : t.root.length = t.numRoot := by
  unfold root
  rw [List.length_take, length_entries, Nat.min_eq_left ht.numRoot_le_length]

/-- At the root level an assignment adds an entry, and above it none. -/
theorem root_push (ht : t.WellFormed) (l : Literal) (r : Option ClauseId) :
    (t.push l r).root = t.root ++ if t.currentLevel = 0 then [l] else [] := by
  have hle := ht.numRoot_le_length
  unfold root
  rw [numRoot_eq] at hle ⊢
  rw [numRoot_eq, entries_push, delimiters_push, length_push]
  rw [← length_delimiters]
  cases hds : t.delimiters with
  | nil => simp [List.take_of_length_le]
  | cons d ds =>
    rw [hds] at hle
    have hd : d ≤ t.entries.length := hle
    simp [List.take_append_of_le_length hd]

/-- A decision leaves the root level. -/
theorem root_push_openLevel (ht : t.WellFormed) (l : Literal) (r : Option ClauseId) :
    (t.openLevel.push l r).root = t.root := by
  have hle := ht.numRoot_le_length
  unfold root
  rw [numRoot_eq] at hle ⊢
  rw [numRoot_eq, entries_push, delimiters_push, entries_openLevel, delimiters_openLevel]
  cases hds : t.delimiters with
  | nil => simp
  | cons d ds =>
    rw [hds] at hle
    have hd : d ≤ t.entries.length := hle
    simp [List.take_append_of_le_length hd]

/-- A cut leaves the root level. -/
theorem root_cut (ht : t.WellFormed) (level : Nat) : (t.cut level).root = t.root := by
  unfold root
  rw [ht.numRoot_cut, entries_cut, List.take_take, Nat.min_eq_left (ht.numRoot_le_lengthAt level)]

end Trail

/-- The figures that are accounted for: the conflicts, the literals fixed at the root, and the
learned units. -/
def Counters.tally (c : Counters) : Nat × Nat × Nat := (c.conflicts, c.fixed, c.learnedUnits)

namespace Solver

variable {s mid next start : Solver} {ops : List Operation}

/-- The solver after a step that logged lines, met conflicts and learned units. Trail, store,
counters and status agree with the lines. -/
structure Enters (s : Solver) (lines : Formula) (conflicts units : Nat) (next : Solver) :
    Prop where
  proof_eq : next.proof = s.proof.logAll lines
  root_eq : next.trail.root.map ([·]) = s.trail.root.map ([·]) ++ lines.units
  learned_eq : next.clauses.learnedClauses = s.clauses.learnedClauses ++ lines.long
  numLearned_eq : next.clauses.numLearned = s.clauses.numLearned + lines.long.length
  fixed_eq : next.counters.fixed = s.counters.fixed + lines.units.length
  conflicts_eq : next.counters.conflicts = s.counters.conflicts + conflicts
  learnedUnits_eq : next.counters.learnedUnits = s.counters.learnedUnits + units
  refuted_eq : next.isUnsatisfiable.toNat = s.isUnsatisfiable.toNat + lines.count []

namespace Enters

variable {lines lines' : Formula} {conflicts conflicts' units units' : Nat}

/-- What two steps enter adds up. -/
theorem trans (h : s.Enters lines conflicts units mid)
    (h' : mid.Enters lines' conflicts' units' next) :
    s.Enters (lines ++ lines') (conflicts + conflicts') (units + units') next where
  proof_eq := by rw [h'.proof_eq, h.proof_eq, ProofLog.logAll_append]
  root_eq := by rw [h'.root_eq, h.root_eq, Formula.units_append, List.append_assoc]
  learned_eq := by rw [h'.learned_eq, h.learned_eq, Formula.long_append, List.append_assoc]
  numLearned_eq := by
    rw [h'.numLearned_eq, h.numLearned_eq, Formula.long_append, List.length_append, Nat.add_assoc]
  fixed_eq := by
    rw [h'.fixed_eq, h.fixed_eq, Formula.units_append, List.length_append, Nat.add_assoc]
  conflicts_eq := by rw [h'.conflicts_eq, h.conflicts_eq, Nat.add_assoc]
  learnedUnits_eq := by rw [h'.learnedUnits_eq, h.learnedUnits_eq, Nat.add_assoc]
  refuted_eq := by rw [h'.refuted_eq, h.refuted_eq, List.count_append, Nat.add_assoc]

/-- A step of which the books know nothing. -/
theorem quiet (hproof : next.proof = s.proof) (hroot : next.trail.root = s.trail.root)
    (hclauses : s.clauses.Alike next.clauses) (htally : next.counters.tally = s.counters.tally)
    (hstatus : next.isUnsatisfiable = s.isUnsatisfiable) : s.Enters [] 0 0 next where
  proof_eq := hproof
  root_eq := by
    rw [hroot]
    exact (List.append_nil _).symm
  learned_eq := by
    rw [hclauses.learnedClauses_eq]
    exact (List.append_nil _).symm
  numLearned_eq := hclauses.numLearned_eq
  fixed_eq := congrArg (fun t => t.2.1) htally
  conflicts_eq := congrArg Prod.fst htally
  learnedUnits_eq := congrArg (fun t => t.2.2) htally
  refuted_eq := congrArg Bool.toNat hstatus

/-- A literal put on the trail is fixed if the level is the root, and logged only then. -/
theorem pushes (ht : s.trail.WellFormed) {l : Literal} {r : Option ClauseId}
    (hp : s.Pushes l r next) :
    s.Enters (if s.currentLevel = 0 then [[l]] else []) 0 0 next := by
  have hroot := Trail.root_push ht l r
  by_cases hlevel : s.currentLevel = 0
  · have hcounters : next.counters = s.counters.countFixed := hp.counters_eq.trans (if_pos hlevel)
    obtain ⟨iterating, counters, rfl⟩ := hp.next_eq
    obtain rfl : counters = s.counters.countFixed := hcounters
    rw [if_pos (show s.trail.currentLevel = 0 from hlevel)] at hroot
    rw [if_pos hlevel]
    refine ⟨if_pos hlevel, ?_, (List.append_nil _).symm, rfl, rfl, rfl, rfl, rfl⟩
    rw [hroot, List.map_append]
    rfl
  · have hcounters : next.counters = s.counters := hp.counters_eq.trans (if_neg hlevel)
    obtain ⟨iterating, counters, rfl⟩ := hp.next_eq
    obtain rfl : counters = s.counters := hcounters
    rw [if_neg (show ¬ s.trail.currentLevel = 0 from hlevel), List.append_nil] at hroot
    rw [if_neg hlevel]
    exact .quiet (if_neg hlevel) hroot (.refl _) rfl rfl

/-- The discovery that there is no model logs the empty clause. -/
theorem refutes (hready : s.isUnsatisfiable = false) :
    s.Enters [[]] 0 0 { s with proof := (s.proof.logClause []).1, status := .unsatisfiable } := by
  refine ⟨rfl, (List.append_nil _).symm, (List.append_nil _).symm, rfl, rfl, rfl, rfl, ?_⟩
  rw [hready]
  rfl

/-- Undoing levels enters nothing. -/
theorem undo (ht : s.trail.WellFormed) {level : Nat} (hok : s.undo level = .ok next) :
    s.Enters [] 0 0 next := by
  obtain ⟨-, rfl⟩ := undo_eq_ok hok
  exact .quiet rfl (Trail.root_cut ht level) (.refl _) rfl rfl

/-- Bumps enter nothing. -/
theorem bumps (hok : s.bumpSeen.result = .ok next) : s.Enters [] 0 0 next := by
  obtain ⟨heuristic, workspace, rfl⟩ := next_of_bumpSeen hok
  exact .quiet rfl rfl (.refl _) rfl rfl

/-- A learned clause of two literals is logged as it is stored. -/
theorem installs {asserting : Literal} {glue jump : Nat} {c : Option ClauseId}
    (hok : (s.installClause asserting glue).result = .ok (next, jump, c)) :
    s.Enters (if 2 ≤ s.workspace.learned.length then [s.latestFirst s.workspace.learned] else [])
      0 0 next := by
  rcases installs_of_installClause hok with ⟨htwo, ls, hls, rfl⟩ | ⟨hshort, rfl⟩
  · have hlength : ls.length = s.workspace.learned.length := hls ▸ length_stableSort _ _
    have hlong : Formula.long [ls] = [ls] := by simp [Formula.long, hlength, htwo]
    have hunits : Formula.units [ls] = [] := by
      have hne : ¬ ls.length = 1 := by omega
      simp [Formula.units, hne]
    have hempty : List.count [] [ls] = 0 := by
      rw [List.count_eq_zero, List.mem_singleton]
      rintro rfl
      rw [List.length_nil] at hlength
      omega
    rw [if_pos htwo, ← hls]
    refine ⟨rfl, ?_, ?_, ?_, ?_, rfl, rfl, ?_⟩
    · rw [hunits, List.append_nil]
    · rw [ClauseStore.learnedClauses_insert, hlong]
      rfl
    · rw [hlong]
      rfl
    · rw [hunits]
      rfl
    · rw [hempty]
      rfl
  · rw [if_neg (Nat.not_le.2 hshort)]
    exact .quiet rfl rfl (.refl _) rfl rfl

/-- That there is no model stays known. -/
theorem stays_refuted (h : s.Enters lines conflicts units next)
    (hunsat : s.isUnsatisfiable = true) : next.isUnsatisfiable = true := by
  have hcount := h.refuted_eq
  have hle := Bool.toNat_le next.isUnsatisfiable
  rw [hunsat, Bool.toNat_true] at hcount
  exact Bool.toNat_eq_one.1 (by omega)

/-- A learned unit is counted. -/
theorem recordSize (s : Solver) :
    s.Enters [] 0 (if s.workspace.learned.length = 1 then 1 else 0) s.recordSize :=
  ⟨rfl, (List.append_nil _).symm, (List.append_nil _).symm, rfl, rfl, rfl, rfl, rfl⟩

end Enters

/-! ## An analysis -/

/-- Shrinking leaves a literal of the clause under construction over. -/
theorem learned_ne_nil_of_shrinkClause {w : Workspace} {uip : Literal} {activity : Activity}
    (hok : s.shrinkClause.result = .ok next) (ht : s.trail.WellFormed)
    (hw : Workspace.Tracks s.trail w) (hseen : w.isSeen uip.var = true)
    (hworkspace : s.workspace =
      { w with activity := activity, learned := w.learned ++ [uip.negate] }) :
    next.workspace.learned ≠ [] := by
  rcases next_of_shrinkClause hok with rfl | ⟨w', kept, removed, hminimise, rfl⟩
  · rw [hworkspace]
    simp
  · obtain ⟨x, hanchored, hx⟩ := hw.exists_anchored ht hseen
    have hspares : Workspace.Spares s.view.trail x s.workspace := by
      refine ⟨⟨hanchored.above_root, ?_⟩, ?_⟩
      · rw [hworkspace]
        exact hanchored.first
      · rw [hworkspace]
        exact (hw.no_verdict x).2
    refine Workspace.minimise_ne_nil _ hspares ?_ _ hminimise
    rw [hworkspace]
    rcases hx with rfl | ⟨l, hl, hlx⟩
    · exact ⟨uip.negate, by simp, rfl⟩
    · exact ⟨l, List.mem_append_left _ hl, hlx⟩

/-- The clause derived from a conflict has a literal, and nothing is logged before it is stored. -/
theorem enters_recorded {c : ClauseId} {asserting : Literal} {derived stamped recorded : Solver}
    (hs : s.Coherent) (hderive : (s.deriveClause c).result = .ok (derived, asserting))
    (hstamp : derived.stampResolved = .ok stamped)
    (hrecord : stamped.recordGlue.result = .ok recorded) :
    s.Enters [] 0 0 recorded ∧ recorded.trail = s.trail ∧
      ∀ shrunk, recorded.shrinkClause.result = .ok shrunk → shrunk.workspace.learned ≠ [] := by
  obtain ⟨w, uip, activity, store, hfirst, -, hw, -, hflush, rfl⟩ :=
    hs.recorded hderive hstamp hrecord
  have hseen : w.isSeen uip.var = true := Workspace.firstUip_isSeen c _ hfirst
  exact ⟨.quiet rfl rfl (.of_flush hflush) rfl rfl, rfl, fun shrunk hshrink =>
    learned_ne_nil_of_shrinkClause hshrink hs.trail hw hseen rfl⟩

/-- Shrinking a clause enters nothing and leaves the trail. -/
theorem Enters.shrinks (hok : s.shrinkClause.result = .ok next) :
    s.Enters [] 0 0 next ∧ next.trail = s.trail := by
  rcases next_of_shrinkClause hok with rfl | ⟨_, _, _, -, rfl⟩
  · exact ⟨.quiet rfl rfl (.refl _) rfl rfl, rfl⟩
  · exact ⟨.quiet rfl rfl (.refl _) rfl rfl, rfl⟩

/-- After the jump one literal is asserted, which may be a unit at the root. -/
theorem Enters.jumps {jump : Nat} {asserting : Literal} {clause : Option ClauseId}
    {undone asserted bumped : Solver} (ht : s.trail.WellFormed)
    (hundo : (s.recordJump jump).undo jump = .ok undone)
    (himply : (undone.imply asserting clause).result = .ok asserted)
    (hbump : asserted.bumpSeen.result = .ok bumped) :
    ∃ lines, s.Enters lines 0 0 bumped.clearWorkspace ∧ lines.long = [] := by
  have hrecorded : s.Enters [] 0 0 (s.recordJump jump) := .quiet rfl rfl (.refl _) rfl rfl
  have hundone := Enters.undo (s := s.recordJump jump) ht hundo
  have hwell : undone.trail.WellFormed := by
    obtain ⟨-, rfl⟩ := undo_eq_ok hundo
    exact ht.cut _
  have hasserted := Enters.pushes hwell (pushes_of_imply himply)
  have hcleared : bumped.Enters [] 0 0 bumped.clearWorkspace := .quiet rfl rfl (.refl _) rfl rfl
  refine ⟨_, (hrecorded.trans hundone).trans (hasserted.trans ((bumps hbump).trans hcleared)), ?_⟩
  rw [List.append_nil, List.append_nil]
  split <;> rfl

/-- Learning enters a clause of several literals or counts a unit. -/
theorem Phases.enters {c : ClauseId} {learned : Learned} (hs : s.Coherent)
    (h : s.Phases c next learned) :
    ∃ lines units, s.Enters lines 0 units next ∧ lines.long.length + units = 1 := by
  cases h with
  | @intro derived stamped recorded shrunk installed undone asserted bumped asserting jump clause
    hderive hstamp hrecord hshrink hinstall hundo himply hbump =>
  obtain ⟨hrecorded, hrecorded_trail, hne⟩ := enters_recorded hs hderive hstamp hrecord
  obtain ⟨hshrunk, hshrunk_trail⟩ := Enters.shrinks hshrink
  have hinstalled := Enters.installs hinstall
  have hwell : installed.trail.WellFormed := by
    obtain ⟨_, _, rfl⟩ := next_of_installClause hinstall
    have htrail : shrunk.trail = s.trail := hshrunk_trail.trans hrecorded_trail
    exact htrail ▸ hs.trail
  obtain ⟨lines, hjumped, hunit⟩ := Enters.jumps hwell hundo himply hbump
  refine ⟨_, _, ((hrecorded.trans hshrunk).trans (.recordSize shrunk)).trans
    (hinstalled.trans hjumped), ?_⟩
  have hsize : 0 < shrunk.workspace.learned.length := List.length_pos_of_ne_nil (hne shrunk hshrink)
  have hlength : (shrunk.latestFirst shrunk.workspace.learned).length =
      shrunk.workspace.learned.length := length_stableSort _ _
  simp only [Formula.long_append, List.nil_append, List.append_nil, hunit]
  show (Formula.long (if 2 ≤ shrunk.workspace.learned.length then
    [shrunk.latestFirst shrunk.workspace.learned] else [])).length + _ = 1
  by_cases htwo : 2 ≤ shrunk.workspace.learned.length
  · rw [if_pos htwo, if_neg (by omega)]
    simp [Formula.long, hlength, htwo]
  · rw [if_neg htwo, if_pos (by omega)]
    rfl

/-- Learning leaves the status to the analysis. -/
theorem Phases.status_eq {c : ClauseId} {learned : Learned} (h : s.Phases c next learned) :
    next.status = s.status := by
  obtain ⟨_, undone, asserted, bumped, ⟨_, _, _, _, rfl⟩, hundo, hpushes, hbump, rfl⟩ := h.jumps
  obtain ⟨-, rfl⟩ := undo_eq_ok hundo
  obtain ⟨_, _, rfl⟩ := hpushes.next_eq
  obtain ⟨_, _, rfl⟩ := next_of_bumpSeen hbump
  rfl

/-- An analysis that is not a repetition is accounted for by what it learned, or by the discovery
that there is no model. -/
theorem Course.enters {outcome : Outcome} (hs : s.Coherent) (h : s.Course next outcome) :
    ∃ lines units, s.Enters lines
      (lines.long.length + units + (!s.isUnsatisfiable && next.isUnsatisfiable).toNat) units
      next := by
  cases h with
  | repeated hunsat =>
    have hunsat : s.isUnsatisfiable = true := beq_iff_eq.2 hunsat
    refine ⟨[], 0, ?_⟩
    rw [hunsat]
    exact .quiet rfl rfl (.refl _) rfl rfl
  | refuted hstatus _ =>
    have hready : s.isUnsatisfiable = false := by simp [isUnsatisfiable, hstatus]
    refine ⟨[[]], 0, ?_⟩
    rw [hready]
    have hrefutes := Enters.refutes (s := s) hready
    exact ⟨hrefutes.proof_eq, hrefutes.root_eq, hrefutes.learned_eq, rfl, rfl, rfl, rfl,
      hrefutes.refuted_eq⟩
  | @learned c mid learned hstatus _ hlearn =>
    have hready : s.isUnsatisfiable = false := by simp [isUnsatisfiable, hstatus]
    have hcounted : s.countConflict.Coherent := hs.congr rfl hs.serves rfl
    have hphases := phases_of_learn hlearn
    obtain ⟨lines, units, henters, hone⟩ := hphases.enters hcounted
    have hmid : mid.isUnsatisfiable = false := by
      rw [isUnsatisfiable, hphases.status_eq]
      exact hready
    have hcounts : s.Enters [] 1 0 s.countConflict :=
      ⟨rfl, (List.append_nil _).symm, (List.append_nil _).symm, rfl, rfl, rfl, rfl, rfl⟩
    have hleaves : mid.Enters [] 0 0 { mid with status := .ready } :=
      .quiet rfl rfl (.refl _) rfl hmid.symm
    have hall := (hcounts.trans henters).trans hleaves
    rw [List.nil_append, List.append_nil, Nat.zero_add] at hall
    refine ⟨lines, units, ?_⟩
    rw [hready, hone]
    exact hall

/-! ## All operations -/

/-- A formula that has no model is not added to. -/
theorem eq_of_addClause (hunsat : s.isUnsatisfiable = true) {ls : List Literal}
    (hok : s.perform (.addClause ls) = .ok next) : next = s := by
  obtain ⟨answer, hok⟩ := map_fst_eq_ok_iff.1 hok
  obtain ⟨_, -, hok⟩ := Traced.result_bind_eq_ok_iff.1 hok
  rw [if_pos hunsat] at hok
  exact (Prod.mk.inj (Except.ok.inj hok)).1.symm

/-- Adding a clause enters what it fixes at the root or refutes, and no long line. -/
theorem enters_of_addClause (hs : s.Coherent) {ls : List Literal}
    (hok : s.perform (.addClause ls) = .ok next) :
    ∃ lines, s.Enters lines 0 0 next ∧ lines.long = [] := by
  cases hunsat : s.isUnsatisfiable with
  | true =>
    obtain rfl := eq_of_addClause hunsat hok
    exact ⟨[], .quiet rfl rfl (.refl _) rfl rfl, rfl⟩
  | false =>
    cases performs_of_perform hok with
    | addClause _ hadds =>
      cases hadds with
      | refused _ => exact ⟨[], .quiet rfl rfl (.refl _) rfl rfl, rfl⟩
      | dropped _ => exact ⟨[], .quiet rfl rfl (.refl _) rfl rfl, rfl⟩
      | refuted _ => exact ⟨_, .refutes hunsat, rfl⟩
      | unit _ hp =>
        refine ⟨_, .pushes hs.trail hp, ?_⟩
        split <;> rfl
      | stored _ _ =>
        -- a clause of the formula is not a learned one
        refine ⟨[], ⟨rfl, (List.append_nil _).symm, ?_, rfl, rfl, rfl, rfl, rfl⟩, rfl⟩
        rw [ClauseStore.learnedClauses_insert]
        rfl

/-- Apart from analyses, operations enter single literals and the empty clause only. -/
theorem enters_of_perform (hs : s.Coherent) {op : Operation} (hop : op ≠ .analyse)
    (hok : s.perform op = .ok next) : ∃ lines, s.Enters lines 0 0 next ∧ lines.long = [] := by
  cases performs_of_perform hok with
  | analyse _ => exact absurd rfl hop
  | addClause _ _ => exact enters_of_addClause hs hok
  | assign hp =>
    refine ⟨_, .pushes hs.trail hp, ?_⟩
    split <;> rfl
  | backtrack hundo => exact ⟨[], .undo hs.trail hundo, rfl⟩
  | decide _ _ _ =>
    exact ⟨[], .quiet rfl (Trail.root_push_openLevel hs.trail _ _) (.refl _) rfl rfl, rfl⟩
  | declared hready _ =>
    have hready : s.isUnsatisfiable = false := beq_eq_false_iff_ne.2 hready
    exact ⟨[], .quiet rfl rfl (.refl _) rfl hready.symm, rfl⟩
  | newVariable => exact ⟨[], .quiet rfl rfl (.refl _) rfl rfl, rfl⟩
  | nextDecision _ => exact ⟨[], .quiet rfl rfl (.refl _) rfl rfl, rfl⟩
  | ignored _ => exact ⟨[], .quiet rfl rfl (.refl _) rfl rfl, rfl⟩
  | removeFromQueue _ => exact ⟨[], .quiet rfl rfl (.refl _) rfl rfl, rfl⟩
  | iterate => exact ⟨[], .quiet rfl rfl (.refl _) rfl rfl, rfl⟩

/-- Whether an operation is an analysis that finds out that there is no model. -/
def refutesNow (s : Solver) : Operation → Solver → Bool
  | .analyse, next => !s.isUnsatisfiable && next.isUnsatisfiable
  | _, _ => false

/-- Whether it was an analysis among the operations that found out that there is no model. -/
def refutesByAnalysis (s : Solver) : List Operation → Bool
  | [] => false
  | op :: ops =>
    match s.perform op with
    | .ok next => s.refutesNow op next || next.refutesByAnalysis ops
    | .error _ => false

/-- The conflicts that an operation meets are accounted for. -/
theorem exists_enters (hs : s.Coherent) {op : Operation} (hok : s.perform op = .ok next) :
    ∃ lines units, s.Enters lines
      (lines.long.length + units + (s.refutesNow op next).toNat) units next := by
  by_cases hop : op = .analyse
  · subst hop
    obtain ⟨outcome, hok⟩ := map_fst_eq_ok_iff.1 hok
    exact (course_of_analyse hok).enters hs
  · obtain ⟨lines, henters, hlong⟩ := enters_of_perform hs hop hok
    have hno : s.refutesNow op next = false := by
      cases op <;> first | rfl | exact absurd rfl hop
    refine ⟨lines, 0, ?_⟩
    rw [hno, hlong]
    exact henters

/-- Whether an analysis refutes is found operation by operation. -/
theorem Run.refutesByAnalysis_append {allows : Solver → Operation → Bool}
    (h : Run allows start ops s) (more : List Operation) :
    start.refutesByAnalysis (ops ++ more) =
      (start.refutesByAnalysis ops || s.refutesByAnalysis more) := by
  induction h generalizing more with
  | start => rfl
  | step _ _ hok ih =>
    rw [List.append_assoc, ih, ih]
    simp only [List.singleton_append, refutesByAnalysis, hok, Bool.or_false, Bool.or_assoc]

/-- Along a run lines were entered, and the conflicts met are accounted for. -/
structure Accounted (start : Solver) (ops : List Operation) (s : Solver) (lines : Formula)
    (units : Nat) : Prop where
  enters : start.Enters lines
    (lines.long.length + units + (start.refutesByAnalysis ops).toNat) units s
  refuted : start.refutesByAnalysis ops = true → s.isUnsatisfiable = true

/-- What refutes now finds the formula open and leaves it refuted. -/
theorem of_refutesNow {op : Operation} (h : s.refutesNow op next = true) :
    s.isUnsatisfiable = false ∧ next.isUnsatisfiable = true := by
  cases op with
  | analyse => simpa [refutesNow] using h
  | _ => cases h

/-- Every operation keeps the books. -/
theorem Accounted.perform {lines : Formula} {units : Nat} {op : Operation}
    (h : start.Accounted ops s lines units) (hs : s.Coherent) (hok : s.perform op = .ok next)
    (happend : start.refutesByAnalysis (ops ++ [op]) =
      (start.refutesByAnalysis ops || s.refutesNow op next)) :
    ∃ lines units, start.Accounted (ops ++ [op]) next lines units := by
  obtain ⟨lines', units', henters⟩ := exists_enters hs hok
  -- that there is no model is not found out again
  have honce : (start.refutesByAnalysis (ops ++ [op])).toNat =
      (start.refutesByAnalysis ops).toNat + (s.refutesNow op next).toNat := by
    rw [happend]
    cases hnow : s.refutesNow op next with
    | false => simp
    | true =>
      have hbefore : start.refutesByAnalysis ops = false := by
        by_contra hno
        have hunsat := h.refuted (Bool.not_eq_false _ ▸ hno)
        rw [(of_refutesNow hnow).1] at hunsat
        cases hunsat
      rw [hbefore]
      rfl
  refine ⟨lines ++ lines', units + units', ?_, fun hrefuted => ?_⟩
  · rw [Formula.long_append, List.length_append, honce]
    convert h.enters.trans henters using 1
    omega
  · rw [happend, Bool.or_eq_true] at hrefuted
    rcases hrefuted with hbefore | hnow
    · exact henters.stays_refuted (h.refuted hbefore)
    · exact (of_refutesNow hnow).2

/-- Along a run the books are kept. -/
theorem Run.accounted {allows : Solver → Operation → Bool} (h : Run allows start ops s)
    (hstart : start.Coherent) : ∃ lines units, start.Accounted ops s lines units := by
  induction h with
  | start => exact ⟨[], 0, .quiet rfl rfl (.refl _) rfl rfl, nofun⟩
  | @step ops s next op hrun _ hok ih =>
    obtain ⟨lines, units, hbefore⟩ := ih
    refine hbefore.perform (hrun.coherent hstart) hok ?_
    rw [hrun.refutesByAnalysis_append]
    simp only [refutesByAnalysis, hok, Bool.or_false]

/-! ## Figures and proof of a run from a new solver -/

/-- The figures account for what was derived, where it may have been an analysis that found out that
there is no model. -/
structure Accounts (refuted : Bool) (s : Solver) : Prop where
  fixed_eq : s.counters.fixed = s.trail.numRoot
  numRoot_le : s.trail.numRoot ≤ s.numVariables
  numLearned_eq : s.clauses.numLearned = s.clauses.toList.countP Clause.learned
  conflicts_eq : s.counters.conflicts =
    s.clauses.numLearned + s.counters.learnedUnits + if refuted then 1 else 0

/-- The lines of a proof are the learned clauses, the literals of the root level, and the empty
clause if there is no model. -/
structure Documents (s : Solver) (lines : Formula) : Prop where
  long_eq : lines.long = s.clauses.learnedClauses
  units_eq : lines.units = s.trail.root.map ([·])
  length_long : lines.long.length = s.clauses.numLearned
  length_units : lines.units.length = s.counters.fixed
  count_empty : lines.count [] = if s.status = .unsatisfiable then 1 else 0

/-- A truth value counts one or nothing. -/
theorem toNat_eq_ite (b : Bool) : b.toNat = if b = true then 1 else 0 := by
  cases b <;> rfl

/-- In every state that operations lead to from a new solver, the literals fixed at the root, the
learned clauses and the conflicts are counted as they are found in the trail, in the store and in
the proof. -/
theorem Run.statistics_account {o : Options} {audit : AuditLevel} {proof : ProofLog}
    (hnew : Solver.new o audit proof = .ok start) (hrun : Run unrestricted start ops s) :
    s.Accounts (start.refutesByAnalysis ops) ∧
      ∀ w : Writer, proof = ⟨some w⟩ → w.room = none →
        (∃ lines : Formula,
          s.proof.text = some (String.ofList (w.written ++ lines.flatMap ProofLog.line))) ∧
        ∀ lines : Formula,
          s.proof.text = some (String.ofList (w.written ++ lines.flatMap ProofLog.line)) →
          s.Documents lines := by
  obtain rfl := eq_empty_of_new hnew
  have hcoherent := (grounded_empty o audit proof).toCoherent
  have hs := hrun.coherent hcoherent
  obtain ⟨lines, units, henters, -⟩ := hrun.accounted hcoherent
  have hlearned : s.clauses.learnedClauses = lines.long := henters.learned_eq
  have hnum : s.clauses.numLearned = lines.long.length :=
    henters.numLearned_eq.trans (Nat.zero_add _)
  have hroot : s.trail.root.map ([·]) = lines.units := henters.root_eq
  have hfixed : s.counters.fixed = lines.units.length := henters.fixed_eq.trans (Nat.zero_add _)
  refine ⟨⟨?_, ?_, ?_, ?_⟩, ?_⟩
  · rw [hfixed, ← hroot, List.length_map, Trail.length_root hs.trail]
  · exact Nat.le_trans hs.trail.numRoot_le_length hs.trail.length_le_numVariables
  · rw [hnum, ← hlearned, ClauseStore.length_learnedClauses]
  · have hunits : s.counters.learnedUnits = units :=
      henters.learnedUnits_eq.trans (Nat.zero_add _)
    have hconflicts := henters.conflicts_eq.trans (Nat.zero_add _)
    rw [← hnum, ← hunits, toNat_eq_ite] at hconflicts
    exact hconflicts
  · rintro w rfl hroom
    have hlogged : s.proof = (⟨some w⟩ : ProofLog).logAll lines := henters.proof_eq
    rw [hlogged]
    refine ⟨⟨lines, ProofLog.text_logAll hroom lines⟩, fun lines' htext => ?_⟩
    -- the text determines the lines
    obtain rfl := ProofLog.lines_of_text hroom htext
    refine ⟨hlearned.symm, hroot.symm, hnum.symm, hfixed.symm, ?_⟩
    have hcount : s.isUnsatisfiable.toNat = lines'.count [] :=
      henters.refuted_eq.trans (Nat.zero_add _)
    rw [← hcount, isUnsatisfiable, toNat_eq_ite]
    simp only [beq_iff_eq]

/-- One conflict gives a clause of two literals, the next one a unit, and the last one shows that
there is no model. -/
def accountedRun : List Operation :=
  [.newVariable, .newVariable, .newVariable,
    .addClause [⟨0, false⟩, ⟨1, false⟩, ⟨2, true⟩], .addClause [⟨0, false⟩, ⟨1, false⟩, ⟨2, false⟩],
    .addClause [⟨1, true⟩, ⟨2, true⟩], .addClause [⟨1, true⟩, ⟨2, false⟩],
    .addClause [⟨0, true⟩, ⟨1, false⟩], .decide ⟨0, true⟩, .decide ⟨1, true⟩,
    .assign ⟨2, true⟩ (some 0), .declareConflict 1, .analyse, .assign ⟨2, true⟩ (some 2),
    .declareConflict 3, .analyse, .assign ⟨0, false⟩ (some 5), .declareConflict 4, .analyse]

/-- After three conflicts the statistics account for the lines of the proof. -/
theorem accountedRun_statistics_account : ∃ s,
    runBy unrestricted (Solver.empty {} .full ⟨some {}⟩) accountedRun = some s ∧
      s.Accounts true ∧ s.counters.conflicts = 3 ∧
      ∃ lines : Formula, s.proof.text = some (String.ofList (lines.flatMap ProofLog.line)) ∧
        s.Documents lines := by
  have hnew : Solver.new {} .full ⟨some {}⟩ = .ok (Solver.empty {} .full ⟨some {}⟩) := rfl
  have hend : ((runBy unrestricted (Solver.empty {} .full ⟨some {}⟩) accountedRun).map fun s =>
      s.counters.conflicts) = some 3 := by decide +kernel
  have hrefuted : (Solver.empty {} .full ⟨some {}⟩).refutesByAnalysis accountedRun = true := by
    decide +kernel
  obtain ⟨s, hrun, hend⟩ := Option.map_eq_some_iff.1 hend
  obtain ⟨haccounts, hproof⟩ := Run.statistics_account hnew (Run.start.of_runBy hrun)
  rw [List.nil_append, hrefuted] at haccounts
  obtain ⟨⟨lines, htext⟩, hdocuments⟩ := hproof {} rfl rfl
  exact ⟨s, hrun, haccounts, hend, lines, htext, hdocuments lines htext⟩

end Solver

end ClauseLearning
