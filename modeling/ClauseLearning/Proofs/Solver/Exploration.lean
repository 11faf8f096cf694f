import ClauseLearning.Proofs.Conflict.Exploration
import ClauseLearning.Proofs.Solver.Cleanliness
import ClauseLearning.Proofs.Solver.Implications

/-!
# Minimisation in an analysis

Before a clause is shrunk, the resolution has left its marks and records, and the clauses that
waited were stamped. Nothing of this stands in the way of the search for removable literals: the
clause is false, and it has all literals that were met below the conflict level. So along every run
under the rule that reasons imply their literals and that analysed conflicts are false, and for
every depth at which the search may give up, it looks through the reason of a variable at most once.
-/

set_option autoImplicit false

namespace ClauseLearning

namespace Solver

variable {s next start : Solver} {ops : List Operation} {c : ClauseId}

/-- The first phases of an analysis: the clause is derived, the clauses that waited are stamped, and
the glue is recorded. What is left to do with the clause is to shrink it and to install it. -/
def prepareClause (s : Solver) (c : ClauseId) : Except Fault (Solver × Literal) := do
  let (derived, asserting) ← (s.deriveClause c).result
  let stamped ← derived.stampResolved
  let prepared ← stamped.recordGlue.result
  .ok (prepared, asserting)

/-- An analysis that learns prepares a clause. -/
theorem Phases.prepares {learned : Learned} (h : s.Phases c next learned) :
    ∃ prepared, s.prepareClause c = .ok (prepared, learned.asserting) := by
  obtain ⟨hderive, hstamp, hrecord, -⟩ := h
  unfold prepareClause
  simp [hderive, hstamp, hrecord, bind, Except.bind]

/-- From a false clause above the root, the clause that is to be shrunk is the one of the first
unique implication point, and it waits to be shrunk. -/
theorem Founded.awaits {asserting : Literal} {prepared : Solver} (hs : s.Founded)
    (hpos : 0 < s.currentLevel) (hfalsified : s.Falsified c)
    (h : s.prepareClause c = .ok (prepared, asserting)) :
    (∃ found uip, (s.workspace.firstUip s.view c).result = .ok (found, uip) ∧
        prepared.workspace.learned = found.learned ++ [uip.negate]) ∧
      Workspace.Awaits prepared.view prepared.workspace := by
  obtain ⟨conflict, hc, hfalse⟩ := hfalsified
  obtain ⟨⟨derived, asserting⟩, hderive, h⟩ := Fault.bind_eq_ok_iff.1 h
  obtain ⟨stamped, hstamp, h⟩ := Fault.bind_eq_ok_iff.1 h
  obtain ⟨recorded, hrecord, h⟩ := Fault.bind_eq_ok_iff.1 h
  obtain ⟨rfl, rfl⟩ := Prod.mk.inj (Except.ok.inj h)
  obtain ⟨w, uip, activity, store, hfirst, -, hw, -, hflush, rfl⟩ :=
    hs.toCoherent.recorded hderive hstamp hrecord
  have hfinds : Workspace.FindsUip s.view conflict w uip :=
    Workspace.firstUip_ensures (v := s.view) hs.trail hs.justified hs.stampable hpos
      (hs.rests.tracks hs.marks) hs.toCoherent.seen_eq hs.toCoherent.pending hc hfalse _ hfirst
  have hkept := (ClauseStore.Alike.of_flush hflush).keptIn
  refine ⟨⟨w, uip, hfirst, rfl⟩, ?_⟩
  constructor
  case trail => exact hs.trail
  case justified => exact hs.justified.mono hkept
  case size_marks => exact hw.size_marks
  case no_verdict => exact hw.no_verdict
  case minimised_eq => exact hw.minimised_eq
  case falsified => exact hfinds.asserting.falsified
  case mem_learned =>
    intro l hl hseen hlower
    apply List.mem_append_left
    apply hfinds.tracks.mem_learned_iff.2
    have htrue : s.trail.isTrue l.negate = true := by
      rw [Trail.isTrue_negate]
      exact hl
    have hmem := hfinds.tracks.negate_mem_seen hfinds.falsified htrue hseen
    rw [Literal.negate_negate] at hmem
    exact ⟨hmem, hlower⟩

/-- In a state that truthful operations lead to from a new solver, let an analysis learn a clause.
When it comes to shrinking, its clause is that of the first unique implication point, and to
whichever depth the search for removable literals goes, it explores every reason at most once. -/
theorem Run.minimisation_explores_once {o : Options} {audit : AuditLevel} {proof : ProofLog}
    {learned : Learned} (hnew : Solver.new o audit proof = .ok start)
    (hrun : Run truthful start ops s) (hallows : truthful s .analyse = true)
    (hok : s.analyse.result = .ok (next, .learned learned)) : ∃ c prepared,
      s.status = .conflict c ∧ s.countConflict.prepareClause c = .ok (prepared, learned.asserting) ∧
      (∃ found uip, (s.workspace.firstUip s.view c).result = .ok (found, uip) ∧
        prepared.workspace.learned = found.learned ++ [uip.negate]) ∧
      ∀ maxDepth, Workspace.ExploresOnce prepared.view maxDepth prepared.workspace := by
  obtain rfl := eq_empty_of_new hnew
  have hs := hrun.founded (grounded_empty o audit proof).founded
  cases course_of_analyse hok with
  | @learned c mid _ hstatus hpos hlearn =>
    have hcounted : s.countConflict.Founded := hs.congr rfl rfl hs.serves rfl rfl
    obtain ⟨prepared, hprepares⟩ := (phases_of_learn hlearn).prepares
    obtain ⟨hfound, hawaits⟩ :=
      hcounted.awaits hpos (falsified_of_permits hallows hstatus) hprepares
    exact ⟨c, prepared, hstatus, hprepares, hfound, hawaits.exploresOnce⟩

/-- What minimisation looks at: the variables whose reasons are explored, and all questions, each
with its variable and its depth. -/
structure Exploration where
  reasons : List Variable
  questions : List (Variable × Nat)
  deriving DecidableEq

/-- What is looked at when a clause that was prepared is minimised to a depth. -/
def exploration (s : Solver) (maxDepth : Nat) : Exploration where
  reasons := (s.workspace.minimise s.view maxDepth s.workspace.learned).explorations
  questions := (Workspace.questionsOfClause s.view maxDepth s.workspace s.workspace.learned).map
    fun q => (q.literal.var, q.depth)

/-- On the first level a decision implies two literals of a clause by way of a third literal, and so
does a literal without a reason. The clause is false as soon as there is a second level. -/
def sharingRun : List Operation :=
  [.newVariable, .newVariable, .newVariable, .newVariable, .newVariable, .newVariable,
    .newVariable, .newVariable, .newVariable, .addClause [⟨0, false⟩, ⟨1, true⟩],
    .addClause [⟨1, false⟩, ⟨2, true⟩], .addClause [⟨1, false⟩, ⟨3, true⟩],
    .addClause [⟨4, false⟩, ⟨5, true⟩], .addClause [⟨5, false⟩, ⟨6, true⟩],
    .addClause [⟨5, false⟩, ⟨7, true⟩],
    .addClause [⟨0, false⟩, ⟨2, false⟩, ⟨3, false⟩, ⟨6, false⟩, ⟨7, false⟩, ⟨8, false⟩],
    .decide ⟨0, true⟩, .assign ⟨1, true⟩ (some 0), .assign ⟨2, true⟩ (some 1),
    .assign ⟨3, true⟩ (some 2), .assign ⟨4, true⟩ none, .assign ⟨5, true⟩ (some 3),
    .assign ⟨6, true⟩ (some 4), .assign ⟨7, true⟩ (some 5), .decide ⟨8, true⟩, .declareConflict 6]

/-- What is implied through a shared literal finds its verdict. Where the depth does not suffice,
the question about it is asked twice and its reason is not explored. -/
theorem sharingRun_minimisation_explores_once : ∃ s next learned prepared,
    runBy truthful (Solver.empty {} .full ⟨none⟩) sharingRun = some s ∧
      truthful s .analyse = true ∧ s.analyse.result = .ok (next, .learned learned) ∧
      s.countConflict.prepareClause 6 = .ok (prepared, learned.asserting) ∧
      (∀ maxDepth, Workspace.ExploresOnce prepared.view maxDepth prepared.workspace) ∧
      prepared.exploration 1000 = ⟨[1, 2, 3, 5, 6, 7], [(0, 0), (2, 0), (1, 1), (0, 2), (3, 0),
        (1, 1), (6, 0), (5, 1), (4, 2), (7, 0), (5, 1), (8, 0)]⟩ ∧
      prepared.exploration 0 = ⟨[2, 3, 6, 7], [(0, 0), (2, 0), (1, 1), (3, 0), (1, 1), (6, 0),
        (5, 1), (7, 0), (5, 1), (8, 0)]⟩ := by
  have hnew : Solver.new {} .full ⟨none⟩ = .ok (Solver.empty {} .full ⟨none⟩) := rfl
  have hend : ((runBy truthful (Solver.empty {} .full ⟨none⟩) sharingRun).bind fun s =>
      s.analyse.result.toOption.bind fun q =>
        (s.countConflict.prepareClause 6).toOption.map fun p =>
          ((truthful s .analyse, s.status, q.2), [1000, 0].map p.1.exploration)) =
      some ((true, .conflict 6, .learned ⟨⟨8, false⟩, 1, 2, 4, some 7⟩),
        [⟨[1, 2, 3, 5, 6, 7], [(0, 0), (2, 0), (1, 1), (0, 2), (3, 0), (1, 1), (6, 0), (5, 1),
            (4, 2), (7, 0), (5, 1), (8, 0)]⟩,
          ⟨[2, 3, 6, 7], [(0, 0), (2, 0), (1, 1), (3, 0), (1, 1), (6, 0), (5, 1), (7, 0), (5, 1),
            (8, 0)]⟩]) := by
    decide +kernel
  obtain ⟨s, hrun, hend⟩ := Option.bind_eq_some_iff.1 hend
  obtain ⟨⟨next, outcome⟩, hanalyse, hend⟩ := Option.bind_eq_some_iff.1 hend
  obtain ⟨⟨prepared, asserting⟩, hprepare, hend⟩ := Option.map_eq_some_iff.1 hend
  simp only [Prod.mk.injEq, List.map_cons, List.cons.injEq] at hend
  obtain ⟨⟨hallows, hstatus, rfl⟩, hdeep, hshallow, -⟩ := hend
  have hok := toOption_eq_some_iff.1 hanalyse
  obtain ⟨c, prepared', hpending, hprepared, -, hexplores⟩ :=
    Run.minimisation_explores_once hnew (Run.start.of_runBy hrun) hallows hok
  obtain rfl : 6 = c := Status.conflict.inj (hstatus.symm.trans hpending)
  rw [toOption_eq_some_iff.1 hprepare] at hprepared
  obtain ⟨rfl, hasserting⟩ := Prod.mk.inj (Except.ok.inj hprepared)
  rw [hasserting] at hprepare
  exact ⟨s, next, _, prepared, hrun, hallows, hok, toOption_eq_some_iff.1 hprepare, hexplores,
    hdeep, hshallow⟩

end Solver

end ClauseLearning
