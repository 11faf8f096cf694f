import ClauseLearning.Proofs.Search.Rounds
import ClauseLearning.Proofs.Solver.Shrinking

/-!
# Nothing is learned twice

A learned clause is false when it is learned, and of its literals only the asserting one is of the
current level. The level below settles every stored clause: a stored clause that is not true there
has two literals that are not false up to that level. Both are of the current level if the clause
consists of literals of the learned one, but there is only one. So a learned clause contains the
literals of no clause that was stored before.

Clauses that were learned with one literal are not stored. Their literal stays true at the root, so
it is in no clause that is learned later.
-/

set_option autoImplicit false

namespace ClauseLearning

/-- The literals of a learned clause, which is stored unless it has one literal. -/
def Learned.literalsIn (store : ClauseStore) (l : Learned) : List Literal :=
  match l.clause with
  | some c => (store.get? c).elim [] Clause.literals
  | none => [l.asserting]

/-- A learned clause that was stored has the literals stored. -/
theorem Learned.literalsIn_of_get? {store : ClauseStore} {l : Learned} {c : ClauseId}
    {clause : Clause} (h : l.clause = some c) (hc : store.get? c = some clause) :
    l.literalsIn store = clause.literals := by
  unfold literalsIn
  rw [h]
  dsimp only
  rw [hc]
  rfl

/-- A learned clause that was not stored has the asserting literal only. -/
theorem Learned.literalsIn_of_none {store : ClauseStore} {l : Learned} (h : l.clause = none) :
    l.literalsIn store = [l.asserting] := by
  unfold literalsIn
  rw [h]

/-- The asserting literal is in the learned clause, and the literals of no clause stored before, or
learned before, all are. -/
structure Learned.IsNew (before after : ClauseStore) (history : List Learned) (l : Learned) :
    Prop where
  mem : l.asserting ∈ l.literalsIn after
  stored : ∀ c clause, before.get? c = some clause → ¬ clause.literals ⊆ l.literalsIn after
  learned : ∀ old ∈ history, ¬ old.literalsIn after ⊆ l.literalsIn after

/-- An asserting clause contains no clause that the level below the current one settles. -/
theorem Trail.Asserting.not_subset {t : Trail} {clause ls : List Literal} {asserting : Literal}
    {level : Nat} (h : t.Asserting clause asserting) (hs : t.Settles level ls)
    (hlevel : t.currentLevel = level + 1) : ¬ ls ⊆ clause := by
  intro hsub
  rcases hs with ⟨l, hl, htrue, -⟩ | ⟨k, hk, l, hl, hne, hkup, hlup⟩
  · have hfalse := h.falsified l (hsub hl)
    rw [isFalse_eq_false_of_isTrue htrue] at hfalse
    cases hfalse
  · have habove : ∀ x ∈ ls, ¬ (t.isFalse x = true ∧ t.level x.var ≤ level) → x = asserting := by
      intro x hx hup
      by_contra hne
      have hlower := (h.lower x (hsub hx) hne).2
      exact hup ⟨h.falsified x (hsub hx), by omega⟩
    exact hne ((habove k hk hkup).trans (habove l hl hlup).symm)

namespace Solver

variable {s next start propagated : Solver} {settled : Bool} {history found : List Learned}
  {learned old : Learned}

/-- A clause that was learned is stored, or has one literal, which is true at the root. -/
def Keeps (s : Solver) (l : Learned) : Prop :=
  (∃ c clause, l.clause = some c ∧ s.clauses.get? c = some clause) ∨
    (l.clause = none ∧ s.trail.IsRootTrue l.asserting)

/-- What was learned once stays learned in every later state. -/
theorem Keeps.mono (h : s.Keeps old) (hp : s.Preserves next) : next.Keeps old := by
  rcases h with ⟨c, clause, hclause, hc⟩ | ⟨hclause, hroot⟩
  · obtain ⟨clause', hc', -⟩ := hp.clauses c clause hc
    exact Or.inl ⟨c, clause', hclause, hc'⟩
  · exact Or.inr ⟨hclause, hp.root _ hroot⟩

/-- A clause learned before has the same literals in every later store. -/
theorem Keeps.literalsIn_eq (h : s.Keeps old) (hkept : s.clauses.KeptIn next.clauses) :
    old.literalsIn next.clauses = old.literalsIn s.clauses := by
  rcases h with ⟨c, clause, hclause, hc⟩ | ⟨hclause, -⟩
  · obtain ⟨clause', hc', heq⟩ := hkept c clause hc
    rw [Learned.literalsIn_of_get? hclause hc, Learned.literalsIn_of_get? hclause hc', heq]
  · rw [Learned.literalsIn_of_none hclause, Learned.literalsIn_of_none hclause]

/-- The clauses that were learned are kept, and none contains an earlier one. -/
structure Remembers (s : Solver) (history : List Learned) : Prop where
  keeps : ∀ l ∈ history, s.Keeps l
  distinct : history.Pairwise fun old new =>
    ¬ old.literalsIn s.clauses ⊆ new.literalsIn s.clauses

/-- What a solver remembers it remembers in every later state. -/
theorem Remembers.mono (h : s.Remembers history) (hp : s.Preserves next) :
    next.Remembers history where
  keeps := fun l hl => (h.keeps l hl).mono hp
  distinct := by
    refine h.distinct.imp_of_mem fun {old new} hold hnew hno => ?_
    rw [(h.keeps old hold).literalsIn_eq hp.clauses, (h.keeps new hnew).literalsIn_eq hp.clauses]
    exact hno

/-! ## One analysis -/

namespace Learns

variable {clause : List Literal}

/-- The clause that an analysis reports is the one it learned. -/
theorem literalsIn_eq (h : s.Learns clause learned next) :
    learned.literalsIn next.clauses = clause := by
  cases hc : learned.clause with
  | some c => exact Learned.literalsIn_of_get? hc (h.get?_clause hc)
  | none => rw [Learned.literalsIn_of_none hc, (h.eq_singleton hc).1]

/-- What was learned is kept. -/
theorem keeps (h : s.Learns clause learned next) (hs : s.Coherent) : next.Keeps learned := by
  cases hc : learned.clause with
  | some c => exact Or.inl ⟨c, _, hc, h.get?_clause hc⟩
  | none =>
    refine Or.inr ⟨hc, ?_⟩
    obtain ⟨hknown, hfree⟩ := h.asserting_free hs
    rw [h.trail_eq, Trail.isRootTrue_push hknown hfree, Trail.currentLevel_cut,
      (h.eq_singleton hc).2]
    exact Or.inl ⟨rfl, Nat.zero_min _⟩

/-- The learned clause is new if all lower levels are settled. -/
theorem isNew (h : s.Learns clause learned next)
    (hlower : ∀ level < s.currentLevel, s.SettledAt level) (hkeeps : ∀ l ∈ history, s.Keeps l) :
    learned.IsNew s.clauses next.clauses history := by
  obtain ⟨level, hlevel⟩ : ∃ level, s.currentLevel = level + 1 :=
    Nat.exists_eq_succ_of_ne_zero (Nat.ne_of_gt (Nat.lt_of_le_of_lt (Nat.zero_le _) h.jump_lt))
  have hstored : ∀ c old, s.clauses.get? c = some old → ¬ old.literals ⊆ clause :=
    fun c old hc => h.asserting.not_subset (hlower level (by omega) c old hc) hlevel
  constructor <;> rw [h.literalsIn_eq]
  · exact h.asserting.mem
  · exact hstored
  · intro old hold
    rw [(hkeeps old hold).literalsIn_eq h.keptIn]
    rcases hkeeps old hold with ⟨c, clause', hsome, hc⟩ | ⟨hnone, htrue, -⟩
    · rw [Learned.literalsIn_of_get? hsome hc]
      exact hstored c clause' hc
    · rw [Learned.literalsIn_of_none hnone]
      intro hsub
      have hfalse := h.asserting.falsified _ (hsub (List.mem_singleton_self _))
      rw [Trail.isFalse_eq_false_of_isTrue htrue] at hfalse
      cases hfalse

end Learns

/-- An analysis in a disciplined solver that ends by learning learns something new and keeps it. -/
theorem Disciplined.isNew_of_analyseConflict {c : ClauseId} (h : s.Disciplined)
    (hready : s.status = .ready) (hfalse : s.Falsified c) (hkeeps : ∀ l ∈ history, s.Keeps l)
    (hok : (s.analyseConflict c).result = .ok (next, .learned learned)) :
    learned.IsNew s.clauses next.clauses history ∧ next.Keeps learned := by
  obtain ⟨-, clause, mid, hlearns, rfl⟩ := (h.declares c).founded.learns_of_analyse
    hfalse.declared (analyse_of_analyseConflict hready hok)
  exact ⟨hlearns.isNew h.lower hkeeps, hlearns.keeps (h.declares c).toCoherent⟩

/-- Above the root the analysis of a false clause learns what is left of a clause and reports it. -/
theorem Disciplined.reports_of_analyseConflict {c : ClauseId} (h : s.Disciplined)
    (hready : s.status = .ready) (hpos : 0 < s.currentLevel) (hfalse : s.Falsified c) :
    ∃ uip clause kept learned next, (s.analyseConflict c).result = .ok (next, .learned learned) ∧
      s.Condenses c uip clause kept ∧ s.Stores kept learned.clause next ∧
      Reports s.trail uip clause kept learned := by
  obtain ⟨⟨next, outcome⟩, hok, -⟩ := h.analyseConflict_yields hready hfalse
  obtain ⟨uip, clause, kept, learned, next', hanalyse, hcondenses, hstores, hreports⟩ :=
    (h.declares c).reports_of_analyse hpos rfl hfalse
      (hfalse.meetsCurrent h.toCoherent h.lower hpos)
  obtain ⟨rfl, rfl⟩ := Prod.mk.inj
    (Except.ok.inj ((analyse_of_analyseConflict hready hok).symm.trans hanalyse))
  exact ⟨uip, clause, kept, learned, next, hok, hcondenses, hstores, hreports⟩

/-! ## Searches and runs -/

/-- As long as nothing was learned there is nothing to remember. -/
theorem remembers_nil : s.Remembers [] := ⟨fun _ hl => absurd hl List.not_mem_nil, .nil⟩

/-- An analysis adds what it learned to what is remembered. -/
theorem Remembers.analyseConflict {c : ClauseId} {outcome : Outcome} (h : s.Remembers history)
    (hs : s.Disciplined) (hready : s.status = .ready) (hfalse : s.Falsified c)
    (hok : (s.analyseConflict c).result = .ok (next, outcome)) :
    next.Remembers (history ++ outcome.learnings) := by
  have hold := h.mono (hs.preserves_of_analyseConflict hready hfalse hok)
  cases outcome with
  | unsatisfiable => exact (List.append_nil history).symm ▸ hold
  | learned learned =>
    obtain ⟨hnew, hkeeps⟩ := hs.isNew_of_analyseConflict hready hfalse h.keeps hok
    refine ⟨fun l hl => ?_, List.pairwise_append.2 ⟨hold.distinct, List.pairwise_singleton _ _, ?_⟩⟩
    · rcases List.mem_append.1 hl with hl | hl
      · exact hold.keeps l hl
      · exact List.mem_singleton.1 hl ▸ hkeeps
    · intro old hmem l hl
      exact List.mem_singleton.1 hl ▸ hnew.learned old hmem

/-- Rounds of a search keep a solver disciplined, and what was learned is remembered. -/
theorem Searches.remembers (hs : s.Searches found next) (h : s.Disciplined)
    (hr : s.Remembers history) : next.Disciplined ∧ next.Remembers (history ++ found) := by
  induction hs generalizing history with
  | refl => exact ⟨h, (List.append_nil history).symm ▸ hr⟩
  | analysed hgo hpropagate hanalyse _ ih =>
    obtain ⟨hdisciplined, hready, hfalse⟩ := h.conflicts hgo hpropagate
    have hrecovers := (hdisciplined.analyseConflict_yields hready hfalse).of_result hanalyse
    have hmid := hr.mono (h.preserves_of_propagate hpropagate)
    rw [← List.append_assoc]
    exact ih hrecovers.disciplined (hmid.analyseConflict hdisciplined hready hfalse hanalyse)
  | decided _ hpropagate hreport hnext hdecide _ ih =>
    obtain ⟨hdecided, hpreserves⟩ := h.decides hpropagate hreport hnext hdecide
    exact ih hdecided (hr.mono hpreserves)

/-- Rounds of a search keep a solver disciplined. -/
theorem Searches.disciplined (hs : s.Searches found next) (h : s.Disciplined) : next.Disciplined :=
  (hs.remembers h remembers_nil).1

/-- Rounds with a last one. -/
theorem Remembers.concludes {mid : Solver} (hr : s.Remembers history) (h : s.Disciplined)
    (hsearches : s.Searches found mid) (hconcludes : mid.Concludes next) :
    next.Remembers (history ++ found) := by
  obtain ⟨hmid, hremembers⟩ := hsearches.remembers h hr
  exact hremembers.mono (hmid.preserves_of_concludes hconcludes)

/-- The outcomes of the analyses that a move makes, in order. -/
def outcomes (s : Solver) : Move → Except Fault (List Outcome)
  | .operate _ => .ok []
  | .settle => s.settle.result.map Prod.snd
  | .solve => s.solve.result.map fun p => p.2.outcomes

/-- The outcomes of settling are those of its analyses. -/
theorem outcomes_settle {found : List Outcome} (hok : s.settle.result = .ok (next, found)) :
    s.outcomes .settle = .ok found := by
  unfold outcomes
  rw [hok]
  rfl

/-- The outcomes of a search are those of its analyses. -/
theorem outcomes_solve {result : SearchResult} (hok : s.solve.result = .ok (next, result)) :
    s.outcomes .solve = .ok result.outcomes := by
  unfold outcomes
  rw [hok]
  rfl

/-- The states that disciplined moves lead to, each with whether it counts as settled and with what
was learned so far. -/
inductive LearningRun (start : Solver) : Bool → List Learned → Solver → Prop where
  | start : LearningRun start true [] start
  | step {settled : Bool} {history : List Learned} {s next : Solver} {m : Move}
      {outcomes : List Outcome} : LearningRun start settled history s →
      s.allows settled m = true → s.make m = .ok next → s.outcomes m = .ok outcomes →
      LearningRun start (m.settles settled) (history ++ outcomes.flatMap Outcome.learnings) next

/-- Make moves as long as they are disciplined, and collect what is learned. -/
def runLearning (settled : Bool) (history : List Learned) (s : Solver) :
    List Move → Option (Bool × List Learned × Solver)
  | [] => some (settled, history, s)
  | m :: ms =>
    match s.allows settled m, s.make m, s.outcomes m with
    | true, .ok next, .ok outcomes =>
      runLearning (m.settles settled) (history ++ outcomes.flatMap Outcome.learnings) next ms
    | _, _, _ => none

/-- Moves made one after the other extend a run and its history. -/
theorem LearningRun.of_runLearning {s' : Solver} {settled' : Bool} {history' : List Learned}
    {ms : List Move} (h : LearningRun start settled history s)
    (hrun : runLearning settled history s ms = some (settled', history', s')) :
    LearningRun start settled' history' s' := by
  induction ms generalizing settled history s with
  | nil =>
    obtain ⟨rfl, hrest⟩ := Prod.mk.inj (Option.some.inj hrun)
    obtain ⟨rfl, rfl⟩ := Prod.mk.inj hrest
    exact h
  | cons m ms ih =>
    unfold runLearning at hrun
    split at hrun
    next next outcomes hallows hmake houtcomes =>
      exact ih (h.step hallows hmake houtcomes) hrun
    next => cases hrun

/-- A run with its history is a disciplined run. -/
theorem LearningRun.disciplinedRun (h : LearningRun start settled history s) :
    DisciplinedRun start settled s := by
  induction h with
  | start => exact .start
  | step _ hallows hmake _ ih => exact ih.step hallows hmake

/-- What is learned along a disciplined run can be collected. -/
theorem DisciplinedRun.exists_learningRun (h : DisciplinedRun start settled s) :
    ∃ history, LearningRun start settled history s := by
  induction h with
  | start => exact ⟨[], .start⟩
  | @step settled s next m _ hallows hmake ih =>
    obtain ⟨history, hrun⟩ := ih
    cases m with
    | operate op => exact ⟨_, hrun.step hallows hmake rfl⟩
    | settle =>
      obtain ⟨outcomes, hok⟩ := map_fst_eq_ok_iff.1 hmake
      exact ⟨_, hrun.step hallows hmake (outcomes_settle hok)⟩
    | solve =>
      obtain ⟨result, hok⟩ := map_fst_eq_ok_iff.1 hmake
      exact ⟨_, hrun.step hallows hmake (outcomes_solve hok)⟩

/-- A disciplined move adds what it learns to what is remembered. -/
theorem Remembers.make {m : Move} {outcomes : List Outcome} (hr : s.Remembers history)
    (h : s.Disciplined) (hallows : s.allows settled m = true) (hmake : s.make m = .ok next)
    (houtcomes : s.outcomes m = .ok outcomes) :
    next.Remembers (history ++ outcomes.flatMap Outcome.learnings) := by
  cases m with
  | operate op =>
    obtain rfl := Except.ok.inj houtcomes
    rw [List.flatMap_nil, List.append_nil]
    exact hr.mono (h.preserves_of_perform hallows hmake)
  | settle =>
    obtain ⟨found, hok⟩ := map_fst_eq_ok_iff.1 hmake
    obtain rfl := Except.ok.inj ((outcomes_settle hok).symm.trans houtcomes)
    obtain ⟨mid, hsearches, hconcludes⟩ := searches_of_settleFor hok
    exact hr.concludes h hsearches hconcludes
  | solve =>
    obtain ⟨result, hok⟩ := map_fst_eq_ok_iff.1 hmake
    obtain rfl := Except.ok.inj ((outcomes_solve hok).symm.trans houtcomes)
    obtain ⟨rounds, next', result', -, hends, hok', -⟩ := h.exists_solve
    obtain ⟨rfl, rfl⟩ := Prod.mk.inj (Except.ok.inj (hok.symm.trans hok'))
    obtain ⟨mid, hsearches, hconcludes⟩ := hends.searches
    exact hr.concludes h hsearches hconcludes

/-- Along a run everything that was learned is remembered. -/
theorem LearningRun.remembers (h : LearningRun start settled history s)
    (hstart : start.Disciplined) (hquiet : start.Quiet) : s.Remembers history := by
  induction h with
  | start => exact remembers_nil
  | step hrun hallows hmake houtcomes ih =>
    have hdisciplined := (hrun.disciplinedRun.disciplined hstart hquiet).1
    exact ih.make hdisciplined hallows hmake houtcomes

/-- Along a disciplined run from a new solver no clause that is learned contains an earlier one. -/
theorem LearningRun.distinct {o : Options} {audit : AuditLevel} {proof : ProofLog}
    (hnew : Solver.new o audit proof = .ok start) (hrun : LearningRun start settled history s) :
    history.Pairwise fun old new => ¬ old.literalsIn s.clauses ⊆ new.literalsIn s.clauses := by
  obtain rfl := eq_empty_of_new hnew
  exact (hrun.remembers (.empty o audit proof) (Disciplined.quiet_empty o audit proof)).distinct

/-- Whenever an analysis learns a clause, after a disciplined run from a new solver and some rounds
of a search, the clause contains the literals of no clause that was stored before and of no clause
that was learned before. -/
theorem LearningRun.learns_anew {o : Options} {audit : AuditLevel} {proof : ProofLog}
    {mid : Solver} {c : ClauseId} (hnew : Solver.new o audit proof = .ok start)
    (hrun : LearningRun start settled history s) (hsearches : s.Searches found mid)
    (hgo : mid.isUnsatisfiable = false)
    (hpropagate : mid.propagate.result = .ok (propagated, some c))
    (hanalyse : (propagated.analyseConflict c).result = .ok (next, .learned learned)) :
    learned.IsNew propagated.clauses next.clauses (history ++ found) := by
  obtain rfl := eq_empty_of_new hnew
  have hstart := Disciplined.empty o audit proof
  have hquiet := Disciplined.quiet_empty o audit proof
  obtain ⟨hmid, hremembers⟩ := hsearches.remembers
    (hrun.disciplinedRun.disciplined hstart hquiet).1 (hrun.remembers hstart hquiet)
  obtain ⟨hdisciplined, hready, hfalse⟩ := hmid.conflicts hgo hpropagate
  have hkept : propagated.Remembers (history ++ found) :=
    hremembers.mono (hmid.preserves_of_propagate hpropagate)
  exact (hdisciplined.isNew_of_analyseConflict hready hfalse hkept.keeps hanalyse).1

/-- Propagate and analyse the conflict that is met, if there is one. -/
def analyseNext (s : Solver) : Option (Solver × Outcome) :=
  match s.isUnsatisfiable, s.propagate.result with
  | false, .ok (propagated, some c) => (propagated.analyseConflict c).result.toOption
  | _, _ => none

/-- The next analysis is of the conflict that propagation finds. -/
theorem exists_of_analyseNext {outcome : Outcome} (h : s.analyseNext = some (next, outcome)) :
    ∃ propagated c, s.isUnsatisfiable = false ∧ s.propagate.result = .ok (propagated, some c) ∧
      (propagated.analyseConflict c).result = .ok (next, outcome) := by
  unfold analyseNext at h
  split at h
  next propagated c hgo hpropagate =>
    exact ⟨propagated, c, hgo, hpropagate, toOption_eq_some_iff.1 h⟩
  next => cases h

/-- A literal is learned at the root. After three decisions a clause is learned from a conflict on
the third level, and the literal that it asserts leads to a conflict on the second one. -/
def relearningMoves : List Move :=
  [.operate .newVariable, .operate .newVariable, .operate .newVariable, .operate .newVariable,
    .operate .newVariable, .operate .newVariable, .operate .newVariable,
    .operate (.addClause [⟨5, true⟩, ⟨6, true⟩]), .operate (.addClause [⟨5, true⟩, ⟨6, false⟩]),
    .operate (.addClause [⟨1, false⟩, ⟨2, false⟩, ⟨3, true⟩]),
    .operate (.addClause [⟨1, false⟩, ⟨2, false⟩, ⟨3, false⟩]),
    .operate (.addClause [⟨0, false⟩, ⟨2, true⟩, ⟨4, true⟩]),
    .operate (.addClause [⟨0, false⟩, ⟨2, true⟩, ⟨4, false⟩]), .settle,
    .operate (.decide ⟨5, false⟩), .settle, .operate (.decide ⟨0, true⟩), .settle,
    .operate (.decide ⟨1, true⟩), .settle, .operate (.decide ⟨2, true⟩)]

/-- After the moves two clauses are learned in a row, and the second one is new. -/
theorem relearningMoves_learns_anew : ∃ settled history s first mid propagated c next second,
    runLearning true [] (Solver.empty {} .full ⟨some {}⟩) relearningMoves =
        some (settled, history, s) ∧
      s.Searches [first] mid ∧ mid.isUnsatisfiable = false ∧
      mid.propagate.result = .ok (propagated, some c) ∧
      (propagated.analyseConflict c).result = .ok (next, .learned second) ∧
      history.map Learned.clause = [none] ∧ first.clause = some 6 ∧ second.clause = some 7 ∧
      second.IsNew propagated.clauses next.clauses (history ++ [first]) := by
  have hnew : Solver.new {} .full ⟨some {}⟩ = .ok (Solver.empty {} .full ⟨some {}⟩) := rfl
  have hend : ((runLearning true [] (Solver.empty {} .full ⟨some {}⟩) relearningMoves).bind
      fun p => p.2.2.analyseNext.bind fun q => q.1.analyseNext.map fun r =>
        (p.2.1.map Learned.clause, q.2, r.2)) =
      some ([none], .learned ⟨⟨2, false⟩, 2, 2, 2, some 6⟩,
        .learned ⟨⟨2, true⟩, 1, 2, 2, some 7⟩) := by decide +kernel
  obtain ⟨⟨settled, history, s⟩, hrun, hend⟩ := Option.bind_eq_some_iff.1 hend
  obtain ⟨⟨mid, outcome⟩, hfirst, hend⟩ := Option.bind_eq_some_iff.1 hend
  obtain ⟨⟨next, outcome'⟩, hsecond, hend⟩ := Option.map_eq_some_iff.1 hend
  simp only [Prod.mk.injEq] at hend
  obtain ⟨hhistory, rfl, rfl⟩ := hend
  obtain ⟨_, _, hgo, hpropagate, hanalyse⟩ := exists_of_analyseNext hfirst
  have hsearches : s.Searches [⟨⟨2, false⟩, 2, 2, 2, some 6⟩] mid :=
    .analysed hgo hpropagate hanalyse (.refl mid)
  obtain ⟨propagated, c, hgo', hpropagate', hanalyse'⟩ := exists_of_analyseNext hsecond
  exact ⟨settled, history, s, _, mid, propagated, c, next, _, hrun, hsearches, hgo', hpropagate',
    hanalyse', hhistory, rfl, rfl, LearningRun.learns_anew hnew
      (LearningRun.start.of_runLearning hrun) hsearches hgo' hpropagate' hanalyse'⟩

end Solver

end ClauseLearning
