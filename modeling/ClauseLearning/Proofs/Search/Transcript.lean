import ClauseLearning.Proofs.Solver.Run
import ClauseLearning.Proofs.Solver.TwinAnalysis
import ClauseLearning.Solver.Search

/-!
# The search does not read the books

The solver keeps books: scores, the use of clauses, averages, and the proof. The options and the
writer of the proof decide what goes into them. None of this comes back: what a caller sees of the
solver is the same under all of them, as long as variables are not bumped in the order of the
scores.

A caller makes requests, gets answers, and may look at the trail, the contents of the clauses, the
queue and the status in between. The transcript of a list of requests records all of this, up to the
first fault. Each request keeps twins alike and gives them the same answer, so their transcripts are
equal; and two new solvers whose options guide the search alike are twins.
-/

set_option autoImplicit false

namespace ClauseLearning

/-- What a caller can request: the operations of the solver, the search built from them, and
questions. -/
inductive Request where
  | newVariable
  | newLiterals (n : Nat)
  | addClause (ls : List Literal)
  | decide (l : Literal)
  | tryDecide (l : Literal)
  | nextDecision
  | assign (l : Literal) (reason : Option ClauseId)
  | declareConflict (c : ClauseId)
  | analyse
  | backtrack (level : Nat)
  | removeFromQueue (v : Variable)
  | iterate
  | report (tag : Char)
  | propagate
  | settle
  | solve
  | isModel
  | valueOf (l : Literal)
  | cellOf (v : Variable)
  | entryAt (i : Nat)
  | literalsOf (c : ClauseId)
  | figures
  deriving DecidableEq, Repr

/-- The answer to a request. The figures are the numbers of variables, of variables that are not
fixed, of levels, of assignments, of learned clauses and of conflicts. -/
inductive Answer where
  | done
  | created (v : Variable)
  | literals (ls : List Literal)
  | added (c : Except ClauseError (Option ClauseId))
  | truth (b : Bool)
  | decision (l : Option Literal)
  | outcome (o : Outcome)
  | falsified (c : Option ClauseId)
  | outcomes (os : List Outcome)
  | searched (r : SearchResult)
  | value (b : Option Bool)
  | cell (c : Cell)
  | entry (l : Literal)
  | figures (created remaining level length learned conflicts : Nat)
  deriving DecidableEq

/-- What a caller may look at between two requests. -/
structure Visible where
  trail : Trail
  clauses : List Contents
  queue : DecisionQueue
  status : Status
  iterating : Bool
  deriving DecidableEq

/-- The stored clauses are read by their names and literals. -/
theorem ClauseStore.Alike.map_entries {s s' : ClauseStore} (h : s.Alike s') :
    s'.entries.map (fun p => (p.1, p.2.literals)) =
      s.entries.map fun p => (p.1, p.2.literals) := by
  have hnamed : ∀ s : ClauseStore, s.entries.map (fun p => (p.1, p.2.literals)) =
      s.contents.zipIdx.map fun p => (p.2, p.1.literals) := by
    intro s
    unfold entries contents
    rw [List.zipIdx_map, List.map_map, List.map_map]
    rfl
  rw [hnamed, hnamed, h.contents_eq]

namespace Solver

/-- What a caller sees of a solver. -/
def visible (s : Solver) : Visible :=
  { trail := s.trail
    clauses := s.clauses.contents
    queue := s.heuristic.queue
    status := s.status
    iterating := s.iterating }

/-- Answer what an operation answers. -/
def answering {α : Type} (f : α → Answer) (m : Traced (Solver × α)) : Traced (Solver × Answer) := do
  let (next, a) ← m
  return (next, f a)

/-- Answer that an operation is done. -/
def quietly (m : Traced Solver) : Traced (Solver × Answer) := do
  let next ← m
  return (next, .done)

/-- Answer a question. -/
def telling {α : Type} (s : Solver) (f : α → Answer) (r : Except Fault α) :
    Traced (Solver × Answer) := do
  let a ← r
  return (s, f a)

/-- Answer a request. -/
def serve (s : Solver) : Request → Traced (Solver × Answer)
  | .newVariable => do
    let next ← s.createVariable
    return (next, .created s.nextVariable)
  | .newLiterals n => answering .literals (s.newLiterals n)
  | .addClause ls => answering .added (s.addClause ls)
  | .decide l => quietly (s.decide l)
  | .tryDecide l => answering .truth (s.tryDecide l)
  | .nextDecision => answering .decision s.nextDecision
  | .assign l reason => quietly (s.assign l reason)
  | .declareConflict c => quietly (s.declareConflict c)
  | .analyse => answering .outcome s.analyse
  | .backtrack level => quietly (s.backtrack level)
  | .removeFromQueue v => quietly (s.removeFromQueue v)
  | .iterate => quietly s.iterate
  | .report tag => do
    s.report tag
    return (s, .done)
  | .propagate => answering .falsified s.propagate
  | .settle => answering .outcomes s.settle
  | .solve => answering .searched s.solve
  | .isModel => return (s, .truth s.isModel)
  | .valueOf l => s.telling .value (s.valueOf l)
  | .cellOf v => s.telling .cell (s.cellOf v)
  | .entryAt i => s.telling .entry (s.trail.entryAt i)
  | .literalsOf c => s.telling .literals (s.literalsOf c)
  | .figures => do
    s.requireRemaining
    return (s, .figures s.numVariables s.numRemaining s.currentLevel s.trail.length
      s.clauses.numLearned s.counters.conflicts)

/-- The answers to requests, each with what is visible then, up to the first fault. -/
def transcript (s : Solver) : List Request → List (Except Fault (Answer × Visible))
  | [] => []
  | r :: rs =>
    match (s.serve r).result with
    | .error e => [.error e]
    | .ok (next, answer) => .ok (answer, next.visible) :: next.transcript rs

namespace Twins

variable {s s' : Solver}

/-! ## The search of twins -/

/-- A pass reads the names and the literals of the clauses. -/
theorem propagatePass (h : s.Twins s') {es es' : List (ClauseId × Clause)}
    (hes : es'.map (fun p => (p.1, p.2.literals)) = es.map fun p => (p.1, p.2.literals)) :
    (s.propagatePass es).Matches (s'.propagatePass es') (SameAnswer Twins) := by
  induction es generalizing s s' es' with
  | nil =>
    obtain rfl := List.map_eq_nil_iff.1 hes
    exact .pure ⟨h, rfl⟩
  | cons p es ih =>
    obtain ⟨c, clause⟩ := p
    rw [List.map_cons] at hes
    obtain ⟨⟨_, clause'⟩, es', rfl, hp, hrest⟩ := List.map_eq_cons_iff.1 hes
    obtain ⟨rfl, hliterals⟩ := Prod.mk.inj hp
    unfold Solver.propagatePass
    rw [h.trail_eq, hliterals]
    refine .bind (.same _) ?_
    rintro standing _ rfl
    cases standing with
    | falsified => exact .pure ⟨h, rfl⟩
    | unit l => exact .bind (h.assign l (some _)) fun _ _ hassigned => ih hassigned hrest
    | satisfied => exact ih h hrest
    | undetermined => exact ih h hrest

/-- Twins propagate alike, for any number of passes. -/
theorem propagateFor (rounds : Nat) (h : s.Twins s') :
    (Solver.propagateFor rounds s).Matches (Solver.propagateFor rounds s') (SameAnswer Twins) := by
  induction rounds generalizing s s' with
  | zero => exact .fault _
  | succ rounds ih =>
    unfold Solver.propagateFor
    refine .bind (h.propagatePass h.alike.map_entries) ?_
    rintro ⟨next, conflict⟩ ⟨next', _⟩ ⟨hnext, rfl⟩
    dsimp only at hnext ⊢
    rw [h.trail_eq, hnext.trail_eq]
    exact .ite (fun _ => .pure ⟨hnext, rfl⟩) fun _ => ih hnext

/-- Twins propagate alike and meet the same false clause. -/
theorem propagate (h : s.Twins s') : s.propagate.Matches s'.propagate (SameAnswer Twins) := by
  unfold Solver.propagate
  rw [h.numVariables_eq]
  exact h.propagateFor _

/-- Twins analyse a conflict alike. -/
theorem analyseConflict (h : s.Twins s') (c : ClauseId) :
    (s.analyseConflict c).Matches (s'.analyseConflict c) (SameAnswer Twins) :=
  .bind (h.declareConflict c) fun _ _ hdeclared => hdeclared.analyse

/-- Twins settle alike, for any number of rounds. -/
theorem settleFor (rounds : Nat) (h : s.Twins s') :
    (Solver.settleFor rounds s).Matches (Solver.settleFor rounds s') (SameAnswer Twins) := by
  induction rounds generalizing s s' with
  | zero => exact .fault _
  | succ rounds ih =>
    unfold Solver.settleFor
    rw [h.isUnsatisfiable_eq]
    refine .ite (fun _ => .pure ⟨h, rfl⟩) fun _ => .bind h.propagate ?_
    rintro ⟨propagated, conflict⟩ ⟨propagated', _⟩ ⟨hpropagated, rfl⟩
    cases conflict with
    | none => exact .pure ⟨hpropagated, rfl⟩
    | some c =>
      refine .bind (hpropagated.analyseConflict c) ?_
      rintro ⟨analysed, outcome⟩ ⟨analysed', _⟩ ⟨hanalysed, rfl⟩
      refine .bind (ih hanalysed) ?_
      rintro ⟨settled, outcomes⟩ ⟨settled', _⟩ ⟨hsettled, rfl⟩
      exact .pure ⟨hsettled, rfl⟩

/-- Twins settle alike. -/
theorem settle (h : s.Twins s') : s.settle.Matches s'.settle (SameAnswer Twins) := by
  unfold Solver.settle
  rw [h.currentLevel_eq]
  exact h.settleFor _

/-- Twins have as many variables left. -/
theorem requireRemaining_eq (h : s.Twins s') : s'.requireRemaining = s.requireRemaining := by
  unfold requireRemaining
  rw [h.numVariables_eq, h.trail_eq]

/-- Reports tell averages, but answer nothing. -/
theorem report (h : s.Twins s') (tag : Char) :
    (s.report tag).Matches (s'.report tag) fun _ _ => True := by
  unfold Solver.report
  rw [h.requireRemaining_eq]
  exact .bind (.same _) fun _ _ _ => .value trivial

/-- Twins report alike on literals fixed at the root. -/
theorem iterate (h : s.Twins s') : s.iterate.Matches s'.iterate Twins := by
  have hnext : Twins { s with iterating := false } { s' with iterating := false } :=
    { h with iterating_eq := rfl }
  exact .bind (hnext.report 'i') fun _ _ _ => .pure hnext

/-- Twins owe the same reports. -/
theorem reportFixed (h : s.Twins s') : s.reportFixed.Matches s'.reportFixed Twins := by
  unfold Solver.reportFixed
  rw [h.iterating_eq]
  exact .ite (fun _ => h.iterate) fun _ => .pure h

/-- Twins search alike, for any number of rounds. -/
theorem solveFor (rounds : Nat) (h : s.Twins s') :
    (Solver.solveFor rounds s).Matches (Solver.solveFor rounds s') (SameAnswer Twins) := by
  induction rounds generalizing s s' with
  | zero => exact .fault _
  | succ rounds ih =>
    unfold Solver.solveFor
    rw [h.isUnsatisfiable_eq]
    refine .ite (fun _ => .pure ⟨h, rfl⟩) fun _ => .bind h.propagate ?_
    rintro ⟨propagated, conflict⟩ ⟨propagated', _⟩ ⟨hpropagated, rfl⟩
    cases conflict with
    | some c =>
      refine .bind (hpropagated.analyseConflict c) ?_
      rintro ⟨analysed, outcome⟩ ⟨analysed', _⟩ ⟨hanalysed, rfl⟩
      refine .bind (ih hanalysed) ?_
      rintro ⟨solved, result⟩ ⟨solved', _⟩ ⟨hsolved, rfl⟩
      exact .pure ⟨hsolved, rfl⟩
    | none =>
      refine .bind hpropagated.reportFixed fun _ _ hreported => ?_
      refine .bind (.lift hreported.nextDecision) ?_
      rintro ⟨searched, decision⟩ ⟨searched', _⟩ ⟨hsearched, rfl⟩
      cases decision with
      | none => exact .pure ⟨hsearched, rfl⟩
      | some l => exact .bind (hsearched.decide l) fun _ _ hdecided => ih hdecided

/-- Twins search alike and give the same answer. -/
theorem solve (h : s.Twins s') : s.solve.Matches s'.solve (SameAnswer Twins) := by
  unfold Solver.solve Solver.roundBound
  rw [h.numVariables_eq]
  exact h.solveFor _

/-! ## Answers to twins -/

/-- Computations with the same answer give it in the same form. -/
theorem answering {α : Type} (f : α → Answer) {m m' : Traced (Solver × α)}
    (h : m.Matches m' (SameAnswer Twins)) :
    (Solver.answering f m).Matches (Solver.answering f m') (SameAnswer Twins) := by
  refine .bind h ?_
  rintro ⟨next, a⟩ ⟨next', _⟩ ⟨hnext, rfl⟩
  exact .pure ⟨hnext, rfl⟩

/-- Computations without an answer are acknowledged alike. -/
theorem quietly {m m' : Traced Solver} (h : m.Matches m' Twins) :
    (Solver.quietly m).Matches (Solver.quietly m') (SameAnswer Twins) :=
  .bind h fun _ _ hnext => .pure ⟨hnext, rfl⟩

/-- A question with the same answer is answered alike, and leaves twins as they are. -/
theorem telling {α : Type} (h : s.Twins s') (f : α → Answer) {r r' : Except Fault α}
    (hr : Agree Eq r r') :
    (s.telling f r).Matches (s'.telling f r') (SameAnswer Twins) :=
  .bind (.lift hr) fun _ _ heq => .pure ⟨h, congrArg f heq⟩

/-- Twins store the same literals under a name. -/
theorem literalsOf (h : s.Twins s') (c : ClauseId) :
    Agree Eq (s.literalsOf c) (s'.literalsOf c) :=
  (h.alike.get c).bind fun _ _ hc => .value hc.2.2.symm

/-- Twins have a model both or none. -/
theorem isModel_eq (h : s.Twins s') : s'.isModel = s.isModel := by
  have hany : ∀ s : Solver, (s.clauses.toList.all fun c => c.literals.any s.trail.isTrue) =
      s.clauses.contents.all fun c => c.literals.any s.trail.isTrue := by
    intro s
    unfold ClauseStore.contents
    rw [List.all_map]
    rfl
  unfold Solver.isModel
  rw [hany, hany, h.alike.contents_eq, h.trail_eq, h.numVariables_eq]

/-- Every request gets the same answer from twins, and leaves them twins, or fails for both. -/
theorem serve (h : s.Twins s') (r : Request) :
    (s.serve r).Matches (s'.serve r) (SameAnswer Twins) := by
  cases r with
  | newVariable =>
    refine .bind (.lift h.createVariable) fun _ _ hnext => .pure ⟨hnext, ?_⟩
    exact congrArg Answer.created h.numVariables_eq.symm
  | newLiterals n => exact answering _ (.lift (h.newLiterals n))
  | addClause ls => exact answering _ (h.addClause ls)
  | decide l => exact quietly (h.decide l)
  | tryDecide l => exact answering _ (h.tryDecide l)
  | nextDecision => exact answering _ (.lift h.nextDecision)
  | assign l reason => exact quietly (h.assign l reason)
  | declareConflict c => exact quietly (h.declareConflict c)
  | analyse => exact answering _ h.analyse
  | backtrack level => exact quietly (h.backtrack level)
  | removeFromQueue v => exact quietly (.lift (h.removeFromQueue v))
  | iterate => exact quietly h.iterate
  | report tag => exact .bind (h.report tag) fun _ _ _ => .pure ⟨h, rfl⟩
  | propagate => exact answering _ h.propagate
  | settle => exact answering _ h.settle
  | solve => exact answering _ h.solve
  | isModel => exact .pure ⟨h, congrArg Answer.truth h.isModel_eq.symm⟩
  | valueOf l => exact h.telling _ (h.valueOf_eq l ▸ Agree.same _)
  | cellOf v =>
    refine h.telling _ ?_
    unfold Solver.cellOf
    rw [h.trail_eq]
    exact Agree.same _
  | entryAt i => exact h.telling _ (h.trail_eq ▸ Agree.same _)
  | literalsOf c => exact h.telling _ (h.literalsOf c)
  | figures =>
    unfold Solver.serve
    rw [h.requireRemaining_eq]
    refine .bind (.same _) fun _ _ _ => .pure ⟨h, ?_⟩
    show Answer.figures .. = Answer.figures ..
    unfold numRemaining
    rw [h.numVariables_eq, h.currentLevel_eq, h.trail_eq, h.alike.numLearned_eq, h.conflicts_eq]

/-- What is visible of twins is the same. -/
theorem visible_eq (h : s.Twins s') : s'.visible = s.visible := by
  unfold visible
  rw [h.trail_eq, h.alike.contents_eq, h.heuristic.queue_eq, h.status_eq, h.iterating_eq]

/-- The transcripts of twins are equal. -/
theorem transcript_eq (h : s.Twins s') (rs : List Request) :
    s'.transcript rs = s.transcript rs := by
  induction rs generalizing s s' with
  | nil => rfl
  | cons r rs ih =>
    have hserve : Agree (SameAnswer Twins) (s.serve r).result (s'.serve r).result := h.serve r
    unfold transcript
    generalize (s.serve r).result = x at hserve ⊢
    generalize (s'.serve r).result = x' at hserve ⊢
    cases hserve with
    | fault e => rfl
    | @value p p' hnext =>
      obtain ⟨next, answer⟩ := p
      obtain ⟨next', _⟩ := p'
      obtain ⟨hnext, rfl⟩ := hnext
      show _ :: _ = _ :: _
      rw [ih hnext, hnext.visible_eq]

end Twins

/-- The transcripts of two new solvers are equal, whatever is requested, if their options shrink
clauses and order bumps alike and the order does not read the scores. Neither the decay, the sizes
and the glues to be kept and the weights of the averages nor the proofs make a difference. -/
theorem transcript_eq_of_sameGuidance {o o' : Options} {audit : AuditLevel} {p p' : ProofLog}
    {s s' : Solver} (hguidance : o.SameGuidance o') (hnew : Solver.new o audit p = .ok s)
    (hnew' : Solver.new o' audit p' = .ok s') (rs : List Request) :
    s'.transcript rs = s.transcript rs := by
  obtain rfl := eq_empty_of_new hnew
  obtain rfl := eq_empty_of_new hnew'
  exact (Twins.empty hguidance audit p p').transcript_eq rs

/-- Scores are divided in the second analysis already, learned clauses of two literals carry stamps,
and the averages follow the latest value. -/
def hastyOptions : Options :=
  { decay := ⟨0x3379b604aaaca626⟩
    keepSize := 1
    keepGlue := 0
    fastGlueWeight := .one
    slowGlueWeight := .one
    jumpWeight := .one }

/-- Two conflicts are analysed, the second one with the clause learned from the first. Then a model
is found, at which no clause can be added. -/
def consultation : List Request :=
  [.newLiterals 3, .addClause [⟨0, false⟩, ⟨1, false⟩, ⟨2, true⟩],
    .addClause [⟨0, false⟩, ⟨1, false⟩, ⟨2, false⟩], .addClause [⟨0, true⟩, ⟨1, false⟩],
    .decide ⟨0, true⟩, .decide ⟨1, true⟩, .assign ⟨2, true⟩ (some 0), .declareConflict 1, .analyse,
    .backtrack 0, .decide ⟨1, true⟩, .assign ⟨0, false⟩ (some 3), .declareConflict 2, .analyse,
    .figures, .solve, .isModel, .addClause [⟨0, true⟩]]

/-- The default options without a proof, against hasty options and a proof that takes three
characters. -/
theorem consultation_transcript_eq : ∃ s s', Solver.new {} .full ⟨none⟩ = .ok s ∧
    Solver.new hastyOptions .full ⟨some { room := some 3, flushFails := true }⟩ = .ok s' ∧
    s'.transcript consultation = s.transcript consultation ∧
    (s.transcript consultation).length = 18 ∧
    (s.transcript consultation).getLast? = some (.error .clauseAboveRoot) := by
  have hguidance : ({} : Options).SameGuidance hastyOptions := ⟨rfl, rfl, rfl, nofun⟩
  have hnew : Solver.new {} .full ⟨none⟩ = .ok (Solver.empty {} .full ⟨none⟩) := rfl
  have hnew' : Solver.new hastyOptions .full ⟨some { room := some 3, flushFails := true }⟩ =
      .ok (Solver.empty hastyOptions .full ⟨some { room := some 3, flushFails := true }⟩) := rfl
  refine ⟨_, _, hnew, hnew', transcript_eq_of_sameGuidance hguidance hnew hnew' _, ?_, ?_⟩
  · decide +kernel
  · decide +kernel

end Solver

end ClauseLearning
