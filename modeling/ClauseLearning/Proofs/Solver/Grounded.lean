import ClauseLearning.Proofs.Conflict.Stamping
import ClauseLearning.Proofs.Decision.Service
import ClauseLearning.Proofs.Solver.Operations

/-!
# The state between two operations

Between two operations the solver is *coherent*: the trail is well formed, the heuristic serves it,
and the workspace is at rest. It is *founded* if in addition every recorded reason implies its
literal and the stored clauses have two literals or more, of different variables, and *grounded* if
furthermore only decisions lack a reason above the root.

Operations keep the solver coherent. An assignment keeps it founded if its reason, where it has one,
is proper, and grounded if without a reason it is made at the root.
-/

set_option autoImplicit false

namespace ClauseLearning

/-- A clause as it is stored: several literals of different existing variables. -/
structure Clause.Proper (n : Nat) (c : Clause) : Prop where
  two : 2 ≤ c.literals.length
  distinct : (c.literals.map Literal.var).Nodup
  known : ∀ l ∈ c.literals, l.var < n

/-- A proper clause stays proper when there are more variables. -/
theorem Clause.Proper.mono {n m : Nat} {c : Clause} (h : c.Proper n) (hle : n ≤ m) : c.Proper m :=
  ⟨h.two, h.distinct, fun l hl => Nat.lt_of_lt_of_le (h.known l hl) hle⟩

/-- A new solver stores no clause. -/
theorem Solver.get?_clauses_empty (o : Options) (audit : AuditLevel) (proof : ProofLog)
    (c : ClauseId) : (Solver.empty o audit proof).clauses.get? c = none := Arena.get?_empty c

namespace Workspace

/-- A new variable can be marked afterwards. -/
theorem size_grow (w : Workspace) (v : Variable) :
    (w.grow v).marks.size = max w.marks.size (v + 1) := Arena.size_accommodate _ _ _

/-- Making room for a variable marks nothing. -/
theorem Rests.grow {w : Workspace} (h : w.Rests) (v : Variable) : (w.grow v).Rests := by
  refine ⟨?_, h.minimised_eq⟩
  have hclear := h.clear
  rw [isClear_iff] at hclear ⊢
  obtain ⟨hseen, hlevels, hlearned, hpending, hrecords, hmarks⟩ := hclear
  refine ⟨hseen, hlevels, hlearned, hpending, hrecords, fun x => ?_⟩
  have hx := hmarks x
  unfold marksOf at hx ⊢
  unfold Workspace.grow
  rw [Arena.get?_accommodate]
  split
  · exact hx
  · split <;> rfl

end Workspace

namespace Solver

/-- The trail is well formed and served by the heuristic, and the workspace is at rest, with marks
for every variable. -/
structure Coherent (s : Solver) : Prop where
  trail : s.trail.WellFormed
  serves : s.heuristic.Serves s.trail
  rests : s.workspace.Rests
  marks : s.workspace.marks.size = s.numVariables

/-- Recorded reasons imply their literals, and the stored clauses are proper. -/
structure Founded (s : Solver) : Prop extends Coherent s where
  justified : s.trail.Justified s.clauses
  proper : ∀ c clause, s.clauses.get? c = some clause → clause.Proper s.numVariables
  stampable : s.clauses.Stampable s.options

/-- Assignments are explained by stored clauses, and these are proper. -/
structure Grounded (s : Solver) : Prop extends Coherent s where
  explained : s.trail.Explained s.clauses
  proper : ∀ c clause, s.clauses.get? c = some clause → clause.Proper s.numVariables
  stampable : s.clauses.Stampable s.options

/-- A new solver is grounded. -/
theorem grounded_empty (o : Options) (audit : AuditLevel) (proof : ProofLog) :
    (Solver.empty o audit proof).Grounded where
  trail := Trail.wellFormed_empty
  serves := Heuristic.Serves.start o.decay
  rests := ⟨rfl, rfl⟩
  marks := rfl
  explained := Trail.Explained.empty _
  proper := by
    intro c clause hc
    rw [get?_clauses_empty] at hc
    cases hc
  stampable := by
    intro c clause hc
    rw [get?_clauses_empty] at hc
    cases hc

namespace Coherent

variable {s next : Solver}

/-- All assignments are of the root level if no level was opened. -/
theorem level_eq_zero (h : s.Coherent) (hroot : s.currentLevel = 0) (v : Variable) :
    s.trail.level v = 0 :=
  Nat.eq_zero_of_le_zero (hroot ▸ h.trail.level_le v)

/-- Creating a variable counts it. -/
theorem numVariables_newVariable (s : Solver) :
    s.newVariable.numVariables = s.numVariables + 1 := Trail.numVariables_grow _

/-- A new variable keeps the solver coherent. -/
theorem newVariable (h : s.Coherent) : s.newVariable.Coherent where
  trail := h.trail.grow
  serves := h.serves.grow.1
  rests := h.rests.grow _
  marks := by
    show (s.workspace.grow s.numVariables).marks.size = _
    rw [Workspace.size_grow, numVariables_newVariable, h.marks]
    exact Nat.max_eq_right (Nat.le_succ _)

/-- What an operation does not touch stays coherent. -/
theorem congr (h : s.Coherent) (htrail : next.trail = s.trail)
    (hserves : next.heuristic.Serves next.trail) (hworkspace : next.workspace = s.workspace) :
    next.Coherent := by
  refine ⟨htrail ▸ h.trail, hserves, hworkspace ▸ h.rests, ?_⟩
  unfold numVariables
  rw [hworkspace, htrail]
  exact h.marks

/-- More is assigned, so the heuristic still serves. -/
theorem pushes (h : s.Coherent) {l : Literal} {r : Option ClauseId} (hp : s.Pushes l r next) :
    next.Coherent := by
  obtain ⟨iterating, counters, rfl⟩ := hp.next_eq
  exact ⟨h.trail.push r hp.known hp.free, h.serves.push hp.known r, h.rests,
    h.marks.trans (Trail.numVariables_push s.trail l r).symm⟩

/-- A decision keeps the solver coherent. -/
theorem decide (h : s.Coherent) {l : Literal} (hknown : l.var < s.numVariables)
    (hfree : s.trail.isAssigned l.var = false) :
    (s.withTrail (s.trail.openLevel.push l none)).Coherent := by
  exact ⟨h.trail.push_openLevel hknown hfree, h.serves.openLevel.push hknown none, h.rests,
    h.marks.trans (Trail.numVariables_push s.trail.openLevel l none).symm⟩

/-- Undoing levels keeps the solver coherent. -/
theorem undo (h : s.Coherent) {level : Nat} (hok : s.undo level = .ok next) : next.Coherent := by
  obtain ⟨-, rfl⟩ := undo_eq_ok hok
  exact ⟨h.trail.cut level, (h.serves.release h.trail level).1, h.rests,
    h.marks.trans (Trail.numVariables_cut s.trail level).symm⟩

/-- In a coherent solver the audit of the cursor passes. -/
theorem auditCursor_yields (h : s.Coherent) : s.auditCursor.Yields fun _ => True :=
  .checkBy h.serves.cursorHolds_eq

/-- Adding a clause keeps the solver coherent. -/
theorem adds (h : s.Coherent) {ls : List Literal} (ha : s.Adds ls next) : next.Coherent := by
  cases ha with
  | refused _ => exact h
  | dropped _ => exact h
  | refuted _ => exact ⟨h.trail, h.serves, h.rests, h.marks⟩
  | unit _ hp => exact h.pushes hp
  | stored _ _ => exact ⟨h.trail, h.serves, h.rests, h.marks⟩

end Coherent

namespace Founded

variable {s next : Solver}

/-- A new variable keeps the solver founded. -/
theorem newVariable (h : s.Founded) : s.newVariable.Founded where
  toCoherent := h.toCoherent.newVariable
  justified := h.justified.grow
  proper := by
    intro c clause hc
    rw [Coherent.numVariables_newVariable]
    exact (h.proper c clause hc).mono (Nat.le_succ _)
  stampable := h.stampable

/-- What an operation does not touch stays founded. -/
theorem congr (h : s.Founded) (htrail : next.trail = s.trail) (hclauses : next.clauses = s.clauses)
    (hserves : next.heuristic.Serves next.trail) (hworkspace : next.workspace = s.workspace)
    (hoptions : next.options = s.options) : next.Founded := by
  refine ⟨h.toCoherent.congr htrail hserves hworkspace, ?_, ?_, ?_⟩
  · rw [htrail, hclauses]
    exact h.justified
  · unfold numVariables
    rw [htrail, hclauses]
    exact h.proper
  · rw [hclauses, hoptions]
    exact h.stampable

/-- Assigning a literal that its reason implies keeps the solver founded. -/
theorem pushes (h : s.Founded) {l : Literal} {r : Option ClauseId} (hp : s.Pushes l r next)
    (himplied : ∀ c, r = some c → s.trail.Implies s.clauses l c) : next.Founded := by
  have hcoherent := h.toCoherent.pushes hp
  obtain ⟨iterating, counters, rfl⟩ := hp.next_eq
  refine ⟨hcoherent, ?_, fun c clause hc => ?_, h.stampable⟩
  · exact h.justified.push h.trail hp.known hp.free himplied
  · unfold numVariables
    rw [Trail.numVariables_push]
    exact h.proper c clause hc

/-- A decision keeps the solver founded. -/
theorem decide (h : s.Founded) {l : Literal} (hknown : l.var < s.numVariables)
    (hfree : s.trail.isAssigned l.var = false) :
    (s.withTrail (s.trail.openLevel.push l none)).Founded := by
  refine ⟨h.toCoherent.decide hknown hfree, ?_, fun c clause hc => ?_, h.stampable⟩
  · exact h.justified.push_openLevel h.trail hknown hfree
  · show clause.Proper (s.trail.openLevel.push l none).numVariables
    rw [Trail.numVariables_push]
    exact h.proper c clause hc

/-- Undoing levels keeps the solver founded. -/
theorem undo (h : s.Founded) {level : Nat} (hok : s.undo level = .ok next) : next.Founded := by
  have hcoherent := h.toCoherent.undo hok
  obtain ⟨-, rfl⟩ := undo_eq_ok hok
  refine ⟨hcoherent, h.justified.cut h.trail level, fun c clause hc => ?_, h.stampable⟩
  show clause.Proper (s.trail.cut level).numVariables
  rw [Trail.numVariables_cut]
  exact h.proper c clause hc

/-- A clause that is added is proper if it is stored. -/
theorem adds (h : s.Founded) {ls : List Literal} (ha : s.Adds ls next) : next.Founded := by
  have hcoherent := h.toCoherent.adds ha
  cases ha with
  | refused _ => exact h
  | dropped _ => exact h
  | refuted _ => exact ⟨hcoherent, h.justified, h.proper, h.stampable⟩
  | unit _ hp => exact h.pushes hp fun c hc => nomatch hc
  | @stored rest hrest htwo =>
    refine ⟨hcoherent, h.justified.mono (ClauseStore.keptIn_insert _ _), fun c clause hc => ?_,
      h.stampable.insertFormula rest⟩
    rw [ClauseStore.get?_insert] at hc
    split at hc
    · obtain rfl := Option.some.inj hc
      exact ⟨htwo, hrest.distinct, fun l hl => (hrest.free l hl).1⟩
    · exact h.proper c clause hc

/-- A founded solver whose assignments are explained is grounded. -/
theorem grounded (h : s.Founded) (hexplained : s.trail.Explained s.clauses) : s.Grounded :=
  ⟨h.toCoherent, hexplained, h.proper, h.stampable⟩

end Founded

namespace Grounded

variable {s next : Solver}

/-- A grounded solver is founded. -/
theorem founded (h : s.Grounded) : s.Founded :=
  ⟨h.toCoherent, h.explained.justified, h.proper, h.stampable⟩

/-- A new variable keeps the solver grounded. -/
theorem newVariable (h : s.Grounded) : s.newVariable.Grounded :=
  h.founded.newVariable.grounded h.explained.grow

/-- What an operation does not touch stays grounded. -/
theorem congr (h : s.Grounded) (htrail : next.trail = s.trail) (hclauses : next.clauses = s.clauses)
    (hserves : next.heuristic.Serves next.trail) (hworkspace : next.workspace = s.workspace)
    (hoptions : next.options = s.options) : next.Grounded := by
  refine (h.founded.congr htrail hclauses hserves hworkspace hoptions).grounded ?_
  rw [htrail, hclauses]
  exact h.explained

/-- Assigning a literal that its reason implies, or any literal at the root, keeps the solver
grounded. -/
theorem pushes (h : s.Grounded) {l : Literal} {r : Option ClauseId} (hp : s.Pushes l r next)
    (himplied : ∀ c, r = some c → s.trail.Implies s.clauses l c)
    (hroot : r = none → s.currentLevel = 0) : next.Grounded := by
  refine (h.founded.pushes hp himplied).grounded ?_
  obtain ⟨iterating, counters, rfl⟩ := hp.next_eq
  exact h.explained.push h.trail hp.known hp.free himplied hroot

/-- A decision keeps the solver grounded. -/
theorem decide (h : s.Grounded) {l : Literal} (hknown : l.var < s.numVariables)
    (hfree : s.trail.isAssigned l.var = false) :
    (s.withTrail (s.trail.openLevel.push l none)).Grounded :=
  (h.founded.decide hknown hfree).grounded (h.explained.push_openLevel h.trail hknown hfree)

/-- Undoing levels keeps the solver grounded. -/
theorem undo (h : s.Grounded) {level : Nat} (hok : s.undo level = .ok next) : next.Grounded := by
  refine (h.founded.undo hok).grounded ?_
  obtain ⟨-, rfl⟩ := undo_eq_ok hok
  exact h.explained.cut h.trail level

/-- A clause that is added at the root is explained if it fixes a literal. -/
theorem adds (h : s.Grounded) (hroot : s.currentLevel = 0) {ls : List Literal}
    (ha : s.Adds ls next) : next.Grounded := by
  refine (h.founded.adds ha).grounded ?_
  cases ha with
  | refused _ => exact h.explained
  | dropped _ => exact h.explained
  | refuted _ => exact h.explained
  | unit _ hp => exact (h.pushes hp (fun c hc => nomatch hc) fun _ => hroot).explained
  | stored _ _ => exact h.explained.mono (ClauseStore.keptIn_insert _ _)

end Grounded

end Solver

end ClauseLearning
