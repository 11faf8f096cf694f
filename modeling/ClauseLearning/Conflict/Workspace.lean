import ClauseLearning.Conflict.Activity
import ClauseLearning.Conflict.LevelRecords

/-!
# The workspace of an analysis

An analysis marks the variables that it meets and collects literals, levels and clauses. All of
this lives in a workspace, which is cleared before the analysis ends, so that it can be used again.
-/

set_option autoImplicit false

namespace ClauseLearning

/-- The marks of one variable: it was met, or minimisation found that its literal is needed or that
it is implied by the rest. -/
structure Marks where
  seen : Bool := false
  poison : Bool := false
  removable : Bool := false
  deriving DecidableEq, Repr, Inhabited

/-- What an analysis knows of the solver and does not change. -/
structure View where
  trail : Trail
  clauses : ClauseStore
  options : Options
  audit : AuditLevel

/-- The marks and collections of an analysis: the literals and the levels met, in this order, the
clause under construction, what was met of every level, the clauses that wait for a stamp, and the
variables on which minimisation came to a verdict. -/
structure Workspace where
  marks : Arena Marks := .empty
  seen : List Literal := []
  levels : List Nat := []
  learned : List Literal := []
  records : LevelRecords := {}
  activity : Activity := {}
  minimised : List Variable := []
  deriving DecidableEq, Repr

namespace Workspace

/-- The marks of a variable that can be marked: those who ask have required it. -/
def marksOf (w : Workspace) (v : Variable) : Marks := (w.marks.get? v).getD {}

/-- Whether a variable was met. -/
def isSeen (w : Workspace) (v : Variable) : Bool := (w.marksOf v).seen

/-- Go on only with a variable that can be marked. -/
def require (w : Workspace) (v : Variable) : Except Fault Unit :=
  if w.marks.knows v then .ok () else .error (.unknownVariable v)

/-- Go on only with variables that can all be marked. -/
def requireAll (w : Workspace) (vs : List Variable) : Except Fault Unit := vs.forM w.require

/-- Make place for the marks of a new variable. -/
def grow (w : Workspace) (v : Variable) : Workspace :=
  { w with marks := w.marks.accommodate v {} }

/-- Whether nothing is left of an analysis. -/
def isClear (w : Workspace) : Bool :=
  w.seen.isEmpty && w.levels.isEmpty && w.learned.isEmpty && w.activity.pending.isEmpty &&
    w.records.isClear && w.marks.toList.all (· == {})

/-- Mark a variable as met. -/
def markSeen (w : Workspace) (v : Variable) : Workspace :=
  { w with marks := w.marks.modify v fun m => { m with seen := true } }

/-- Take the mark away that a variable was met. -/
def unmarkSeen (w : Workspace) (v : Variable) : Workspace :=
  { w with marks := w.marks.modify v fun m => { m with seen := false } }

/-- Whether no variable of a level was met. -/
def isNewLevel (w : Workspace) (level : Nat) : Bool := (w.records.get level).seenCount == 0

/-- Take in a literal that was not met before, of a level above the root. A literal of a level
below the conflict level goes into the clause under construction. -/
def absorb (w : Workspace) (t : Trail) (l : Literal) : Workspace :=
  { w.markSeen l.var with
    seen := w.seen ++ [l]
    levels := if w.isNewLevel (t.level l.var) then w.levels ++ [t.level l.var] else w.levels
    learned := if t.level l.var < t.currentLevel then w.learned ++ [l] else w.learned
    records := w.records.note (t.level l.var) (t.position l.var) }

/-- Give the levels met their default records back. -/
def clearLevels (w : Workspace) : Workspace :=
  { w with records := w.levels.foldl LevelRecords.reset w.records, levels := [] }

/-- A variable can be looked at exactly if it has marks. -/
theorem require_eq_ok_iff {w : Workspace} {v : Variable} {u : Unit} :
    w.require v = .ok u ↔ v < w.marks.size := by
  unfold require Arena.knows
  by_cases h : v < w.marks.size <;> simp [h]

/-- Variables can be looked at exactly if all of them can be marked. -/
theorem requireAll_eq_ok_iff {w : Workspace} {vs : List Variable} {u : Unit} :
    w.requireAll vs = .ok u ↔ ∀ v ∈ vs, v < w.marks.size := by
  unfold requireAll
  rw [Fault.forM_eq_ok_iff]
  simp only [require_eq_ok_iff]

end Workspace

end ClauseLearning
