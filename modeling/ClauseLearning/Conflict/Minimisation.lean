import ClauseLearning.Conflict.Workspace

/-!
# Minimisation

A literal of a learned clause is removable if it is implied by the other literals of the clause:
every other literal of its reason is fixed at the root, belongs to the clause, or is itself implied
in this way. Verdicts are kept as marks, so that the reason of a variable is looked through at most
once per clause.

Two facts about levels end the search early. A level of which only one variable was met cannot
contribute an implied literal, and neither can a variable that was assigned before every variable
met of its level.
-/

set_option autoImplicit false

namespace ClauseLearning

/-- What is known about a literal before its reason is looked through: whether it is removable, or
that this depends on the other literals of its reason. -/
inductive Verdict where
  | settled (removable : Bool)
  | undecided (reason : Clause)
  deriving DecidableEq, Repr

namespace Workspace

/-- Whether a variable is known to be implied: it is fixed at the root, was found removable, or
belongs to the clause. At depth zero the question is about a literal of the clause itself. -/
def isImplied (w : Workspace) (t : Trail) (depth : Nat) (x : Variable) : Bool :=
  t.level x == 0 || (w.marksOf x).removable || (decide (0 < depth) && (w.marksOf x).seen)

/-- Whether a variable is known not to be implied: it was found to be needed, belongs to the
current level, or was assigned too early at its level to follow from what was met there. -/
def isNeeded (w : Workspace) (t : Trail) (depth : Nat) (x : Variable) : Bool :=
  (w.marksOf x).poison || t.level x == t.currentLevel ||
    (depth == 0 && decide ((w.records.get (t.level x)).seenCount < 2)) ||
    (w.records.get (t.level x)).startsAtOrAfter (t.position x)

/-- What is known at once about a true literal of an existing variable, at a depth of the search. -/
def assess (v : View) (w : Workspace) (depth : Nat) (l : Literal) : Except Fault Verdict :=
  if w.isImplied v.trail depth l.var then .ok (.settled true)
  else
    match v.trail.reason l.var with
    | none => .ok (.settled false)
    | some c => do
      let clause ← v.clauses.get c
      .ok (if w.isNeeded v.trail depth l.var then .settled false else .undecided clause)

/-- What is known at once about a true literal, whose variable is looked for first. -/
def verdict (v : View) (w : Workspace) (depth : Nat) (l : Literal) : Except Fault Verdict := do
  v.trail.require l.var
  w.require l.var
  w.assess v depth l

/-- Mark a variable by the verdict on it, and list it for the marks to be taken away. -/
def conclude (w : Workspace) (x : Variable) (removable : Bool) : Workspace :=
  { w with
    marks := w.marks.modify x fun m =>
      if removable then { m with removable := true } else { m with poison := true }
    minimised := w.minimised ++ [x] }

/-- Whether all literals pass a test that may keep verdicts. The literals after the first one that
fails are not tested. -/
def allPass (test : Workspace → Literal → Traced (Workspace × Bool)) (w : Workspace) :
    List Literal → Traced (Workspace × Bool)
  | [] => return (w, true)
  | l :: ls => do
    let (w, passes) ← test w l
    if passes then allPass test w ls else return (w, false)

/-- The true literals by which a reason implies a literal. -/
def premises (reason : Clause) (l : Literal) : List Literal :=
  (reason.literals.filter (· != l)).map Literal.negate

/-- Whether a true literal is implied by the negated literals of the clause. The budget is the
number of reasons that may still be looked through on the way down. -/
def isRemovable (v : View) : Nat → Nat → Workspace → Literal → Traced (Workspace × Bool)
  | budget, depth, w, l => do
    match ← w.verdict v depth l with
    | .settled removable => return (w, removable)
    | .undecided reason =>
      match budget with
      | 0 => return (w, false)
      | budget + 1 =>
        let (w, removable) ← allPass (isRemovable v budget (depth + 1)) w (premises reason l)
        Traced.tell (.minimised l depth removable)
        return (w.conclude l.var removable, removable)

/-- The literals of a clause that are not removable, in their order. -/
def keepNeeded (v : View) (maxDepth : Nat) (w : Workspace) :
    List Literal → Traced (Workspace × List Literal)
  | [] => return (w, [])
  | l :: ls => do
    let (w, removable) ← isRemovable v (maxDepth + 1) 0 w l.negate
    let (w, rest) ← keepNeeded v maxDepth w ls
    return (w, if removable then rest else l :: rest)

/-- Take the verdicts away from the variables listed. -/
def clearVerdicts (w : Workspace) : Workspace :=
  { w with
    marks := w.minimised.foldl
      (fun marks x => marks.modify x fun m => { m with poison := false, removable := false })
      w.marks
    minimised := [] }

/-- Remove the removable literals of a clause. -/
def minimise (v : View) (maxDepth : Nat) (w : Workspace) (ls : List Literal) :
    Traced (Workspace × List Literal) := do
  let (w, kept) ← w.keepNeeded v maxDepth ls
  w.requireAll w.minimised
  Traced.tell (.minimisationRemoved (ls.length - kept.length))
  return (w.clearVerdicts, kept)

/-- A verdict is given at once only on a variable that exists and can be marked. -/
theorem assess_of_verdict {v : View} {w : Workspace} {depth : Nat} {l : Literal}
    {verdict : Verdict} (hok : w.verdict v depth l = .ok verdict) :
    l.var < v.trail.numVariables ∧ l.var < w.marks.size ∧
      w.assess v depth l = .ok verdict := by
  obtain ⟨_, hknown, hok⟩ := Fault.bind_eq_ok_iff.1 hok
  obtain ⟨_, hmarked, hok⟩ := Fault.bind_eq_ok_iff.1 hok
  exact ⟨Trail.require_eq_ok_iff.1 hknown, require_eq_ok_iff.1 hmarked, hok⟩

/-- About a variable that exists and can be marked the verdict is given. -/
theorem verdict_eq_assess {v : View} {w : Workspace} {l : Literal}
    (hknown : l.var < v.trail.numVariables) (hmarked : l.var < w.marks.size) (depth : Nat) :
    w.verdict v depth l = w.assess v depth l := by
  unfold verdict
  have htrail : v.trail.require l.var = .ok () := Trail.require_eq_ok_iff.2 hknown
  have hmarks : w.require l.var = .ok () := require_eq_ok_iff.2 hmarked
  rw [htrail, hmarks]
  rfl

/-- Whether a variable is marked by a verdict. -/
def hasVerdicts (w : Workspace) : Bool := w.marks.toList.any fun m => m.poison || m.removable

/-- A workspace in which given variables were met and given levels have records. -/
def prepared (numVariables : Nat) (seen : List Variable) (records : List (Nat × LevelRecord)) :
    Except Fault Workspace := do
  let w := (List.range numVariables).foldl grow {}
  w.requireAll seen
  let marked := seen.foldl markSeen w
  .ok { marked with records := records.foldl (fun r (level, x) => r.set level x) {} }

/-- Minimise a clause outside of an analysis, under given marks and records. The answer lists the
literals kept and tells whether no verdict is left behind. -/
def minimiseApart (v : View) (maxDepth : Nat) (seen : List Variable)
    (records : List (Nat × LevelRecord)) (ls : List Literal) : Traced (List Literal × Bool) := do
  let w ← prepared v.trail.numVariables seen records
  let (w, kept) ← w.minimise v maxDepth ls
  return (kept, !w.hasVerdicts)

end Workspace

end ClauseLearning
