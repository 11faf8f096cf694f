import ClauseLearning.Conflict.Workspace

/-!
# The first unique implication point

A conflict is resolved backwards along the trail with the reasons of the literals of the current
level, until one literal of that level is left: the first unique implication point. The literals
of lower levels that were met on the way form the learned clause together with its negation.
Literals of the root level are dropped.

A literal of the current level that was met and not yet resolved is *open*. The walk goes down the
trail once; at every entry that was met, one literal is closed.
-/

set_option autoImplicit false

namespace ClauseLearning

namespace Workspace

/-- What is looked at to meet a literal: its marks and, unless it was met before, its assignment. -/
def requireMeeting (w : Workspace) (t : Trail) (l : Literal) : Except Fault Unit := do
  w.require l.var
  if w.isSeen l.var then .ok () else t.require l.var

/-- Whether a literal is passed over: it was met before or belongs to the root level. -/
def passesOver (w : Workspace) (t : Trail) (l : Literal) : Bool :=
  w.isSeen l.var || t.level l.var == 0

/-- What is told when a literal is met. -/
def meetEvents (w : Workspace) (t : Trail) (l : Literal) : List Event :=
  (if w.isNewLevel (t.level l.var) then [.foundLevel (t.level l.var)] else []) ++
    [.analysedLiteral l (t.level l.var)]

/-- Pass over a literal of an existing variable, or take it in. The answer tells whether it is open
now. -/
def take (v : View) (w : Workspace) (l : Literal) : Traced (Workspace × Bool) :=
  if w.passesOver v.trail l then return (w, false)
  else do
    v.audit.check (v.trail.isFalse l) .auditResolvedLiteral
    Traced.tellAll (w.meetEvents v.trail l)
    return (w.absorb v.trail l, v.trail.level l.var == v.trail.currentLevel)

/-- Meet a literal of a resolved clause, whose variable is looked for first. -/
def meet (v : View) (w : Workspace) (l : Literal) : Traced (Workspace × Bool) := do
  w.requireMeeting v.trail l
  w.take v l

/-- Meet the literals of a resolved clause one after the other and count the open ones. -/
def meetAll (v : View) (w : Workspace) : List Literal → Traced (Workspace × Nat)
  | [] => return (w, 0)
  | l :: ls => do
    let (w₁, isOpen) ← w.meet v l
    let (w₂, count) ← meetAll v w₁ ls
    return (w₂, count + if isOpen then 1 else 0)

/-- Resolve with a clause: remember it for a stamp and meet its literals. The answer counts the
literals that it opens. -/
def resolve (v : View) (w : Workspace) (c : ClauseId) (clause : Clause) :
    Traced (Workspace × Nat) := do
  let activity ← w.activity.mark v.audit v.options c clause
  meetAll v { w with activity := activity } clause.literals

/-- Walk down the trail, given from its end. At an entry that was met one literal is closed. If it
was the last open one, the entry is the first unique implication point; otherwise its reason is
resolved, too. -/
def descend (v : View) (w : Workspace) (openCount : Nat) :
    List Literal → Traced (Workspace × Literal)
  | [] => Traced.fault .trailExhausted
  | l :: ls => do
    w.require l.var
    if !w.isSeen l.var then
      descend v w openCount ls
    else if openCount = 1 then
      return (w, l)
    else
      v.trail.require l.var
      match v.trail.reason l.var with
      | none => Traced.fault .decisionResolved
      | some c =>
        let clause ← v.clauses.get c
        Traced.tell (.analysingReason clause l)
        let (w, opened) ← w.resolve v c clause
        descend v w (openCount - 1 + opened) ls

/-- Resolve a conflict down to its first unique implication point. -/
def firstUip (v : View) (w : Workspace) (c : ClauseId) : Traced (Workspace × Literal) := do
  let clause ← v.clauses.get c
  let (w, opened) ← w.resolve v c clause
  Traced.require (decide (0 < opened)) .noLiteralOfCurrentLevel
  descend v w opened v.trail.entries.reverse

/-- The walk past an entry of an existing variable that can be marked. -/
theorem descend_cons {v : View} {w : Workspace} {l : Literal} (hmarked : l.var < w.marks.size)
    (hknown : l.var < v.trail.numVariables) (openCount : Nat) (ls : List Literal) :
    descend v w openCount (l :: ls) =
      if !w.isSeen l.var then descend v w openCount ls
      else if openCount = 1 then return (w, l)
      else match v.trail.reason l.var with
        | none => Traced.fault .decisionResolved
        | some c => (do
          let clause ← v.clauses.get c
          Traced.tell (.analysingReason clause l)
          let (w, opened) ← w.resolve v c clause
          descend v w (openCount - 1 + opened) ls) := by
  have hmarks : w.require l.var = .ok () := require_eq_ok_iff.2 hmarked
  have htrail : v.trail.require l.var = .ok () := Trail.require_eq_ok_iff.2 hknown
  rw [descend, hmarks, htrail]
  rfl

/-- A literal can be met if its variable can be marked and was met before or exists. -/
theorem requireMeeting_eq_ok_iff {w : Workspace} {t : Trail} {l : Literal} {u : Unit} :
    w.requireMeeting t l = .ok u ↔
      l.var < w.marks.size ∧ (w.isSeen l.var = true ∨ l.var < t.numVariables) := by
  unfold requireMeeting
  rw [Fault.bind_eq_ok_iff]
  simp only [require_eq_ok_iff, exists_and_left, exists_const]
  cases w.isSeen l.var <;> simp [Trail.require_eq_ok_iff]

end Workspace

end ClauseLearning
