import ClauseLearning.Conflict.FirstUip
import ClauseLearning.Conflict.Minimisation
import ClauseLearning.Proofs.Conflict.Contents
import ClauseLearning.Proofs.Conflict.Stamping
import ClauseLearning.Proofs.Matching

/-!
# Two analyses side by side

Two analyses see the same trail and the same contents of the stored clauses, and their workspaces
differ only in the clauses that wait for a stamp. Which clauses wait depends on the options, and the
order in which they are stamped on their use so far; neither is read by the resolution and by the
minimisation. The two places at which the records of use could end one of the analyses alone are the
check of a clause that is going to wait and the stamping at the end. Both succeed on either side,
because a learned clause that qualifies carries a stamp.
-/

set_option autoImplicit false

namespace ClauseLearning

/-- The same trail and clauses of the same contents, where on either side the clauses that qualify
carry a stamp. -/
structure View.Twins (v v' : View) : Prop where
  trail_eq : v'.trail = v.trail
  audit_eq : v'.audit = v.audit
  alike : v.clauses.Alike v'.clauses
  stampable : v.clauses.Stampable v.options
  stampable' : v'.clauses.Stampable v'.options

/-- The same but for the clauses that wait for a stamp, about which something is known on either
side. -/
def Workspace.Twins (P P' : Activity → Prop) (w w' : Workspace) : Prop :=
  ∃ a, w' = { w with activity := a } ∧ P w.activity ∧ P' a

/-- No clause waits for a stamp. -/
def Activity.Idle (a : Activity) : Prop := a.pending = []

/-- The same verdict, or reasons of the same literals that decide on it. -/
inductive Verdict.Twins : Verdict → Verdict → Prop where
  | settled (removable : Bool) : Twins (.settled removable) (.settled removable)
  | undecided {c c' : Clause} : c'.literals = c.literals → Twins (.undecided c) (.undecided c')

variable {v v' : View} {w w' : Workspace} {P P' : Activity → Prop}

/-- On both sides a name stands for clauses of the same literals, or for none. -/
theorem ClauseStore.Alike.get {s s' : ClauseStore} (h : s.Alike s') (c : ClauseId) :
    Agree (fun k k' => s.get? c = some k ∧ s'.get? c = some k' ∧ k'.literals = k.literals)
      (s.get c) (s'.get c) := by
  have heq := h.get?_eq c
  unfold ClauseStore.get
  cases hk : s.get? c with
  | none =>
    rw [hk, Option.map_none, Option.map_eq_none_iff] at heq
    rw [heq]
    exact .fault _
  | some k =>
    rw [hk, Option.map_some, Option.map_eq_some_iff] at heq
    obtain ⟨k', hk', hcontents⟩ := heq
    rw [hk']
    exact .value ⟨rfl, rfl, congrArg Contents.literals hcontents⟩

namespace Workspace

/-- The clauses that wait for a stamp can be given one, on either side. -/
def WaitingTwins (v v' : View) : Workspace → Workspace → Prop :=
  Twins (Activity.Pending v.clauses) (Activity.Pending v'.clauses)

/-! ## Resolution -/

/-- Twins meet a literal alike. -/
theorem Twins.meet (hv : v.Twins v') (h : Twins P P' w w') (l : Literal) :
    (w.meet v l).Matches (w'.meet v' l) (SameAnswer (Twins P P')) := by
  obtain ⟨a, rfl, hp, hp'⟩ := h
  unfold Workspace.meet Workspace.take
  rw [hv.trail_eq]
  refine .bind (.same (liftM (w.requireMeeting v.trail l))) fun _ _ _ => ?_
  refine .ite (fun _ => .pure ⟨⟨a, rfl, hp, hp'⟩, rfl⟩) fun _ => ?_
  exact .check hv.audit_eq rfl (.tellAll (.pure ⟨⟨a, rfl, hp, hp'⟩, rfl⟩))

/-- Twins meet the literals of a clause alike. -/
theorem Twins.meetAll (hv : v.Twins v') (h : Twins P P' w w') (ls : List Literal) :
    (Workspace.meetAll v w ls).Matches (Workspace.meetAll v' w' ls) (SameAnswer (Twins P P')) := by
  induction ls generalizing w w' with
  | nil => exact .pure ⟨h, rfl⟩
  | cons l ls ih =>
    unfold Workspace.meetAll
    refine .bind (h.meet hv l) ?_
    rintro ⟨w₁, isOpen⟩ ⟨w₁', _⟩ ⟨h₁, rfl⟩
    refine .bind (ih h₁) ?_
    rintro ⟨w₂, count⟩ ⟨w₂', _⟩ ⟨h₂, rfl⟩
    exact .pure ⟨h₂, rfl⟩

/-- Each side remembers the clause if it qualifies there. -/
theorem WaitingTwins.resolve (hv : v.Twins v') (h : WaitingTwins v v' w w') {c : ClauseId}
    {clause clause' : Clause} (hc : v.clauses.get? c = some clause)
    (hc' : v'.clauses.get? c = some clause') (hliterals : clause'.literals = clause.literals) :
    (w.resolve v c clause).Matches (w'.resolve v' c clause')
      (SameAnswer (WaitingTwins v v')) := by
  obtain ⟨a, rfl, hp, hp'⟩ := h
  obtain ⟨next, hmark⟩ := Activity.exists_mark hv.stampable hc w.activity v.audit
  obtain ⟨next', hmark'⟩ := Activity.exists_mark hv.stampable' hc' a v'.audit
  have hmarked : WaitingTwins v v' { w with activity := next } { w with activity := next' } :=
    ⟨next', rfl, Activity.pending_mark hv.stampable hc hp hmark,
      Activity.pending_mark hv.stampable' hc' hp' hmark'⟩
  unfold Workspace.resolve
  rw [hliterals]
  refine .bind (R := fun b b' => b = next ∧ b' = next') (.of_result hmark hmark' ⟨rfl, rfl⟩) ?_
  rintro _ _ ⟨rfl, rfl⟩
  exact hmarked.meetAll hv _

/-- The walk down the trail ends at the same literal for twins. -/
theorem WaitingTwins.descend (hv : v.Twins v') (h : WaitingTwins v v' w w') (openCount : Nat)
    (ls : List Literal) :
    (Workspace.descend v w openCount ls).Matches (Workspace.descend v' w' openCount ls)
      (SameAnswer (WaitingTwins v v')) := by
  induction ls generalizing w w' openCount with
  | nil => exact .fault _
  | cons l ls ih =>
    have hmarks : w'.marks = w.marks := by
      obtain ⟨a, rfl, -⟩ := h
      rfl
    have hseen : w'.isSeen l.var = w.isSeen l.var := by
      unfold isSeen marksOf
      rw [hmarks]
    have hrequire : w'.require l.var = w.require l.var := by
      unfold Workspace.require
      rw [hmarks]
    unfold Workspace.descend
    rw [hseen, hrequire, hv.trail_eq]
    refine .bind (.same _) fun _ _ _ => ?_
    refine .ite (fun _ => ih h openCount) fun _ => .ite (fun _ => .pure ⟨h, rfl⟩) fun _ => ?_
    refine .bind (.same _) fun _ _ _ => ?_
    cases v.trail.reason l.var with
    | none => exact .fault _
    | some c =>
      refine .bind (.lift (hv.alike.get c)) ?_
      rintro clause clause' ⟨hc, hc', hliterals⟩
      refine .tell (.bind (h.resolve hv hc hc' hliterals) ?_)
      rintro ⟨w₁, opened⟩ ⟨w₁', _⟩ ⟨h₁, rfl⟩
      exact ih h₁ _

/-- Twins find the same first unique implication point. -/
theorem WaitingTwins.firstUip (hv : v.Twins v') (h : WaitingTwins v v' w w') (c : ClauseId) :
    (w.firstUip v c).Matches (w'.firstUip v' c) (SameAnswer (WaitingTwins v v')) := by
  unfold Workspace.firstUip
  refine .bind (.lift (hv.alike.get c)) ?_
  rintro clause clause' ⟨hc, hc', hliterals⟩
  refine .bind (h.resolve hv hc hc' hliterals) ?_
  rintro ⟨w₁, opened⟩ ⟨w₁', _⟩ ⟨h₁, rfl⟩
  rw [hv.trail_eq]
  exact .require rfl (h₁.descend hv _ _)

/-! ## Minimisation -/

/-- What is known about a literal is known to both twins. -/
theorem Twins.assess (hv : v.Twins v') (h : Twins P P' w w') (depth : Nat) (l : Literal) :
    Agree Verdict.Twins (w.assess v depth l) (w'.assess v' depth l) := by
  obtain ⟨a, rfl, -⟩ := h
  have himplied : ({ w with activity := a } : Workspace).isImplied v'.trail depth l.var =
      w.isImplied v.trail depth l.var := by
    rw [hv.trail_eq]
    rfl
  have hneeded : ({ w with activity := a } : Workspace).isNeeded v'.trail depth l.var =
      w.isNeeded v.trail depth l.var := by
    rw [hv.trail_eq]
    rfl
  unfold Workspace.assess
  rw [himplied, hneeded, hv.trail_eq]
  by_cases hi : w.isImplied v.trail depth l.var = true
  · rw [if_pos hi, if_pos hi]
    exact .value (.settled true)
  · rw [if_neg hi, if_neg hi]
    cases v.trail.reason l.var with
    | none => exact .value (.settled false)
    | some c =>
      refine (hv.alike.get c).bind ?_
      rintro clause clause' ⟨-, -, hliterals⟩
      cases w.isNeeded v.trail depth l.var with
      | true => exact .value (.settled false)
      | false => exact .value (.undecided hliterals)

/-- Twins come to the same verdict at once, or look for a missing variable both. -/
theorem Twins.verdict (hv : v.Twins v') (h : Twins P P' w w') (depth : Nat) (l : Literal) :
    Agree Verdict.Twins (w.verdict v depth l) (w'.verdict v' depth l) := by
  have hassess := h.assess hv depth l
  obtain ⟨a, rfl, -⟩ := h
  unfold Workspace.verdict
  rw [hv.trail_eq]
  refine (Agree.same (v.trail.require l.var)).bind fun _ _ _ => ?_
  exact (Agree.same (w.require l.var)).bind fun _ _ _ => hassess

/-- If a test goes alike for twins, so does the test of a list. -/
theorem Twins.allPass {test test' : Workspace → Literal → Traced (Workspace × Bool)}
    (htest : ∀ w w' l, Twins P P' w w' → (test w l).Matches (test' w' l) (SameAnswer (Twins P P')))
    (h : Twins P P' w w') (ls : List Literal) :
    (Workspace.allPass test w ls).Matches (Workspace.allPass test' w' ls)
      (SameAnswer (Twins P P')) := by
  induction ls generalizing w w' with
  | nil => exact .pure ⟨h, rfl⟩
  | cons l ls ih =>
    unfold Workspace.allPass
    refine .bind (htest w w' l h) ?_
    rintro ⟨w₁, passes⟩ ⟨w₁', _⟩ ⟨h₁, rfl⟩
    exact .ite (fun _ => ih h₁) fun _ => .pure ⟨h₁, rfl⟩

/-- The induction follows the budget; the depth only counts it from the other end. -/
theorem Twins.isRemovable (hv : v.Twins v') (budget depth : Nat) (h : Twins P P' w w')
    (l : Literal) :
    (Workspace.isRemovable v budget depth w l).Matches (Workspace.isRemovable v' budget depth w' l)
      (SameAnswer (Twins P P')) := by
  induction budget generalizing depth w w' l with
  | zero =>
    unfold Workspace.isRemovable
    refine .bind (.lift (h.verdict hv depth l)) ?_
    rintro _ _ (removable | _)
    · exact .pure ⟨h, rfl⟩
    · exact .pure ⟨h, rfl⟩
  | succ budget ih =>
    unfold Workspace.isRemovable
    refine .bind (.lift (h.verdict hv depth l)) ?_
    rintro _ _ (removable | @⟨reason, reason', hliterals⟩)
    · exact .pure ⟨h, rfl⟩
    · have hpremises : premises reason' l = premises reason l := by
        unfold premises
        rw [hliterals]
      refine .bind (R := SameAnswer (Twins P P')) ?_ ?_
      · rw [hpremises]
        exact Twins.allPass (fun w₁ w₁' k h₁ => ih (depth + 1) h₁ k) h _
      rintro ⟨w₁, removable⟩ ⟨w₁', _⟩ ⟨⟨a, rfl, hp⟩, rfl⟩
      exact .tell (.pure ⟨⟨a, rfl, hp⟩, rfl⟩)

/-- Twins keep the same literals of a clause. -/
theorem Twins.keepNeeded (hv : v.Twins v') (maxDepth : Nat) (h : Twins P P' w w')
    (ls : List Literal) :
    (Workspace.keepNeeded v maxDepth w ls).Matches (Workspace.keepNeeded v' maxDepth w' ls)
      (SameAnswer (Twins P P')) := by
  induction ls generalizing w w' with
  | nil => exact .pure ⟨h, rfl⟩
  | cons l ls ih =>
    unfold Workspace.keepNeeded
    refine .bind (h.isRemovable hv (maxDepth + 1) 0 l.negate) ?_
    rintro ⟨w₁, removable⟩ ⟨w₁', _⟩ ⟨h₁, rfl⟩
    refine .bind (ih h₁) ?_
    rintro ⟨w₂, rest⟩ ⟨w₂', _⟩ ⟨h₂, rfl⟩
    exact .pure ⟨h₂, rfl⟩

/-- Twins shrink a clause to the same literals. -/
theorem Twins.minimise (hv : v.Twins v') (maxDepth : Nat) (h : Twins P P' w w')
    (ls : List Literal) :
    (w.minimise v maxDepth ls).Matches (w'.minimise v' maxDepth ls) (SameAnswer (Twins P P')) := by
  unfold Workspace.minimise
  refine .bind (h.keepNeeded hv maxDepth ls) ?_
  rintro ⟨w₁, kept⟩ ⟨w₁', _⟩ ⟨⟨a, rfl, hp⟩, rfl⟩
  refine .bind (.same (liftM (w₁.requireAll w₁.minimised))) fun _ _ _ => ?_
  exact .tell (.pure ⟨⟨a, rfl, hp⟩, rfl⟩)

end Workspace

/-- The waiting clauses are stamped on both sides, and none waits afterwards. -/
theorem Activity.flush_agrees {s s' : ClauseStore} {o o' : Options} {a a' : Activity}
    (halike : s.Alike s') (hs : s.Stampable o) (hs' : s'.Stampable o') (ha : a.Pending s)
    (ha' : a'.Pending s') :
    Agree (fun p p' => p.1.Idle ∧ p'.1.Idle ∧ p.2.Alike p'.2 ∧ p.2.Stampable o ∧
      p'.2.Stampable o') (a.flush s) (a'.flush s') := by
  obtain ⟨next, stamped, hflush, hidle, hrestamped⟩ := exists_flush ha
  obtain ⟨next', stamped', hflush', hidle', hrestamped'⟩ := exists_flush ha'
  have halike' : stamped.Alike stamped' :=
    ((ClauseStore.Alike.of_flush hflush).symm.trans halike).trans
      (ClauseStore.Alike.of_flush hflush')
  rw [hflush, hflush']
  exact .value ⟨hidle, hidle', halike', hs.restamped hrestamped, hs'.restamped hrestamped'⟩

end ClauseLearning
