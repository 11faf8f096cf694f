import ClauseLearning.Proofs.Decision.Service
import ClauseLearning.Proofs.Solver.Twins
import ClauseLearning.Solver.Analysis

/-!
# Analyses of twins

Twins learn the same clause from the same conflict. Each phase of an analysis keeps them twins. In
the first one alone their workspaces may differ in the clauses that wait for a stamp; the stamping
ends this. Later phases write to the averages, the scores and the proof, from which no phase reads:
whether a bump rescales the scores, and whether the clause fits into the proof, is told in events
only.
-/

set_option autoImplicit false

namespace ClauseLearning

namespace Heuristic.Twins

variable {h h' : Heuristic}

/-- Twins have scores for the same variables. -/
theorem require_scores_eq (ht : h.Twins h') (v : Variable) :
    h'.scores.require v = h.scores.require v := by
  unfold Scores.require Scores.knows Arena.knows
  rw [ht.size_eq]

/-- Twins move the same variable to the front, whatever its scores are. -/
theorem bump (ht : h.Twins h') (v : Variable) (assigned : Bool) :
    (h.bump v assigned).Matches (h'.bump v assigned) Twins := by
  unfold Heuristic.bump
  rw [ht.queue_eq, ht.require_scores_eq]
  refine .bind (.same _) ?_
  rintro queue _ rfl
  refine .ite (fun _ => ?_) fun _ => .pure ht
  refine .bind (.same _) fun _ _ _ => .tellAll (.pure ⟨rfl, ?_⟩)
  rw [Scores.size_bump, Scores.size_bump, ht.size_eq]

/-- Twins keep their queue when scores decay. -/
theorem decay (ht : h.Twins h') : h.decay.Matches h'.decay Twins := by
  refine .tellAll (.pure ⟨ht.queue_eq, ?_⟩)
  rw [Scores.size_decay, Scores.size_decay, ht.size_eq]

end Heuristic.Twins

/-- An order of bumps other than by scores arranges literals by what queue and trail tell. -/
theorem BumpOrder.arrangeKnown_eq {o : BumpOrder} (ho : o ≠ .scoreSmaller) (q : DecisionQueue)
    (scores scores' : Scores Binary64) (t : Trail) (ls : List Literal) :
    o.arrangeKnown q scores' t ls = o.arrangeKnown q scores t ls := by
  cases o with
  | scoreSmaller => exact absurd rfl ho
  | _ => rfl

namespace Workspace

variable {w w' : Workspace}

/-- Without waiting clauses twins differ in the number of stamps at most, which is not checked. -/
theorem Twins.isClear_eq (h : Twins Activity.Idle Activity.Idle w w') : w'.isClear = w.isClear := by
  obtain ⟨a, rfl, hidle, hidle'⟩ := h
  unfold Activity.Idle at hidle hidle'
  unfold isClear
  rw [hidle, hidle']

/-- Twins without waiting clauses are twins before a resolution. -/
theorem Twins.waiting {v v' : View} (h : Twins Activity.Idle Activity.Idle w w') :
    WaitingTwins v v' w w' := by
  obtain ⟨a, rfl, hidle, hidle'⟩ := h
  refine ⟨a, rfl, fun c hc => ?_, fun c hc => ?_⟩
  · rw [hidle] at hc
    cases hc
  · rw [hidle'] at hc
    cases hc

end Workspace

namespace Solver

/-- What two solvers that were twins have become after the resolution. -/
def Derived (s s' : Solver) (p p' : Solver × Literal) : Prop :=
  ∃ w w' asserting, Workspace.WaitingTwins s.view s'.view w w' ∧
    p = ({ s with workspace := w }, asserting) ∧ p' = ({ s' with workspace := w' }, asserting)

namespace Twins

variable {s s' : Solver} (h : s.Twins s')

include h

/-- Twins have marks for the same variables. -/
theorem require_workspace_eq (v : Variable) : s'.workspace.require v = s.workspace.require v := by
  obtain ⟨a, hworkspace, -⟩ := h.workspace
  rw [hworkspace]
  rfl

/-- The clause under construction, the levels and the literals met are the same. -/
theorem workspace_eq : s'.workspace.learned = s.workspace.learned ∧
    s'.workspace.levels = s.workspace.levels ∧ s'.workspace.seen = s.workspace.seen ∧
    ∀ v, s'.workspace.isSeen v = s.workspace.isSeen v := by
  obtain ⟨a, hworkspace, -⟩ := h.workspace
  rw [hworkspace]
  exact ⟨rfl, rfl, rfl, fun _ => rfl⟩

/-- Twins derive the same clause. -/
theorem deriveClause (c : ClauseId) :
    (s.deriveClause c).Matches (s'.deriveClause c) (Derived s s') := by
  unfold Solver.deriveClause
  refine .bind (Workspace.WaitingTwins.firstUip h.view h.workspace.waiting c) ?_
  rintro ⟨w, uip⟩ ⟨w', _⟩ ⟨⟨a, rfl, hpending, hpending'⟩, rfl⟩
  refine .tell (.bind (R := fun _ _ => True) ?_ fun _ _ _ => ?_)
  · rw [h.trail_eq]
    exact .checkBy h.audit_eq (.same _)
  · exact .pure ⟨{ w with learned := w.learned ++ [uip.negate] }, _, _,
      ⟨a, rfl, hpending, hpending'⟩, rfl, rfl⟩

/-- After the stamping no clause waits, and the twins are twins again. -/
theorem stampResolved {w w' : Workspace} (hw : Workspace.WaitingTwins s.view s'.view w w') :
    Agree Twins ({ s with workspace := w } : Solver).stampResolved
      ({ s' with workspace := w' } : Solver).stampResolved := by
  obtain ⟨a, rfl, hpending, hpending'⟩ := hw
  unfold Solver.stampResolved
  refine (Activity.flush_agrees h.alike h.stampable h.stampable' hpending hpending').bind ?_
  rintro ⟨activity, clauses⟩ ⟨activity', clauses'⟩ ⟨hidle, hidle', halike, hstampable, hstampable'⟩
  exact .value { h with
    alike := halike
    stampable := hstampable
    stampable' := hstampable'
    workspace := ⟨activity', rfl, hidle, hidle'⟩ }

/-- Twins met as many levels. -/
theorem currentGlue_eq : s'.currentGlue = s.currentGlue :=
  congrArg List.length h.workspace_eq.2.1

/-- Twins record the same glue. -/
theorem recordGlue : s.recordGlue.Matches s'.recordGlue Twins := by
  have hcheck : s'.holdsGlue = s.holdsGlue := by
    unfold holdsGlue
    rw [h.currentGlue_eq, h.trail_eq, h.workspace_eq.1]
  unfold Solver.recordGlue
  rw [hcheck]
  refine .bind (.checkBy h.audit_eq (.same _)) fun _ _ _ => ?_
  exact .tell (.pure { h with conflicts_eq := h.conflicts_eq })

/-- Twins shrink the clause alike. -/
theorem shrinkClause : s.shrinkClause.Matches s'.shrinkClause Twins := by
  unfold Solver.shrinkClause
  rw [h.guidance.minimise_eq]
  refine .ite (fun _ => ?_) fun _ => .pure h
  rw [h.guidance.depth_eq, h.workspace_eq.1]
  refine .bind (h.workspace.minimise h.view _ _) ?_
  rintro ⟨w, kept⟩ ⟨w', _⟩ ⟨⟨a, rfl, hidle, hidle'⟩, rfl⟩
  exact .pure { h with workspace := ⟨a, rfl, hidle, hidle'⟩, conflicts_eq := h.conflicts_eq }

/-- Recording the size leaves twins. -/
theorem recordSize : s.recordSize.Twins s'.recordSize := { h with conflicts_eq := h.conflicts_eq }

/-- Each side decides on its own whether the clause carries a stamp, and whether it is logged. -/
theorem storeLearned (ls : List Literal) (glue : Nat) :
    (s.storeLearned ls glue).Matches (s'.storeLearned ls glue) (SameAnswer Twins) := by
  refine .tellAll (.pure ⟨{ h with alike := ?_, stampable := ?_, stampable' := ?_ }, ?_⟩)
  · exact h.alike.insert rfl
  · exact h.stampable.insertLearned ls glue
  · exact h.stampable'.insertLearned ls glue
  · exact h.alike.nextId_eq.symm

/-- Twins install the same clause and jump to the same level. -/
theorem installClause (asserting : Literal) (glue : Nat) :
    (s.installClause asserting glue).Matches (s'.installClause asserting glue)
      (SameAnswer Twins) := by
  have hlatest : s'.latestFirst s'.workspace.learned = s.latestFirst s.workspace.learned := by
    unfold Solver.latestFirst
    rw [h.trail_eq, h.workspace_eq.1]
  unfold Solver.installClause
  rw [hlatest]
  match s.latestFirst s.workspace.learned with
  | [] => exact .pure ⟨h, rfl⟩
  | [_] => exact .pure ⟨h, rfl⟩
  | first :: second :: rest =>
    rw [h.trail_eq]
    refine .bind (.same _) fun _ _ _ => .require rfl (.bind (h.storeLearned _ _) ?_)
    rintro ⟨stored, c⟩ ⟨stored', _⟩ ⟨hstored, rfl⟩
    exact .pure ⟨hstored, rfl⟩

/-- Recording the jump leaves twins. -/
theorem recordJump (level : Nat) : (s.recordJump level).Twins (s'.recordJump level) :=
  { h with conflicts_eq := h.conflicts_eq }

/-- Twins bump variables alike. -/
theorem bumpAll (ls : List Literal) : (s.bumpAll ls).Matches (s'.bumpAll ls) Twins := by
  induction ls generalizing s s' with
  | nil => exact .pure h
  | cons l ls ih =>
    obtain ⟨a, hworkspace, hidle⟩ := h.workspace
    unfold Solver.bumpAll
    rw [h.require_workspace_eq, h.trail_eq]
    refine .bind (.same _) fun _ _ _ => ?_
    refine .check h.audit_eq (h.workspace_eq.2.2.2 l.var) (.bind (.same _) fun _ _ _ => ?_)
    refine .bind (h.heuristic.bump _ _) ?_
    · intro heuristic heuristic' hbumped
      exact ih { h with
        trail_eq := rfl
        heuristic := hbumped
        workspace := ⟨a, congrArg (fun w => w.unmarkSeen l.var) hworkspace, hidle⟩ }

/-- Twins bump in the same order, or lack a key both. -/
theorem bumpSequence_eq : s'.bumpSequence = s.bumpSequence := by
  unfold Solver.bumpSequence
  rw [h.guidance.order_eq, h.heuristic.queue_eq, h.trail_eq, h.workspace_eq.2.2.1]
  exact BumpOrder.arrangeKnown_eq h.guidance.order_ne _ _ _ _ _

/-- Twins bump what was met alike. -/
theorem bumpSeen : s.bumpSeen.Matches s'.bumpSeen Twins := by
  unfold Solver.bumpSeen
  rw [h.bumpSequence_eq]
  refine .bind (.same _) ?_
  rintro sequence _ rfl
  refine .bind (h.bumpAll _) fun bumped bumped' hbumped => ?_
  refine .bind hbumped.heuristic.decay fun heuristic heuristic' hdecayed => ?_
  obtain ⟨a, hworkspace, hidle⟩ := hbumped.workspace
  exact .pure { hbumped with
    heuristic := hdecayed
    workspace := ⟨a, congrArg (fun w => { w with seen := [] }) hworkspace, hidle⟩ }

/-- Clearing the workspace leaves twins. -/
theorem clearWorkspace : s.clearWorkspace.Twins s'.clearWorkspace := by
  obtain ⟨a, hworkspace, hidle⟩ := h.workspace
  exact { h with
    workspace := ⟨a, congrArg (fun w : Workspace => { w with learned := [] }.clearLevels)
      hworkspace, hidle⟩ }

/-- Twins learn the same clause. -/
theorem learn (c : ClauseId) : (s.learn c).Matches (s'.learn c) (SameAnswer Twins) := by
  unfold Solver.learn
  refine .check h.audit_eq h.workspace.isClear_eq (.bind (.lift (h.alike.get c)) fun _ _ _ => ?_)
  refine .tell (.bind (h.deriveClause c) ?_)
  rintro _ _ ⟨w, w', asserting, hw, rfl, rfl⟩
  have hglue : ({ s' with workspace := w' } : Solver).currentGlue =
      ({ s with workspace := w } : Solver).currentGlue := by
    obtain ⟨a, rfl, -⟩ := hw
    rfl
  refine .bind (.lift (h.stampResolved hw)) fun _ _ hstamped => ?_
  refine .bind hstamped.recordGlue fun _ _ hrecorded => ?_
  refine .bind hrecorded.shrinkClause fun shrunk shrunk' hshrunk => ?_
  rw [hglue]
  refine .bind (hshrunk.recordSize.installClause asserting _) ?_
  rintro ⟨installed, jump, clause⟩ ⟨installed', _⟩ ⟨hinstalled, rfl⟩
  refine .bind (.lift ((hinstalled.recordJump jump).undo jump)) fun _ _ hundone => ?_
  refine .bind (hundone.imply asserting clause) fun _ _ hasserted => ?_
  refine .bind hasserted.bumpSeen fun _ _ hbumped => .pure ⟨hbumped.clearWorkspace, ?_⟩
  rw [hshrunk.workspace_eq.1]

/-- Counting a conflict leaves twins. -/
theorem countConflict : s.countConflict.Twins s'.countConflict :=
  { h with conflicts_eq := congrArg (· + 1) h.conflicts_eq }

/-- Twins resolve a conflict alike. -/
theorem resolveConflict (c : ClauseId) :
    (s.resolveConflict c).Matches (s'.resolveConflict c) (SameAnswer Twins) := by
  unfold Solver.resolveConflict
  rw [h.currentLevel_eq]
  refine .ite (fun _ => .bind h.learnEmpty fun _ _ hrefuted => .pure ⟨hrefuted, rfl⟩) fun _ => ?_
  refine .bind (h.learn c) ?_
  rintro ⟨next, learned⟩ ⟨next', _⟩ ⟨hnext, rfl⟩
  exact .pure ⟨hnext.withStatus .ready, rfl⟩

/-- Twins come to the same outcome. -/
theorem analyse : s.analyse.Matches s'.analyse (SameAnswer Twins) := by
  unfold Solver.analyse
  rw [h.status_eq]
  cases s.status with
  | unsatisfiable => exact .pure ⟨h, rfl⟩
  | ready => exact .fault _
  | conflict c =>
    refine .bind (h.countConflict.resolveConflict c) ?_
    rintro ⟨next, outcome⟩ ⟨next', _⟩ ⟨hnext, rfl⟩
    exact .bind hnext.auditCursor fun _ _ _ => .pure ⟨hnext, rfl⟩

end Twins

end Solver

end ClauseLearning
