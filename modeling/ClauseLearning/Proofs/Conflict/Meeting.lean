import ClauseLearning.Proofs.Conflict.Tracking
import ClauseLearning.Proofs.Trail.Reasons

/-!
# Resolving with one clause

To resolve with a clause is to meet its literals. Afterwards every literal of the clause has been
met or belongs to the root level, the literals met before are still first in the list, and the
answer counts the new ones of the current level.

A false clause, or a reason whose implied literal was met before, can always be resolved with, also
at the full audit level.
-/

set_option autoImplicit false

namespace ClauseLearning

/-- Learned clauses that the options track carry a stamp. -/
def ClauseStore.Stampable (o : Options) (s : ClauseStore) : Prop :=
  ∀ c clause, s.get? c = some clause → clause.learned = true →
    o.tracks clause.size clause.glue = true → clause.tracked = true

/-- The clauses that wait for a stamp can be given one. -/
def Activity.Pending (s : ClauseStore) (a : Activity) : Prop :=
  ∀ c ∈ a.pending, ∃ clause, s.get? c = some clause ∧ clause.tracked = true

/-- Every literal was met or belongs to the root level. -/
def Workspace.Covers (t : Trail) (w : Workspace) (ls : List Literal) : Prop :=
  ∀ l ∈ ls, t.level l.var = 0 ∨ w.isSeen l.var = true

namespace Activity

variable {a next : Activity} {audit : AuditLevel} {o : Options} {c : ClauseId} {clause : Clause}

/-- Of a stored clause it is remembered only that it waits for a stamp that it can carry. -/
theorem pending_mark {s : ClauseStore} (hs : s.Stampable o) (hc : s.get? c = some clause)
    (ha : a.Pending s) (h : (a.mark audit o c clause).result = .ok next) : next.Pending s := by
  unfold mark at h
  split at h
  next heligible =>
    rw [Bool.and_eq_true] at heligible
    rw [Traced.result_bind_eq_ok_iff] at h
    obtain ⟨_, -, h⟩ := h
    obtain rfl : _ = next := Except.ok.inj h
    intro d hd
    rcases List.mem_append.1 hd with hd | hd
    · exact ha d hd
    · rw [List.mem_singleton.1 hd]
      exact ⟨clause, hc, hs c clause hc heligible.1 heligible.2⟩
  next =>
    obtain rfl : a = next := Except.ok.inj h
    exact ha

/-- A clause of a store whose learned clauses can be stamped can be remembered for a stamp. -/
theorem exists_mark {s : ClauseStore} (hs : s.Stampable o) (hc : s.get? c = some clause)
    (a : Activity) (audit : AuditLevel) :
    ∃ next, (a.mark audit o c clause).result = .ok next := by
  unfold mark
  split
  next heligible =>
    rw [Bool.and_eq_true] at heligible
    refine ⟨_, Traced.result_bind_eq_ok_iff.2 ⟨(), ?_, rfl⟩⟩
    rw [AuditLevel.result_check_eq_ok_iff]
    exact Or.inr (hs c clause hc heligible.1 heligible.2)
  next => exact ⟨a, rfl⟩

end Activity

namespace Workspace

variable {v : View} {w next : Workspace} {l : Literal} {ls : List Literal} {n : Nat}

/-- A literal is passed over, or it is taken in. -/
theorem take_eq_ok_iff {isOpen : Bool} : (take v w l).result = .ok (next, isOpen) ↔
    (w.passesOver v.trail l = true ∧ next = w ∧ isOpen = false) ∨
      (w.passesOver v.trail l = false ∧ (v.audit = .basic ∨ v.trail.isFalse l = true) ∧
        next = w.absorb v.trail l ∧
        isOpen = (v.trail.level l.var == v.trail.currentLevel)) := by
  unfold take
  cases hpass : w.passesOver v.trail l with
  | true =>
    simp only [if_pos, Traced.result_pure, Except.ok.injEq, Prod.mk.injEq, true_and,
      Bool.true_eq_false, false_and, or_false]
    exact ⟨fun ⟨h₁, h₂⟩ => ⟨h₁.symm, h₂.symm⟩, fun ⟨h₁, h₂⟩ => ⟨h₁.symm, h₂.symm⟩⟩
  | false =>
    rw [if_neg Bool.false_ne_true, Traced.result_bind_eq_ok_iff]
    constructor
    · rintro ⟨_, hcheck, htaken⟩
      rw [Traced.result_bind_eq_ok_iff] at htaken
      obtain ⟨_, -, htaken⟩ := htaken
      obtain ⟨rfl, rfl⟩ := Prod.mk.inj (Except.ok.inj htaken)
      exact Or.inr ⟨rfl, AuditLevel.result_check_eq_ok_iff.1 hcheck, rfl, rfl⟩
    · rintro (⟨h, -⟩ | ⟨-, hcheck, rfl, rfl⟩)
      · cases h
      · exact ⟨(), AuditLevel.result_check_eq_ok_iff.2 hcheck,
          Traced.result_bind_eq_ok_iff.2 ⟨(), rfl, rfl⟩⟩

/-- A literal that can be looked at is passed over or taken in. -/
theorem meet_eq_ok_iff {isOpen : Bool} : (meet v w l).result = .ok (next, isOpen) ↔
    w.requireMeeting v.trail l = .ok () ∧ (take v w l).result = .ok (next, isOpen) := by
  unfold meet
  rw [Traced.result_bind_eq_ok_iff, exists_and_right, Traced.result_liftM]
  cases w.requireMeeting v.trail l <;> simp

/-- The literals of a clause were met one after the other. They cover the clause now, and the number
of new ones of the current level was counted. -/
structure Meets (t : Trail) (w : Workspace) (ls : List Literal) (next : Workspace) (n : Nat) :
    Prop where
  tracks : Tracks t next
  seen_eq : ∃ new, next.seen = w.seen ++ new ∧ (∀ l ∈ new, l ∈ ls ∧ w.isSeen l.var = false) ∧
    n = new.countP fun l => t.level l.var == t.currentLevel
  covers : next.Covers t ls
  activity_eq : next.activity = w.activity

namespace Tracks

variable {t : Trail}

/-- What was met stays met. -/
theorem isSeen_mono (h : Tracks t w) (hnext : Tracks t next) (hsub : w.seen ⊆ next.seen)
    {x : Variable} (hx : w.isSeen x = true) : next.isSeen x = true := by
  obtain ⟨l, hl, hlx⟩ := (h.isSeen_iff x).1 hx
  exact (hnext.isSeen_iff x).2 ⟨l, hsub hl, hlx⟩

/-- Literals met and false literals are of existing variables, so they can be looked at. -/
theorem requireMeeting_eq (h : Tracks t w) (ht : t.WellFormed)
    (hl : w.isSeen l.var = true ∨ t.isFalse l = true) : w.requireMeeting t l = .ok () := by
  have hknown : l.var < t.numVariables := by
    rcases hl with hseen | hfalse
    · exact h.lt_numVariables ht hseen
    · exact Trail.lt_numVariables_of_isAssigned (Trail.isAssigned_of_isFalse hfalse)
  exact requireMeeting_eq_ok_iff.2 ⟨h.size_marks.symm ▸ hknown, Or.inr hknown⟩

/-- What was covered stays covered when more is met. -/
theorem covers_mono (h : Tracks t w) (hnext : Tracks t next) (hsub : w.seen ⊆ next.seen)
    (hcovers : w.Covers t ls) : next.Covers t ls :=
  fun l hl => (hcovers l hl).imp_right (h.isSeen_mono hnext hsub)

end Tracks

/-- What was met before a clause stays met. -/
theorem Meets.subset {t : Trail} (h : Meets t w ls next n) : w.seen ⊆ next.seen := by
  obtain ⟨new, heq, -⟩ := h.seen_eq
  rw [heq]
  exact List.subset_append_left _ _

namespace Meets

variable {t : Trail}

/-- A literal that is passed over belongs to the root level or was met before. -/
theorem pass (h : Tracks t w) (hpass : w.passesOver t l = true) (hmeets : Meets t w ls next n) :
    Meets t w (l :: ls) next n where
  tracks := hmeets.tracks
  seen_eq := by
    obtain ⟨new, heq, hnew, hcount⟩ := hmeets.seen_eq
    exact ⟨new, heq, fun x hx => ⟨List.mem_cons_of_mem _ (hnew x hx).1, (hnew x hx).2⟩, hcount⟩
  covers := by
    intro x hx
    rcases List.mem_cons.1 hx with rfl | hx
    · unfold passesOver at hpass
      rw [Bool.or_eq_true, beq_iff_eq] at hpass
      exact hpass.symm.imp_right (h.isSeen_mono hmeets.tracks hmeets.subset)
    · exact hmeets.covers x hx
  activity_eq := hmeets.activity_eq

/-- A literal that is taken in is the first of the new ones. -/
theorem absorb (ht : t.WellFormed) (h : Tracks t w) (hpass : w.passesOver t l = false)
    (hmeets : Meets t (w.absorb t l) ls next n) :
    Meets t w (l :: ls) next (n + if t.level l.var == t.currentLevel then 1 else 0) := by
  have habsorb := h.absorb ht hpass
  have hsub : w.seen ⊆ (w.absorb t l).seen := List.subset_append_left _ _
  obtain ⟨new, heq, hnew, hcount⟩ := hmeets.seen_eq
  refine ⟨hmeets.tracks, ⟨l :: new, ?_, fun x hx => ?_, ?_⟩, fun x hx => ?_, hmeets.activity_eq⟩
  · rw [heq]
    show w.seen ++ [l] ++ new = _
    rw [List.append_assoc]
    rfl
  · rcases List.mem_cons.1 hx with rfl | hx
    · unfold passesOver at hpass
      rw [Bool.or_eq_false_iff] at hpass
      exact ⟨List.mem_cons_self, hpass.1⟩
    · refine ⟨List.mem_cons_of_mem _ (hnew x hx).1, ?_⟩
      by_contra hseen
      have hmono := h.isSeen_mono habsorb hsub (Bool.not_eq_false _ ▸ hseen)
      rw [(hnew x hx).2] at hmono
      cases hmono
  · rw [List.countP_cons, ← hcount]
  · rcases List.mem_cons.1 hx with rfl | hx
    · have hseen : (w.absorb t x).isSeen x.var = true :=
        (habsorb.isSeen_iff x.var).2 ⟨x, List.mem_append_right _ (List.mem_singleton_self _), rfl⟩
      exact Or.inr (habsorb.isSeen_mono hmeets.tracks hmeets.subset hseen)
    · exact hmeets.covers x hx

end Meets

/-- The first literal of a clause is passed over or taken in, then the others are met. -/
theorem cases_of_meetAll_cons (hok : (meetAll v w (l :: ls)).result = .ok (next, n)) :
    (w.passesOver v.trail l = true ∧ (meetAll v w ls).result = .ok (next, n)) ∨
      (w.passesOver v.trail l = false ∧
        ∃ count, (meetAll v (w.absorb v.trail l) ls).result = .ok (next, count) ∧
          n = count + if v.trail.level l.var == v.trail.currentLevel then 1 else 0) := by
  unfold meetAll at hok
  obtain ⟨⟨w₁, isOpen⟩, hmeet, hok⟩ := Traced.result_bind_eq_ok_iff.1 hok
  obtain ⟨⟨w₂, count⟩, hrest, hok⟩ := Traced.result_bind_eq_ok_iff.1 hok
  obtain ⟨rfl, rfl⟩ := Prod.mk.inj (Except.ok.inj hok)
  rcases take_eq_ok_iff.1 (meet_eq_ok_iff.1 hmeet).2 with ⟨hpass, rfl, rfl⟩ | ⟨hpass, -, rfl, rfl⟩
  · exact Or.inl ⟨hpass, hrest⟩
  · exact Or.inr ⟨hpass, count, hrest, rfl⟩

/-- Meeting the literals of a clause keeps track of them. -/
theorem meets_of_result (ht : v.trail.WellFormed) (h : Tracks v.trail w)
    (hok : (meetAll v w ls).result = .ok (next, n)) : Meets v.trail w ls next n := by
  induction ls generalizing w n with
  | nil =>
    obtain ⟨rfl, rfl⟩ := Prod.mk.inj (Except.ok.inj hok)
    exact ⟨h, ⟨[], by simp, by simp, rfl⟩, fun l hl => absurd hl List.not_mem_nil, rfl⟩
  | cons l ls ih =>
    rcases cases_of_meetAll_cons hok with ⟨hpass, hrest⟩ | ⟨hpass, count, hrest, rfl⟩
    · exact .pass h hpass (ih h hrest)
    · exact .absorb ht h hpass (ih (h.absorb ht hpass) hrest)

/-- False literals can be met, and so can literals that were met before. -/
theorem exists_meetAll (ht : v.trail.WellFormed) (h : Tracks v.trail w)
    (hls : ∀ l ∈ ls, w.isSeen l.var = true ∨ v.trail.isFalse l = true) :
    ∃ next n, (meetAll v w ls).result = .ok (next, n) := by
  induction ls generalizing w with
  | nil => exact ⟨w, 0, rfl⟩
  | cons l ls ih =>
    have hrequire := h.requireMeeting_eq ht (hls l List.mem_cons_self)
    simp only [meetAll, Traced.result_bind_eq_ok_iff]
    cases hpass : w.passesOver v.trail l with
    | true =>
      obtain ⟨next, n, hrest⟩ := ih h fun x hx => hls x (List.mem_cons_of_mem _ hx)
      have htake : (take v w l).result = .ok (w, false) :=
        take_eq_ok_iff.2 (Or.inl ⟨hpass, rfl, rfl⟩)
      exact ⟨next, _, (w, false), meet_eq_ok_iff.2 ⟨hrequire, htake⟩, (next, n), hrest, rfl⟩
    | false =>
      have habsorb := h.absorb ht hpass
      have hfalse : v.trail.isFalse l = true := by
        unfold passesOver at hpass
        rw [Bool.or_eq_false_iff] at hpass
        rcases hls l List.mem_cons_self with hseen | hfalse
        · rw [hseen] at hpass
          cases hpass.1
        · exact hfalse
      obtain ⟨next, n, hrest⟩ := ih habsorb fun x hx =>
        (hls x (List.mem_cons_of_mem _ hx)).imp_left
          (h.isSeen_mono habsorb (List.subset_append_left _ _))
      have htake : (take v w l).result = .ok (w.absorb v.trail l, _) :=
        take_eq_ok_iff.2 (Or.inr ⟨hpass, Or.inr hfalse, rfl, rfl⟩)
      exact ⟨next, _, (w.absorb v.trail l, _), meet_eq_ok_iff.2 ⟨hrequire, htake⟩, (next, n), hrest,
        rfl⟩

/-- Resolving with a stored clause meets its literals and remembers it for a stamp. -/
theorem meets_of_resolve {c : ClauseId} {clause : Clause} (ht : v.trail.WellFormed)
    (hs : v.clauses.Stampable v.options) (h : Tracks v.trail w)
    (hpending : w.activity.Pending v.clauses) (hc : v.clauses.get? c = some clause)
    (hok : (w.resolve v c clause).result = .ok (next, n)) :
    (∃ a, Meets v.trail { w with activity := a } clause.literals next n) ∧
      next.activity.Pending v.clauses := by
  unfold resolve at hok
  rw [Traced.result_bind_eq_ok_iff] at hok
  obtain ⟨a, hmark, hok⟩ := hok
  have hmeets := meets_of_result ht (h.withActivity a) hok
  refine ⟨⟨a, hmeets⟩, ?_⟩
  rw [hmeets.activity_eq]
  exact Activity.pending_mark hs hc hpending hmark

/-- A clause whose literals were met or are false can be resolved with. -/
theorem exists_resolve {c : ClauseId} {clause : Clause} (ht : v.trail.WellFormed)
    (hs : v.clauses.Stampable v.options) (h : Tracks v.trail w)
    (hc : v.clauses.get? c = some clause)
    (hls : ∀ l ∈ clause.literals, w.isSeen l.var = true ∨ v.trail.isFalse l = true) :
    ∃ next n, (w.resolve v c clause).result = .ok (next, n) := by
  obtain ⟨a, hmark⟩ := Activity.exists_mark hs hc w.activity v.audit
  obtain ⟨next, n, hmeet⟩ := exists_meetAll ht (h.withActivity a) hls
  unfold resolve
  exact ⟨next, n, Traced.result_bind_eq_ok_iff.2 ⟨a, hmark, hmeet⟩⟩

end Workspace

end ClauseLearning
