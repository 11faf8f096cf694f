import ClauseLearning.Proofs.Conflict.Exactness

/-!
# Every reason is explored once

The search for removable literals asks questions: whether a literal is implied, at a depth, given
the verdicts reached so far. A question is answered at once, or the reason of its literal is looked
through, which asks further questions and ends with a verdict. A verdict is noted only at the end,
so that a question asked meanwhile does not find it. Reasons do not go round in circles, though:
what is asked meanwhile is about earlier variables, and so are the verdicts reached. When the
verdict is noted it is the first one on its variable, and from then on it answers every question at
once.

So the list of verdicts has no variable twice, no verdict contradicts another one, and the reasons
looked through are those of the variables listed, in the same order. A reason is looked through only
at a depth that the budget allows, and the questions that it asks are one step deeper.
-/

set_option autoImplicit false

namespace ClauseLearning

/-- The variable on which an event tells that a verdict was reached, after its reason was looked
through. -/
def Event.exploration? : Event → Option Variable
  | minimised l _ _ => some l.var
  | _ => none

/-- The variables whose reasons a computation told that it looked through, in this order. -/
def Traced.explorations {α : Type} (m : Traced α) : List Variable := m.told Event.exploration?

/-- The clauses that are recorded as reasons. -/
def View.reasons (v : View) : Formula :=
  v.trail.entries.filterMap fun l =>
    (v.trail.reason l.var).bind fun c => (v.clauses.get? c).map Clause.literals

/-- What is assumed of a clause that is false: its negated literals, and the literals that are fixed
at the root. -/
def View.assumptions (v : View) (clause : List Literal) : List Literal :=
  clause.map Literal.negate ++ v.trail.entries.filter fun l => v.trail.level l.var == 0

namespace Workspace

variable {v : View} {w₀ w mid next : Workspace}

/-! ## Questions -/

/-- A question that the search asks: whether a literal is implied, at a depth, when the reasons may
be looked through on some more levels, and with the verdicts that the question finds. -/
structure Question where
  budget : Nat
  depth : Nat
  found : Workspace
  literal : Literal

/-- How a question is answered. -/
def Question.answer (v : View) (q : Question) : Traced (Workspace × Bool) :=
  isRemovable v q.budget q.depth q.found q.literal

/-- Whether a reason is looked through to answer a question. -/
def Question.explores (v : View) (q : Question) : Bool :=
  decide (0 < q.budget) && match q.found.verdict v q.depth q.literal with
    | .ok (.undecided _) => true
    | _ => false

/-- The questions that a test of one literal after the other asks, as long as the answers are such
that it goes on. -/
def questionsOfEach (test : Workspace → Literal → Traced (Workspace × Bool))
    (questions : Workspace → Literal → List Question) (goesOn : Bool → Bool) (w : Workspace) :
    List Literal → List Question
  | [] => []
  | l :: ls => questions w l ++ match (test w l).result with
    | .ok (next, passes) =>
      if goesOn passes then questionsOfEach test questions goesOn next ls else []
    | .error _ => []

/-- All questions that are asked to answer one, which is the first of them. -/
def questions (v : View) : Nat → Nat → Workspace → Literal → List Question
  | 0, depth, w, l => [⟨0, depth, w, l⟩]
  | budget + 1, depth, w, l => ⟨budget + 1, depth, w, l⟩ :: match w.verdict v depth l with
    | .ok (.undecided reason) => questionsOfEach (isRemovable v budget (depth + 1))
        (questions v budget (depth + 1)) id w (premises reason l)
    | _ => []

/-- All questions that are asked to shrink a clause. -/
def questionsOfClause (v : View) (maxDepth : Nat) (w : Workspace) (ls : List Literal) :
    List Question :=
  questionsOfEach (isRemovable v (maxDepth + 1) 0) (questions v (maxDepth + 1) 0) (fun _ => true) w
    (ls.map Literal.negate)

/-- The variables whose reasons are looked through to answer some questions. -/
def explored (v : View) (qs : List Question) : List Variable :=
  (qs.filter (Question.explores v)).map fun q => q.literal.var

/-- What is explored for several questions is explored for one after the other. -/
theorem explored_append (v : View) (qs qs' : List Question) :
    explored v (qs ++ qs') = explored v qs ++ explored v qs' := by
  simp [explored]

/-! ## Verdicts -/

/-- The verdicts reached are one on each variable listed, and each is kept. -/
structure Memo (v : View) (w₀ w : Workspace) : Prop extends Judges v w₀ w where
  marked : ∀ x ∈ w.minimised, (w.marksOf x).poison = true ∨ w.isRemoved x = true
  exclusive : ∀ x, (w.marksOf x).poison = true → w.isRemoved x = false
  nodup : w.minimised.Nodup

/-- A clause waits to be shrunk: its literals are false, the literals met below the current level
are among them, and no verdict was reached yet. -/
structure Awaits (v : View) (w : Workspace) : Prop where
  trail : v.trail.WellFormed
  justified : v.trail.Justified v.clauses
  size_marks : w.marks.size = v.trail.numVariables
  no_verdict : ∀ x, (w.marksOf x).poison = false ∧ (w.marksOf x).removable = false
  minimised_eq : w.minimised = []
  falsified : ∀ l ∈ w.learned, v.trail.isFalse l = true
  mem_learned : ∀ l, v.trail.isFalse l = true → w.isSeen l.var = true →
    v.trail.level l.var < v.trail.currentLevel → l ∈ w.learned

/-- Before the first question the memo is empty. -/
theorem Awaits.memo (h : Awaits v w) : Memo v w w where
  toJudges := .start v h.no_verdict h.minimised_eq
  marked := by simp [h.minimised_eq]
  exclusive := fun x _ => (h.no_verdict x).2
  nodup := by simp [h.minimised_eq]

/-- The variables that are listed are those that are marked. -/
theorem Memo.mem_minimised_iff (h : Memo v w₀ w) (x : Variable) :
    x ∈ w.minimised ↔ (w.marksOf x).poison = true ∨ w.isRemoved x = true :=
  ⟨h.marked x, h.listed x⟩

/-- A question that is left open finds no verdict on its variable. -/
theorem of_undecided {depth : Nat} {l : Literal} {reason : Clause}
    (hok : w.verdict v depth l = .ok (.undecided reason)) :
    (w.marksOf l.var).poison = false ∧ w.isRemoved l.var = false ∧
      ∃ c, v.trail.reason l.var = some c ∧ v.clauses.get? c = some reason := by
  obtain ⟨-, -, hok⟩ := assess_of_verdict hok
  unfold assess at hok
  split at hok
  next => cases hok
  next himplied =>
    cases hr : v.trail.reason l.var with
    | none =>
      rw [hr] at hok
      cases hok
    | some c =>
      rw [hr] at hok
      obtain ⟨clause, hget, hok⟩ := Fault.bind_eq_ok_iff.1 hok
      cases hneeded : w.isNeeded v.trail depth l.var with
      | true => simp [hneeded] at hok
      | false =>
        simp only [hneeded, Bool.false_eq_true, if_false, Except.ok.injEq,
          Verdict.undecided.injEq] at hok
        subst hok
        refine ⟨?_, ?_, c, rfl, ClauseStore.get_eq_ok_iff.1 hget⟩
        · unfold isNeeded at hneeded
          simp only [Bool.or_eq_false_iff] at hneeded
          exact hneeded.1.1.1
        · unfold isImplied at himplied
          simp only [Bool.or_eq_true, not_or] at himplied
          simpa [isRemoved] using himplied.1.2

/-- A first verdict on a variable is noted. -/
theorem Memo.conclude (h : Memo v w₀ w) {x : Variable} {removable : Bool}
    (hx : x < w.marks.size) (hfresh : x ∉ w.minimised)
    (hjudges : Judges v w₀ (w.conclude x removable)) : Memo v w₀ (w.conclude x removable) := by
  have hunmarked : (w.marksOf x).poison = false ∧ w.isRemoved x = false := by
    rw [h.mem_minimised_iff] at hfresh
    simpa using hfresh
  refine ⟨hjudges, ?_, ?_, ?_⟩
  · intro y hy
    unfold isRemoved
    rw [marksOf_conclude hx]
    by_cases hxy : x = y
    · cases removable <;> simp [hxy]
    · rw [if_neg hxy]
      rcases List.mem_append.1 hy with hy | hy
      · exact h.marked y hy
      · exact absurd (List.mem_singleton.1 hy).symm hxy
  · intro y
    unfold isRemoved
    rw [marksOf_conclude hx]
    by_cases hxy : x = y
    · subst hxy
      unfold isRemoved at hunmarked
      cases removable <;> simp [hunmarked]
    · rw [if_neg hxy]
      exact h.exclusive y
  · show (w.minimised ++ [x]).Nodup
    apply h.nodup.append (List.nodup_singleton x)
    simpa using hfresh

/-! ## Inquiries -/

/-- A question that is asked in the course of a search: it finds one verdict on each variable
listed, it is about a true literal, and with its depth the budget decreases. -/
structure Question.Sound (v : View) (w₀ : Workspace) (limit : Nat) (q : Question) : Prop where
  memo : Memo v w₀ q.found
  isTrue : v.trail.isTrue q.literal = true
  depth_add : q.depth + q.budget = limit

/-- What is asked about is assigned, so its variable exists. -/
theorem Question.Sound.lt_numVariables {limit : Nat} {q : Question} (h : q.Sound v w₀ limit) :
    q.literal.var < v.trail.numVariables :=
  Trail.lt_numVariables_of_isAssigned (Trail.isAssigned_of_isTrue h.isTrue)

/-- Questions were asked, and verdicts were reached one after the other on variables in front of a
place of the trail, whose reasons are those that were looked through. -/
structure Inquires (v : View) (w₀ : Workspace) (limit : Nat) (w : Workspace) (bound : Nat)
    (qs : List Question) (xs : List Variable) (next : Workspace) : Prop where
  memo : Memo v w₀ next
  minimised_eq : next.minimised = w.minimised ++ xs
  perm : (explored v qs).Perm xs
  before : ∀ x ∈ xs, v.trail.position x < bound
  sound : ∀ q ∈ qs, q.Sound v w₀ limit

namespace Inquires

variable {limit bound : Nat} {qs qs' : List Question} {xs xs' : List Variable}

/-- Asking nothing explores nothing. -/
theorem nil (h : Memo v w₀ w) (limit bound : Nat) : Inquires v w₀ limit w bound [] [] w where
  memo := h
  minimised_eq := by simp
  perm := by simp [explored]
  before := by simp
  sound := by simp

/-- Questions asked one after the other explore what each of them explores. -/
theorem append (h : Inquires v w₀ limit w bound qs xs mid)
    (h' : Inquires v w₀ limit mid bound qs' xs' next) :
    Inquires v w₀ limit w bound (qs ++ qs') (xs ++ xs') next where
  memo := h'.memo
  minimised_eq := by rw [h'.minimised_eq, h.minimised_eq, List.append_assoc]
  perm := by
    rw [explored_append]
    exact h.perm.append h'.perm
  before := by
    intro x hx
    rcases List.mem_append.1 hx with hx | hx
    · exact h.before x hx
    · exact h'.before x hx
  sound := by
    intro q hq
    rcases List.mem_append.1 hq with hq | hq
    · exact h.sound q hq
    · exact h'.sound q hq

/-- A question that is answered at once changes nothing. -/
theorem settled {q : Question} (hq : q.Sound v w₀ limit) (hsettled : q.explores v = false)
    (bound : Nat) : Inquires v w₀ limit q.found bound [q] [] q.found where
  memo := hq.memo
  minimised_eq := by simp
  perm := by simp [explored, hsettled]
  before := by simp
  sound := by simpa using hq

/-- A question whose reason is looked through leads to the first verdict on its variable, as the
verdicts reached meanwhile are on earlier variables. -/
theorem conclude {q : Question} {removable : Bool} (hq : q.Sound v w₀ limit)
    (hexplores : q.explores v = true) (hsize : w₀.marks.size = v.trail.numVariables)
    (hbound : v.trail.position q.literal.var < bound) (hfresh : q.literal.var ∉ q.found.minimised)
    (h : Inquires v w₀ limit q.found (v.trail.position q.literal.var) qs xs mid)
    (hjudges : Judges v w₀ (mid.conclude q.literal.var removable)) :
    Inquires v w₀ limit q.found bound (q :: qs) (xs ++ [q.literal.var])
      (mid.conclude q.literal.var removable) where
  memo := by
    apply h.memo.conclude _ _ hjudges
    · rw [h.memo.size_eq, hsize]
      exact hq.lt_numVariables
    · -- the verdicts reached since the question are on variables assigned before its own
      intro hmem
      rw [h.minimised_eq, List.mem_append] at hmem
      rcases hmem with hmem | hmem
      · exact hfresh hmem
      · exact Nat.lt_irrefl _ (h.before _ hmem)
  minimised_eq := by
    show mid.minimised ++ [q.literal.var] = _
    rw [h.minimised_eq, List.append_assoc]
  perm := by
    have hcons : explored v (q :: qs) = q.literal.var :: explored v qs := by
      simp [explored, hexplores]
    rw [hcons]
    exact (h.perm.cons _).trans (List.perm_append_singleton _ _).symm
  before := by
    intro x hx
    rcases List.mem_append.1 hx with hx | hx
    · exact Nat.lt_trans (h.before x hx) hbound
    · rw [List.mem_singleton.1 hx]
      exact hbound
  sound := by
    intro r hr
    rcases List.mem_cons.1 hr with rfl | hr
    · exact hq
    · exact h.sound r hr

end Inquires

/-- A list is inquired about by its tests, one after the other, until one fails. -/
theorem allPass_inquires {test : Workspace → Literal → Traced (Workspace × Bool)}
    {questions : Workspace → Literal → List Question} {limit bound : Nat} {ls : List Literal}
    (htest : ∀ l ∈ ls, ∀ w next passes, Memo v w₀ w → (test w l).result = .ok (next, passes) →
      Inquires v w₀ limit w bound (questions w l) (test w l).explorations next)
    (h : Memo v w₀ w) {passes : Bool} (hok : (allPass test w ls).result = .ok (next, passes)) :
    Inquires v w₀ limit w bound (questionsOfEach test questions id w ls)
      (allPass test w ls).explorations next := by
  induction ls generalizing w with
  | nil =>
    obtain ⟨rfl, rfl⟩ := Prod.mk.inj (Except.ok.inj hok)
    exact .nil h limit bound
  | cons l ls ih =>
    rw [allPass] at hok ⊢
    obtain ⟨⟨mid, first⟩, hfirst, hok⟩ := Traced.result_bind_eq_ok_iff.1 hok
    have hhead := htest l List.mem_cons_self w mid first h hfirst
    rw [Traced.explorations, Traced.told_bind hfirst, questionsOfEach, hfirst]
    cases first with
    | false =>
      obtain ⟨rfl, rfl⟩ := Prod.mk.inj (Except.ok.inj hok)
      exact hhead.append (.nil hhead.memo limit bound)
    | true =>
      apply hhead.append
      exact ih (fun k hk => htest k (List.mem_cons_of_mem l hk)) hhead.memo hok

/-- Of a reason that is looked through, the literals asked about are true, and they were assigned
before the literal that the reason implies. -/
theorem of_mem_premises {c : ClauseId} {reason : Clause} {l m : Literal}
    (he : v.trail.Justified v.clauses) (hl : v.trail.isTrue l = true)
    (hr : v.trail.reason l.var = some c) (hc : v.clauses.get? c = some reason)
    (hm : m ∈ premises reason l) :
    v.trail.isTrue m = true ∧ v.trail.position m.var < v.trail.position l.var := by
  obtain ⟨k, hk, hkl, rfl⟩ := mem_premises.1 hm
  have hrest := (he.of_get? hl hr hc).2 k hk hkl
  rw [Trail.isTrue_negate]
  exact hrest

/-- How a question is answered: at once, or by a verdict that is reached after its reason was looked
through, which asks about the premises one level deeper. -/
inductive Question.Answered (v : View) (q : Question) (next : Workspace) (passes : Bool) :
    Prop where
  | atOnce : q.explores v = false → next = q.found → (q.answer v).explorations = [] →
      questions v q.budget q.depth q.found q.literal = [q] → Answered v q next passes
  | byReason {budget : Nat} {reason : Clause} {mid : Workspace} : q.budget = budget + 1 →
      q.found.verdict v q.depth q.literal = .ok (.undecided reason) →
      (allPass (isRemovable v budget (q.depth + 1)) q.found (premises reason q.literal)).result =
        .ok (mid, passes) →
      next = mid.conclude q.literal.var passes →
      (q.answer v).explorations = (allPass (isRemovable v budget (q.depth + 1)) q.found
        (premises reason q.literal)).explorations ++ [q.literal.var] →
      questions v q.budget q.depth q.found q.literal = q ::
        questionsOfEach (isRemovable v budget (q.depth + 1)) (questions v budget (q.depth + 1)) id
          q.found (premises reason q.literal) →
      Answered v q next passes

/-- Whatever answer a question gets, it is answered in one of the ways there are. -/
theorem answered_of_answer {q : Question} {passes : Bool}
    (hok : (q.answer v).result = .ok (next, passes)) : q.Answered v next passes := by
  obtain ⟨budget, depth, w, l⟩ := q
  unfold Question.answer isRemovable at hok
  obtain ⟨verdict, hverdict, hok⟩ := Traced.result_bind_eq_ok_iff.1 hok
  have hgiven : w.verdict v depth l = .ok verdict := hverdict
  cases verdict with
  | settled removable =>
    obtain ⟨rfl, rfl⟩ := Prod.mk.inj (Except.ok.inj hok)
    apply Question.Answered.atOnce
    · simp [Question.explores, hgiven]
    · rfl
    · unfold Question.answer isRemovable Traced.explorations
      rw [Traced.told_bind hverdict]
      simp
    · cases budget <;> simp [questions, hgiven]
  | undecided reason =>
    cases budget with
    | zero =>
      obtain ⟨rfl, rfl⟩ := Prod.mk.inj (Except.ok.inj hok)
      apply Question.Answered.atOnce
      · simp [Question.explores]
      · rfl
      · unfold Question.answer isRemovable Traced.explorations
        rw [Traced.told_bind hverdict]
        simp
      · simp [questions]
    | succ budget =>
      obtain ⟨⟨mid, removable⟩, hall, hok⟩ := Traced.result_bind_eq_ok_iff.1 hok
      obtain ⟨_, htell, hok⟩ := Traced.result_bind_eq_ok_iff.1 hok
      obtain ⟨rfl, rfl⟩ := Prod.mk.inj (Except.ok.inj hok)
      refine Question.Answered.byReason rfl hgiven hall rfl ?_ ?_
      · unfold Question.answer isRemovable Traced.explorations
        rw [Traced.told_bind hverdict, Traced.told_bind hall, Traced.told_bind htell]
        rfl
      · simp [questions, hgiven]

/-- What a search does. The induction is on the budget, as in the search. -/
theorem Awaits.answer_inquires (ha : Awaits v w₀) {limit bound : Nat} {q : Question}
    (hq : q.Sound v w₀ limit) (hbound : v.trail.position q.literal.var < bound) {passes : Bool}
    (hok : (q.answer v).result = .ok (next, passes)) :
    Inquires v w₀ limit q.found bound (questions v q.budget q.depth q.found q.literal)
      (q.answer v).explorations next := by
  induction hbudget : q.budget generalizing q next passes bound with
  | zero =>
    cases answered_of_answer hok with
    | atOnce hsettled hnext htold hasked =>
      rw [← hbudget, htold, hasked, hnext]
      exact .settled hq hsettled bound
    | byReason hsucc => omega
  | succ budget ih =>
    have hjudges := ((isRemovable_yields ha.trail ha.justified ha.size_marks q.budget q.depth
      hq.lt_numVariables hq.memo.toJudges).of_result hok).1
    rw [← hbudget]
    cases answered_of_answer hok with
    | atOnce hsettled hnext htold hasked =>
      rw [htold, hasked, hnext]
      exact .settled hq hsettled bound
    | @byReason budget' reason mid hsucc hopen hall hnext htold hasked =>
      obtain rfl : budget' = budget := by omega
      obtain ⟨hpoison, hremoved, c, hr, hc⟩ := of_undecided hopen
      have hexplores : q.explores v = true := by simp [Question.explores, hopen, hsucc]
      have hfresh : q.literal.var ∉ q.found.minimised := by
        rw [hq.memo.mem_minimised_iff]
        simp [hpoison, hremoved]
      rw [hnext] at hjudges
      rw [htold, hasked, hnext]
      apply Inquires.conclude hq hexplores ha.size_marks hbound hfresh _ hjudges
      apply allPass_inquires _ hq.memo hall
      -- each premise is asked about one level deeper, with one level less to go
      intro m hm w' next' passes' hw' hok'
      obtain ⟨htrue, hbefore⟩ := of_mem_premises ha.justified hq.isTrue hr hc hm
      have hdepth := hq.depth_add
      have hsound : Question.Sound v w₀ limit ⟨budget', q.depth + 1, w', m⟩ :=
        ⟨hw', htrue, by simp only; omega⟩
      exact ih hsound hbefore hok' rfl

/-- What the searches for all literals of a clause do, whatever their answers are. -/
theorem Awaits.keepNeeded_inquires (ha : Awaits v w₀) {maxDepth : Nat} {ls kept : List Literal}
    (hfalse : ∀ l ∈ ls, v.trail.isFalse l = true) (h : Memo v w₀ w)
    (hok : (keepNeeded v maxDepth w ls).result = .ok (next, kept)) :
    Inquires v w₀ (maxDepth + 1) w v.trail.length (questionsOfClause v maxDepth w ls)
      (keepNeeded v maxDepth w ls).explorations next := by
  induction ls generalizing w kept with
  | nil =>
    obtain ⟨rfl, rfl⟩ := Prod.mk.inj (Except.ok.inj hok)
    exact .nil h _ _
  | cons l ls ih =>
    rw [keepNeeded] at hok ⊢
    obtain ⟨⟨mid, removable⟩, hfirst, hok⟩ := Traced.result_bind_eq_ok_iff.1 hok
    obtain ⟨⟨_, rest⟩, hrest, hok⟩ := Traced.result_bind_eq_ok_iff.1 hok
    obtain ⟨rfl, rfl⟩ := Prod.mk.inj (Except.ok.inj hok)
    have htrue : v.trail.isTrue l.negate = true := by
      rw [Trail.isTrue_negate]
      exact hfalse l List.mem_cons_self
    have hsound : Question.Sound v w₀ (maxDepth + 1) ⟨maxDepth + 1, 0, w, l.negate⟩ :=
      ⟨h, htrue, Nat.zero_add _⟩
    have hbound := ha.trail.position_lt (Trail.isAssigned_of_isTrue htrue)
    have hhead := ha.answer_inquires hsound hbound hfirst
    have hboth := hhead.append
      (ih (fun k hk => hfalse k (List.mem_cons_of_mem l hk)) hhead.memo hrest)
    rw [Traced.explorations, Traced.told_bind hfirst, Traced.told_bind hrest, questionsOfClause,
      List.map_cons, questionsOfEach, hfirst]
    simpa [Traced.explorations, Question.answer, questionsOfClause] using hboth

/-! ## What the verdicts mean -/

/-- The reason of a true literal is among the reasons of the trail. -/
theorem mem_reasons {c : ClauseId} {reason : Clause} {l : Literal} (ht : v.trail.WellFormed)
    (hl : v.trail.isTrue l = true) (hr : v.trail.reason l.var = some c)
    (hc : v.clauses.get? c = some reason) : reason.literals ∈ v.reasons := by
  apply List.mem_filterMap.2
  exact ⟨l, ht.isTrue_iff_mem.1 hl, by simp [hr, hc]⟩

/-- A false literal that is fixed at the root or that belongs to the clause is refuted by the
assumptions. -/
theorem mem_assumptions {clause : List Literal} {k : Literal} (ht : v.trail.WellFormed)
    (hk : v.trail.isFalse k = true) (h : v.trail.level k.var = 0 ∨ k ∈ clause) :
    k.negate ∈ v.assumptions clause := by
  unfold View.assumptions
  rcases h with hroot | hmem
  · apply List.mem_append_right
    simp only [List.mem_filter, beq_iff_eq]
    exact ⟨ht.isTrue_iff_mem.1 (Trail.isTrue_negate.trans hk), hroot⟩
  · apply List.mem_append_left
    exact List.mem_map_of_mem hmem

/-- A variable is implied by its reason: unit propagation over the reasons, from the negated
literals of the clause and the literals of the root, falsifies the other literals of the reason, and
so it makes the literal of the variable true that is true on the trail. -/
structure ImpliedBy (v : View) (clause : List Literal) (l : Literal) (reason : List Literal) :
    Prop where
  isTrue : v.trail.isTrue l = true
  mem_reasons : reason ∈ v.reasons
  mem_reason : l ∈ reason
  falsified : ∀ k ∈ reason, k ≠ l → Propagated v.reasons (v.assumptions clause) k.negate
  propagated : Propagated v.reasons (v.assumptions clause) l

/-- Every variable marked as removable is implied by its reason. The induction is on the position,
as the literals of a reason stand before the literal that it implies. -/
theorem Awaits.exists_impliedBy (ha : Awaits v w₀) (h : Memo v w₀ w) {x : Variable}
    (hx : w.isRemoved x = true) :
    ∃ l reason, l.var = x ∧ ImpliedBy v w₀.learned l reason := by
  induction hposition : v.trail.position x using Nat.strongRecOn generalizing x with
  | ind i ih =>
    subst hposition
    obtain ⟨hlevel, c, reason, hr, hc, hrest⟩ := h.supported x hx
    obtain ⟨l, rfl, hl⟩ := Trail.WellFormed.exists_isTrue (ha.trail.isAssigned_of_reason hr)
    have hmem := mem_reasons ha.trail hl hr hc
    have hin := (ha.justified.of_get? hl hr hc).1
    have hfalsified : ∀ k ∈ reason.literals, k ≠ l →
        Propagated v.reasons (v.assumptions w₀.learned) k.negate := by
      intro k hk hkl
      obtain ⟨hfalse, hbefore⟩ := (ha.justified.of_get? hl hr hc).2 k hk hkl
      have htrue : v.trail.isTrue k.negate = true := Trail.isTrue_negate.trans hfalse
      rcases hrest k hk (ha.justified.var_ne hl hr hc hk hkl) with hroot | hseen | hremoved
      · exact .assumption (mem_assumptions ha.trail hfalse (Or.inl hroot))
      · -- met below the current level, so it belongs to the clause
        have hmono := ha.trail.level_mono (Trail.isAssigned_of_isFalse hfalse)
          (Trail.isAssigned_of_isTrue hl) (Nat.le_of_lt hbefore)
        have hle := ha.trail.level_le l.var
        have hlower : v.trail.level k.var < v.trail.currentLevel := by omega
        rw [h.seen_eq] at hseen
        have hclause := ha.mem_learned k hfalse hseen hlower
        exact .assumption (mem_assumptions ha.trail hfalse (Or.inr hclause))
      · obtain ⟨m, _, hvar, himplied⟩ := ih _ hbefore hremoved rfl
        rw [← Trail.eq_of_isTrue himplied.isTrue htrue hvar]
        exact himplied.propagated
    exact ⟨l, reason.literals, rfl, hl, hmem, hin, hfalsified, .unit hmem hin hfalsified⟩

/-- The verdicts in a workspace agree with each other: one was reached on each variable listed, it
is either that the variable is needed or that it is removable, and in the second case the variable
is implied. -/
structure Consistent (v : View) (clause : List Literal) (w : Workspace) : Prop where
  nodup : w.minimised.Nodup
  mem_minimised_iff : ∀ x, x ∈ w.minimised ↔
    (w.marksOf x).poison = true ∨ (w.marksOf x).removable = true
  exclusive : ∀ x, ¬ ((w.marksOf x).poison = true ∧ (w.marksOf x).removable = true)
  implied : ∀ x, (w.marksOf x).removable = true →
    ∃ l reason, l.var = x ∧ ImpliedBy v clause l reason

/-- The verdicts kept in the memo agree with what the reasons say. -/
theorem Awaits.consistent (ha : Awaits v w₀) (h : Memo v w₀ w) : Consistent v w₀.learned w where
  nodup := h.nodup
  mem_minimised_iff := h.mem_minimised_iff
  exclusive := by
    rintro x ⟨hpoison, hremovable⟩
    have hkept := h.exclusive x hpoison
    unfold isRemoved at hkept
    rw [hremovable] at hkept
    cases hkept
  implied := fun _ hx => ha.exists_impliedBy h hx

/-- Minimisation explores every reason at most once. It succeeds; the reasons that it tells that it
looked through are those of different variables, the ones on which a verdict was reached in the end,
and they are the reasons that its questions explore. No question is asked at a depth beyond the
limit, and both the workspace that a question finds and the one that it leaves are consistent. -/
structure ExploresOnce (v : View) (maxDepth : Nat) (w : Workspace) : Prop where
  succeeds : ∃ decided kept, (w.keepNeeded v maxDepth w.learned).result = .ok (decided, kept) ∧
    (w.minimise v maxDepth w.learned).result = .ok (w, kept) ∧ Consistent v w.learned decided ∧
    decided.minimised = (w.minimise v maxDepth w.learned).explorations
  nodup : (w.minimise v maxDepth w.learned).explorations.Nodup
  perm : (explored v (questionsOfClause v maxDepth w w.learned)).Perm
    (w.minimise v maxDepth w.learned).explorations
  depth_le : ∀ q ∈ questionsOfClause v maxDepth w w.learned, q.depth ≤ maxDepth + 1
  consistent : ∀ q ∈ questionsOfClause v maxDepth w w.learned, Consistent v w.learned q.found ∧
    (q.answer v).Yields fun (left, _) => Consistent v w.learned left

/-- Minimisation tells that it looked through the reasons that the searches look through. -/
theorem explorations_minimise {maxDepth : Nat} {ls kept : List Literal}
    (hok : (w.keepNeeded v maxDepth ls).result = .ok (next, kept)) :
    (w.minimise v maxDepth ls).explorations = (w.keepNeeded v maxDepth ls).explorations := by
  have hrest : (do
      next.requireAll next.minimised
      Traced.tell (.minimisationRemoved (ls.length - kept.length))
      return (next.clearVerdicts, kept) : Traced (Workspace × List Literal)).told
        Event.exploration? = [] :=
    Traced.told_bind_eq_nil rfl fun _ => Traced.told_bind_eq_nil rfl fun _ => rfl
  unfold minimise Traced.explorations
  rw [Traced.told_bind hok, hrest, List.append_nil]

/-- Minimising a clause that waits for it explores every reason at most once. -/
theorem Awaits.exploresOnce (ha : Awaits v w) (maxDepth : Nat) : ExploresOnce v maxDepth w := by
  have hknown : ∀ l ∈ w.learned, l.var < v.trail.numVariables := fun l hl =>
    Trail.lt_numVariables_of_isAssigned (Trail.isAssigned_of_isFalse (ha.falsified l hl))
  obtain ⟨⟨next, kept⟩, hminimise, hnext, -⟩ := minimise_yields ha.trail ha.justified
    ha.size_marks ha.no_verdict ha.minimised_eq maxDepth hknown
  subst hnext
  obtain ⟨⟨decided, rest⟩, hkeep, hend⟩ := Traced.result_bind_eq_ok_iff.1 hminimise
  obtain ⟨_, -, hend⟩ := Traced.result_bind_eq_ok_iff.1 hend
  obtain ⟨_, -, hend⟩ := Traced.result_bind_eq_ok_iff.1 hend
  obtain rfl : rest = kept := (Prod.mk.inj (Except.ok.inj hend)).2
  have hinquires := ha.keepNeeded_inquires ha.falsified ha.memo hkeep
  have hlisted := hinquires.minimised_eq
  rw [ha.minimised_eq, List.nil_append, ← explorations_minimise hkeep] at hlisted
  constructor
  case succeeds => exact ⟨decided, rest, hkeep, hminimise, ha.consistent hinquires.memo, hlisted⟩
  case nodup =>
    rw [← hlisted]
    exact hinquires.memo.nodup
  case perm =>
    rw [explorations_minimise hkeep]
    exact hinquires.perm
  case depth_le =>
    intro q hq
    have hdepth := (hinquires.sound q hq).depth_add
    omega
  case consistent =>
    intro q hq
    have hsound := hinquires.sound q hq
    constructor
    · exact ha.consistent hsound.memo
    · obtain ⟨⟨left, removable⟩, hanswer, -⟩ := isRemovable_yields ha.trail ha.justified
        ha.size_marks q.budget q.depth hsound.lt_numVariables hsound.memo.toJudges
      have hleft := ha.answer_inquires hsound (Nat.lt_succ_self _) hanswer
      exact ⟨(left, removable), hanswer, ha.consistent hleft.memo⟩

end Workspace

end ClauseLearning
