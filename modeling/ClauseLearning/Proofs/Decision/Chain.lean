import ClauseLearning.Decision.Queue
import Mathlib.Data.List.Basic
import Mathlib.Data.List.Perm.Subperm
import Mathlib.Tactic.Common

/-!
# The links of the decision queue

The links of a queue *chain* a list of variables if every variable of the list is linked with its
two neighbours and no other variable has links. Linking in at the front and linking out do to that
list what their names say, and the walk from the front reads the list off.
-/

set_option autoImplicit false

namespace ClauseLearning

namespace DecisionQueue

/-- The links of the queue form the list of the queued variables, from the front to the back; other
variables have no links. -/
structure Chains (q : DecisionQueue) (vs : List Variable) : Prop where
  nodup : vs.Nodup
  known : ∀ v ∈ vs, v < q.links.size
  front : q.front = vs.head?
  linked : ∀ before v after, vs = before ++ v :: after →
    q.linksOf v = { older := after.head?, newer := before.getLast? }
  apart : ∀ v, v ∉ vs → q.linksOf v = {}

/-- The links of a variable in an arena. -/
def linksIn (links : Arena Links) (v : Variable) : Links := (links.get? v).getD {}

/-- Writing links changes those of one variable. -/
theorem linksIn_set {links : Arena Links} {v : Variable} (hv : v < links.size) (x : Links)
    (w : Variable) : linksIn (links.set v x) w = if v = w then x else linksIn links w := by
  unfold linksIn
  rw [Arena.get?_set]
  by_cases h : v = w
  · subst h
    simp [hv]
  · simp [h]

/-- Changing links changes those of one variable. -/
theorem linksIn_modify {links : Arena Links} {v : Variable} (hv : v < links.size)
    (f : Links → Links) (w : Variable) :
    linksIn (links.modify v f) w = if v = w then f (linksIn links w) else linksIn links w := by
  unfold linksIn
  rw [Arena.get?_modify]
  by_cases h : v = w
  · subst h
    cases hl : links.get? v with
    | none => exact absurd ((Arena.get?_eq_none_iff _ _).1 hl) (Nat.not_le.2 hv)
    | some l => simp
  · simp [h]

/-- Making room changes no links. -/
theorem linksIn_accommodate (links : Arena Links) (k w : Variable) :
    linksIn (links.accommodate k {}) w = linksIn links w := Arena.getD_accommodate links k {} w

/-- An empty queue chains nothing. -/
theorem chains_empty : ({} : DecisionQueue).Chains [] where
  nodup := List.nodup_nil
  known := by simp
  front := rfl
  linked := by
    intro before v after h
    simp at h
  apart := fun _ _ => rfl

namespace Chains

variable {q : DecisionQueue} {vs : List Variable}

/-- A queued variable splits the list. -/
theorem exists_split {v : Variable} (hv : v ∈ vs) : ∃ before after, vs = before ++ v :: after :=
  List.append_of_mem hv

/-- The test of the links tells which variables are queued. -/
theorem contains_iff (h : q.Chains vs) {v : Variable} : q.contains v = true ↔ v ∈ vs := by
  unfold contains
  constructor
  · intro hcontains
    by_contra hv
    rw [h.apart v hv, h.front] at hcontains
    cases vs with
    | nil => simp at hcontains
    | cons w vs => simp_all
  · intro hv
    obtain ⟨before, after, hsplit⟩ := exists_split hv
    rw [h.linked before v after hsplit, h.front]
    cases before with
    | nil => simp [hsplit]
    | cons w before => simp

/-- A variable is queued at most once, so there are at most as many as places. -/
theorem length_le (h : q.Chains vs) : vs.length ≤ q.links.size := by
  have hsub : vs ⊆ List.range q.links.size := fun v hv => List.mem_range.2 (h.known v hv)
  simpa using (List.subperm_of_subset h.nodup hsub).length_le

/-- The walk from a queued variable ends and gives the variables from there to the back. -/
theorem walk_eq (h : q.Chains vs) {before after : List Variable} (hsplit : vs = before ++ after)
    {steps : Nat} (hsteps : after.length ≤ steps) :
    walk q.links steps after.head? = .ok after := by
  induction after generalizing before steps with
  | nil => cases steps <;> rfl
  | cons v after ih =>
    cases steps with
    | zero => simp at hsteps
    | succ steps =>
      have hv : v < q.links.size := h.known v (by simp [hsplit])
      have hlinks := h.linked before v after hsplit
      unfold linksOf at hlinks
      cases hget : q.links.get? v with
      | none => exact absurd ((Arena.get?_eq_none_iff _ _).1 hget) (Nat.not_le.2 hv)
      | some l =>
        rw [hget, Option.getD_some] at hlinks
        have hrest := ih (show vs = (before ++ [v]) ++ after by simpa using hsplit)
          (Nat.le_of_succ_le_succ hsteps)
        simp [walk, linksAt_eq_ok_iff.2 hget, hlinks, hrest, bind, Except.bind]

/-- As many steps as there are variables suffice for every walk. -/
theorem walk_size_eq (h : q.Chains vs) {before after : List Variable}
    (hsplit : vs = before ++ after) : walk q.links q.links.size after.head? = .ok after := by
  apply h.walk_eq hsplit
  have hle := h.length_le
  rw [hsplit, List.length_append] at hle
  omega

/-- The walk from the front ends and gives all queued variables. -/
theorem walk_front_eq (h : q.Chains vs) : walk q.links q.links.size q.front = .ok vs := by
  rw [h.front]
  exact h.walk_size_eq (show vs = [] ++ vs from rfl)

/-- The list that the links chain is read off from the front. -/
theorem toList_eq (h : q.Chains vs) : q.toList = vs := by
  unfold toList listFrom
  rw [h.walk_front_eq]

/-- The list chained depends on the links and the front only. -/
theorem of_links_eq (h : q.Chains vs) {p : DecisionQueue} (hlinks : p.links = q.links)
    (hfront : p.front = q.front) : p.Chains vs where
  nodup := h.nodup
  known := hlinks ▸ h.known
  front := hfront ▸ h.front
  linked := by
    intro before v after hsplit
    unfold linksOf
    rw [hlinks]
    exact h.linked before v after hsplit
  apart := by
    intro v hv
    unfold linksOf
    rw [hlinks]
    exact h.apart v hv

/-- Room for more variables changes no link. -/
theorem accommodate (h : q.Chains vs) (k : Variable) :
    ({ q with links := q.links.accommodate k {} } : DecisionQueue).Chains vs where
  nodup := h.nodup
  known := by
    intro v hv
    show v < (q.links.accommodate k {}).size
    rw [Arena.size_accommodate]
    exact Nat.lt_of_lt_of_le (h.known v hv) (Nat.le_max_left _ _)
  front := h.front
  linked := by
    intro before v after hsplit
    exact (linksIn_accommodate q.links k v).trans (h.linked before v after hsplit)
  apart := by
    intro v hv
    exact (linksIn_accommodate q.links k v).trans (h.apart v hv)

/-- Linking a variable at the front takes no place. -/
theorem size_enqueue (q : DecisionQueue) (v : Variable) :
    (q.enqueue v).links.size = q.links.size := by
  unfold DecisionQueue.enqueue
  cases q.front <;> simp

/-- The variable linked in gets the old front behind it, and the old front gets it in front. -/
theorem linksOf_enqueue (h : q.Chains vs) {v : Variable} (hv : v ∉ vs) (hknown : v < q.links.size)
    (w : Variable) : (q.enqueue v).linksOf w =
      if v = w then { older := vs.head?, newer := none }
      else if vs.head? = some w then { q.linksOf w with newer := some v } else q.linksOf w := by
  show linksIn (q.enqueue v).links w = _
  unfold DecisionQueue.enqueue
  rw [h.front]
  cases vs with
  | nil => exact (linksIn_set hknown _ w).trans (by simp; rfl)
  | cons f vs =>
    have hf : f < q.links.size := h.known f (by simp)
    have hne : f ≠ v := fun heq => hv (by simp [heq])
    simp only [List.head?_cons, Option.some.injEq]
    rw [linksIn_modify (by simpa using hf), linksIn_set hknown]
    by_cases hfw : f = w
    · subst hfw
      simp [hne.symm]
      rfl
    · simp [hfw]
      rfl

/-- Linking in at the front puts the variable in front of the list. -/
theorem enqueue (h : q.Chains vs) {v : Variable} (hv : v ∉ vs) (hknown : v < q.links.size) :
    (q.enqueue v).Chains (v :: vs) := by
  refine ⟨List.nodup_cons.2 ⟨hv, h.nodup⟩, ?_, ?_, ?_, ?_⟩
  · intro w hw
    rw [size_enqueue]
    rcases List.mem_cons.1 hw with rfl | hw
    · exact hknown
    · exact h.known w hw
  · unfold DecisionQueue.enqueue
    rfl
  · intro before w after hsplit
    rw [h.linksOf_enqueue hv hknown]
    -- only the variable linked in and the old front have other neighbours than before
    cases before with
    | nil =>
      simp only [List.nil_append, List.cons.injEq] at hsplit
      obtain ⟨rfl, rfl⟩ := hsplit
      simp
    | cons b before =>
      simp only [List.cons_append, List.cons.injEq] at hsplit
      obtain ⟨rfl, hsplit⟩ := hsplit
      have hw : w ∈ vs := by simp [hsplit]
      have hne : v ≠ w := fun heq => hv (heq ▸ hw)
      rw [if_neg hne, h.linked before w after hsplit]
      cases before with
      | nil => simp [hsplit]
      | cons b before =>
        have hnodup := h.nodup
        rw [hsplit] at hnodup
        have hbw : b ≠ w := by
          rintro rfl
          simp at hnodup
        rw [if_neg (by simp [hsplit, hbw])]
        simp
  · intro w hw
    simp only [List.mem_cons, not_or] at hw
    rw [h.linksOf_enqueue hv hknown, if_neg (Ne.symm hw.1), h.apart w hw.2, if_neg]
    intro hhead
    exact hw.2 (List.mem_of_mem_head? hhead)

/-- Unlinking a variable takes no place. -/
theorem size_dequeue (q : DecisionQueue) (v : Variable) :
    (q.dequeue v).links.size = q.links.size := by
  unfold DecisionQueue.dequeue
  obtain ⟨older, newer⟩ := q.linksOf v
  cases older <;> cases newer <;> simp

/-- Unlinking a variable joins its neighbours and leaves the other links. -/
theorem linksOf_dequeue {before after : List Variable} {v : Variable}
    (h : q.Chains (before ++ v :: after)) (w : Variable) :
    (q.dequeue v).linksOf w = if v = w then {} else
      { older := if before.getLast? = some w then after.head? else (q.linksOf w).older
        newer := if after.head? = some w then before.getLast? else (q.linksOf w).newer } := by
  have hv : v < q.links.size := h.known v (by simp)
  show linksIn (q.dequeue v).links w = _
  unfold DecisionQueue.dequeue
  rw [h.linked before v after rfl]
  cases ho : after.head? with
  | none =>
    cases hn : before.getLast? with
    | none => exact linksIn_set hv _ w
    | some n =>
      have hn' : n < q.links.size :=
        h.known n (List.mem_append_left _ (List.mem_of_getLast? hn))
      simp only [Option.some.injEq]
      rw [linksIn_set ((Arena.size_modify ..).symm ▸ hv), linksIn_modify hn']
      by_cases hnw : n = w <;> simp [hnw] <;> rfl
  | some o =>
    have ho' : o < q.links.size :=
      h.known o (List.mem_append_right _ (List.mem_cons_of_mem _ (List.mem_of_mem_head? ho)))
    cases hn : before.getLast? with
    | none =>
      simp only [Option.some.injEq]
      rw [linksIn_set ((Arena.size_modify ..).symm ▸ hv), linksIn_modify ho']
      by_cases how : o = w <;> simp [how] <;> rfl
    | some n =>
      have hn' : n < q.links.size :=
        h.known n (List.mem_append_left _ (List.mem_of_getLast? hn))
      simp only [Option.some.injEq]
      rw [linksIn_set (by rwa [Arena.size_modify, Arena.size_modify]),
        linksIn_modify ((Arena.size_modify ..).symm ▸ hn'), linksIn_modify ho']
      by_cases hnw : n = w <;> by_cases how : o = w <;> simp [hnw, how] <;> rfl

/-- A variable behind the one linked out is linked as before, but the next one to the variables in
front. -/
theorem linksOf_dequeue_behind {before ms us : List Variable} {v w : Variable}
    (h : q.Chains (before ++ v :: (ms ++ w :: us))) :
    (q.dequeue v).linksOf w = { older := us.head?, newer := (before ++ ms).getLast? } := by
  have hnodup := h.nodup
  have hne : v ≠ w := by grind
  have hlast : before.getLast? ≠ some w := by
    intro hlast
    have hmem := List.mem_of_getLast? hlast
    grind
  rw [linksOf_dequeue h, if_neg hne, if_neg hlast, h.linked (before ++ v :: ms) w us (by simp)]
  cases ms with
  | nil => simp
  | cons m ms =>
    have hmw : m ≠ w := by grind
    rw [if_neg (by simp [hmw])]
    simp [List.getLast?_append, List.getLast?_cons]

/-- A variable in front of the one linked out is linked as before, but the one right in front to the
variables behind. -/
theorem linksOf_dequeue_front {ws ms after : List Variable} {v w : Variable}
    (h : q.Chains (ws ++ w :: ms ++ v :: after)) :
    (q.dequeue v).linksOf w = { older := (ms ++ after).head?, newer := ws.getLast? } := by
  have hnodup := h.nodup
  have hne : v ≠ w := by grind
  have hhead : after.head? ≠ some w := by
    intro hhead
    have hmem := List.mem_of_mem_head? hhead
    grind
  rw [linksOf_dequeue h, if_neg hne, if_neg hhead, h.linked ws w (ms ++ v :: after) (by simp)]
  cases ms with
  | nil => simp
  | cons m ms =>
    have hlast : (ws ++ w :: m :: ms).getLast? ≠ some w := by
      intro hlast
      rw [List.getLast?_append, List.getLast?_cons_cons] at hlast
      have hmem : w ∈ m :: ms := by
        cases hl : (m :: ms).getLast? with
        | none => simp at hl
        | some x =>
          rw [hl, Option.some_or, Option.some.injEq] at hlast
          exact hlast ▸ List.mem_of_getLast? hl
      grind
    rw [if_neg hlast]
    simp

/-- Linking out takes the variable out of the list. -/
theorem dequeue {before after : List Variable} {v : Variable}
    (h : q.Chains (before ++ v :: after)) : (q.dequeue v).Chains (before ++ after) where
  nodup := h.nodup.sublist (List.Sublist.append_left (List.sublist_cons_self v after) before)
  known := by
    intro w hw
    rw [size_dequeue]
    refine h.known w ?_
    rcases List.mem_append.1 hw with hw | hw
    · exact List.mem_append_left _ hw
    · exact List.mem_append_right _ (List.mem_cons_of_mem _ hw)
  front := by
    have hfront := h.front
    unfold DecisionQueue.dequeue
    rw [h.linked before v after rfl]
    cases before with
    | nil => rfl
    | cons b before =>
      cases hlast : (b :: before).getLast? with
      | none => simp at hlast
      | some n => simpa using hfront
  linked := by
    intro ws w us hsplit
    -- the place lies behind the variable that is taken out, or in front of it
    rcases List.append_eq_append_iff.1 hsplit with ⟨ms, rfl, rfl⟩ | ⟨ms, rfl, hus⟩
    · exact h.linksOf_dequeue_behind
    · cases ms with
      | nil =>
        obtain rfl : w :: us = after := hus
        have hnext : q.Chains (ws ++ v :: ([] ++ w :: us)) := by
          rw [List.append_nil] at h
          exact h
        have hlinks := hnext.linksOf_dequeue_behind
        rwa [List.append_nil] at hlinks
      | cons m ms =>
        obtain ⟨rfl, rfl⟩ := List.cons.inj hus
        exact h.linksOf_dequeue_front
  apart := by
    intro w hw
    rw [linksOf_dequeue h]
    by_cases hvw : v = w
    · exact if_pos hvw
    · have hw' : w ∉ before ++ v :: after := by
        simp only [List.mem_append, List.mem_cons, not_or] at hw ⊢
        exact ⟨hw.1, Ne.symm hvw, hw.2⟩
      have hlast : before.getLast? ≠ some w := fun hlast =>
        hw (List.mem_append_left _ (List.mem_of_getLast? hlast))
      have hhead : after.head? ≠ some w := fun hhead =>
        hw (List.mem_append_right _ (List.mem_of_mem_head? hhead))
      rw [if_neg hvw, if_neg hlast, if_neg hhead, h.apart w hw']

/-- A move to the front takes no place. -/
theorem size_moveToFront (q : DecisionQueue) (v : Variable) :
    (q.moveToFront v).links.size = q.links.size := by
  unfold DecisionQueue.moveToFront
  split
  · rfl
  · rw [size_enqueue, size_dequeue]

/-- A move to the front takes the variable from its place and puts it in front of the others. -/
theorem moveToFront {before after : List Variable} {v : Variable}
    (h : q.Chains (before ++ v :: after)) :
    (q.moveToFront v).Chains (v :: (before ++ after)) := by
  unfold DecisionQueue.moveToFront
  have hknown : v < q.links.size := h.known v (by simp)
  split
  next hfront =>
    cases before with
    | nil => exact h
    | cons b before =>
      have hb : b = v := by simpa [h.front] using hfront
      have hnodup := h.nodup
      simp [hb] at hnodup
  next =>
    have hv : v ∉ before ++ after := by
      have hnodup := h.nodup
      rw [List.perm_middle.nodup_iff, List.nodup_cons] at hnodup
      exact hnodup.1
    exact h.dequeue.enqueue hv (by rwa [size_dequeue])

end Chains

end DecisionQueue

end ClauseLearning
