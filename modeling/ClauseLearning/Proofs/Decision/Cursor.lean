import ClauseLearning.Proofs.Decision.Chain

/-!
# The cursor of the decision queue

A queue *represents* a list of variables if its links chain the list, the stamps descend along it
and the cursor stands on a variable of it. A variable is *in front* of the cursor if its stamp is
larger than that of the cursor; without a cursor all variables are in front.

Every operation of the queue keeps a list represented, and what holds of the variables in front of
the cursor goes on to hold of those in front of the new cursor, provided that it holds of a
variable that the operation puts there. With "is assigned" for the property this is why a search
from the cursor finds the unassigned variable that was moved to the front most recently.
-/

set_option autoImplicit false

namespace ClauseLearning

namespace DecisionQueue

/-- The queue lists variables in the order of their stamps and its cursor is one of them. -/
structure Represents (q : DecisionQueue) (vs : List Variable) : Prop extends q.Chains vs where
  stamped : q.stamps.size = q.links.size
  descending : vs.Pairwise fun v w => q.stamp w < q.stamp v
  latest : ∀ v, q.stamp v ≤ q.numBumps
  cursor_mem : ∀ c, q.cursor = some c → c ∈ vs

/-- A variable that was moved to the front after the variable at the cursor. -/
def InFront (q : DecisionQueue) (v : Variable) : Prop :=
  ∀ c, q.cursor = some c → q.stamp c < q.stamp v

/-- The queued variables in front of the cursor have a property. -/
def Passed (q : DecisionQueue) (vs : List Variable) (P : Variable → Prop) : Prop :=
  ∀ v ∈ vs, q.InFront v → P v

/-- An empty queue represents the empty list. -/
theorem represents_empty : ({} : DecisionQueue).Represents [] where
  toChains := chains_empty
  stamped := rfl
  descending := List.Pairwise.nil
  latest := fun _ => Nat.le_refl 0
  cursor_mem := by
    intro c h
    cases h

/-- The next stamp goes to one variable. -/
theorem stamp_stampNext {q : DecisionQueue} {v : Variable} (hv : v < q.stamps.size)
    (w : Variable) : (q.stampNext v).stamp w = if v = w then q.numBumps + 1 else q.stamp w := by
  unfold stampNext stamp
  rw [Arena.get?_set]
  by_cases h : v = w
  · subst h
    simp [hv]
  · simp [h]

/-- Moving the cursor off a variable changes no links. -/
theorem links_leaveCursor (q : DecisionQueue) (v : Variable) :
    (q.leaveCursor v).links = q.links := by
  unfold leaveCursor
  split <;> rfl

/-- Moving the cursor off a variable keeps the front. -/
theorem front_leaveCursor (q : DecisionQueue) (v : Variable) :
    (q.leaveCursor v).front = q.front := by
  unfold leaveCursor
  split <;> rfl

/-- Moving the cursor off a variable changes no stamps. -/
theorem stamps_leaveCursor (q : DecisionQueue) (v : Variable) :
    (q.leaveCursor v).stamps = q.stamps := by
  unfold leaveCursor
  split <;> rfl

/-- Moving the cursor off a variable is no bump. -/
theorem numBumps_leaveCursor (q : DecisionQueue) (v : Variable) :
    (q.leaveCursor v).numBumps = q.numBumps := by
  unfold leaveCursor
  split <;> rfl

/-- A release moves the cursor only. -/
theorem release_eq (q : DecisionQueue) (v : Variable) :
    q.release v = { q with cursor := (q.release v).cursor } := by
  unfold release
  split <;> rfl

/-- Linking a variable elsewhere touches neither stamps nor cursor. -/
theorem moveToFront_rest (q : DecisionQueue) (v : Variable) :
    (q.moveToFront v).stamps = q.stamps ∧ (q.moveToFront v).numBumps = q.numBumps ∧
      (q.moveToFront v).cursor = q.cursor := by
  unfold moveToFront enqueue dequeue
  split
  · exact ⟨rfl, rfl, rfl⟩
  · obtain ⟨older, newer⟩ := q.linksOf v
    cases newer <;> exact ⟨rfl, rfl, rfl⟩

/-- Unlinking a variable changes nothing but links and front. -/
theorem dequeue_rest (q : DecisionQueue) (v : Variable) :
    (q.dequeue v).stamps = q.stamps ∧ (q.dequeue v).numBumps = q.numBumps ∧
      (q.dequeue v).cursor = q.cursor := by
  unfold dequeue
  obtain ⟨older, newer⟩ := q.linksOf v
  cases newer <;> exact ⟨rfl, rfl, rfl⟩

namespace Represents

variable {q : DecisionQueue} {vs : List Variable}

/-- The list without a queued variable. -/
theorem erase_eq (h : q.Represents vs) {before after : List Variable} {v : Variable}
    (hsplit : vs = before ++ v :: after) : vs.erase v = before ++ after := by
  have hnodup := h.nodup
  rw [hsplit, List.nodup_append] at hnodup
  have hv : v ∉ before := fun hmem => hnodup.2.2 v hmem v (by simp) rfl
  rw [hsplit, List.erase_append_right _ hv, List.erase_cons_head]

/-- Queued variables were moved to the front at different times. -/
theorem eq_of_stamp_eq (h : q.Represents vs) {v w : Variable} (hv : v ∈ vs) (hw : w ∈ vs)
    (heq : q.stamp v = q.stamp w) : v = w := by
  obtain ⟨before, after, hsplit⟩ := Chains.exists_split hv
  have hdesc := h.descending
  rw [hsplit, List.pairwise_append, List.pairwise_cons] at hdesc
  rw [hsplit, List.mem_append, List.mem_cons] at hw
  rcases hw with hw | rfl | hw
  · have hlt := hdesc.2.2 w hw v List.mem_cons_self
    omega
  · rfl
  · have hlt := hdesc.2.1.1 w hw
    omega

/-- A new variable comes to the front and under the cursor. -/
theorem grow (h : q.Represents vs) {v : Variable} (hv : v ∉ vs) :
    (q.grow v).Represents (v :: vs) := by
  have hroom := h.toChains.accommodate v
  have hknown : v < (q.links.accommodate v {}).size := by
    rw [Arena.size_accommodate]
    exact Nat.lt_of_lt_of_le (Nat.lt_succ_self v) (Nat.le_max_right _ _)
  have hne : ∀ {w}, w ∈ vs → v ≠ w := by
    rintro w hw rfl
    exact hv hw
  have hsize : (q.stamps.accommodate v 0).size = (q.links.accommodate v {}).size := by
    rw [Arena.size_accommodate, Arena.size_accommodate, h.stamped]
  have hchains := (hroom.of_links_eq
    (p := { q with links := q.links.accommodate v {}, stamps := q.stamps.accommodate v 0 })
    rfl rfl).enqueue hv hknown
  have hstamp : ∀ w, (q.grow v).stamp w = if v = w then q.numBumps + 1 else q.stamp w := by
    intro w
    refine (stamp_stampNext (by rw [← hsize] at hknown; exact hknown) w).trans ?_
    split
    · rfl
    · exact Arena.getD_accommodate q.stamps v 0 w
  refine ⟨hchains.of_links_eq rfl rfl, ?_, ?_, ?_, ?_⟩
  · show ((q.stamps.accommodate v 0).set v _).size = _
    rw [Arena.size_set, hsize]
    exact (Chains.size_enqueue
      { q with links := q.links.accommodate v {}, stamps := q.stamps.accommodate v 0 } v).symm
  · refine List.pairwise_cons.2 ⟨fun w hw => ?_, h.descending.imp_of_mem fun {a b} ha hb hab => ?_⟩
    · rw [hstamp, hstamp, if_pos rfl, if_neg (hne hw)]
      exact Nat.lt_succ_of_le (h.latest w)
    · rw [hstamp, hstamp, if_neg (hne ha), if_neg (hne hb)]
      exact hab
  · intro w
    rw [hstamp]
    show _ ≤ q.numBumps + 1
    split
    · exact Nat.le_refl _
    · exact Nat.le_succ_of_le (h.latest w)
  · intro c hc
    have hcv : v = c := Option.some.inj hc
    simp [hcv]

/-- Nothing is in front of a variable that was just created. -/
theorem passed_grow (h : q.Represents vs) {v : Variable} (hv : v ∉ vs) (P : Variable → Prop) :
    (q.grow v).Passed (v :: vs) P := by
  intro w hw hfront
  have hlt := hfront v rfl
  rcases List.mem_cons.1 hw with rfl | hmem
  · omega
  · have hdesc := List.rel_of_pairwise_cons (h.grow hv).descending hmem
    omega

/-- The cursor that leaves a variable steps to a neighbour, so that in front of it there is
nothing but that variable and what was in front before. -/
theorem leaveCursor_spec (h : q.Represents vs) {v : Variable} (hv : v ∈ vs) :
    (∀ c, (q.leaveCursor v).cursor = some c → c ∈ vs ∧ c ≠ v) ∧
      ∀ w ∈ vs, w ≠ v → (q.leaveCursor v).InFront w → q.InFront w := by
  unfold leaveCursor
  by_cases hcursor : q.cursor = some v
  · rw [if_pos hcursor]
    obtain ⟨before, after, hsplit⟩ := Chains.exists_split hv
    have hdesc := h.descending
    have hnodup := h.nodup
    rw [hsplit, List.pairwise_append, List.pairwise_cons] at hdesc
    rw [hsplit, List.nodup_append, List.nodup_cons] at hnodup
    obtain ⟨-, ⟨hv_after, hafter⟩, hacross⟩ := hdesc
    simp only [h.linked before v after hsplit]
    have hbehind : ∀ w ∈ vs, w ≠ v → w ∉ after → q.InFront w := by
      intro w hw hne hwa c hc
      obtain rfl : v = c := Option.some.inj (hcursor.symm.trans hc)
      rw [hsplit, List.mem_append, List.mem_cons] at hw
      rcases hw with hw | hw | hw
      · exact hacross w hw v (by simp)
      · exact absurd hw hne
      · exact absurd hw hwa
    cases hhead : after.head? with
    | some o =>
      simp only [Option.some_or, Option.some.injEq]
      have ho : o ∈ after := List.mem_of_mem_head? hhead
      refine ⟨?_, ?_⟩
      · rintro c rfl
        exact ⟨by simp [hsplit, ho], fun heq => hnodup.2.1.1 (heq ▸ ho)⟩
      · intro w hw hne hfront
        have hlt := hfront o rfl
        apply hbehind w hw hne
        intro hwa
        -- no stamp behind the variable is larger than that of its next neighbour
        cases after with
        | nil => simp at hwa
        | cons a after =>
          obtain rfl : a = o := Option.some.inj hhead
          rcases List.mem_cons.1 hwa with rfl | hwa
          · exact Nat.lt_irrefl _ hlt
          · exact Nat.lt_asymm hlt ((List.pairwise_cons.1 hafter).1 w hwa)
    | none =>
      have hnil : after = [] := List.head?_eq_none_iff.1 hhead
      simp only [Option.none_or]
      refine ⟨?_, ?_⟩
      · intro c hc
        have hmem := List.mem_of_getLast? hc
        exact ⟨by simp [hsplit, hmem], fun heq => hnodup.2.2 c hmem v (by simp) heq⟩
      · intro w hw hne _
        exact hbehind w hw hne (by simp [hnil])
  · rw [if_neg hcursor]
    refine ⟨?_, fun _ _ _ hfront => hfront⟩
    intro c hc
    exact ⟨h.cursor_mem c hc, fun heq => hcursor (heq ▸ hc)⟩

/-- Moving the cursor off a variable leaves the stamp of every variable. -/
theorem stamp_leaveCursor (q : DecisionQueue) (v w : Variable) :
    (q.leaveCursor v).stamp w = q.stamp w := by
  unfold stamp
  rw [stamps_leaveCursor]

/-- When the cursor has left a queued variable, the links still chain the list around it. -/
theorem exists_split_leaveCursor (h : q.Represents vs) {v : Variable} (hv : v ∈ vs) :
    ∃ before after, vs.erase v = before ++ after ∧
      (q.leaveCursor v).Chains (before ++ v :: after) := by
  obtain ⟨before, after, hsplit⟩ := Chains.exists_split hv
  refine ⟨before, after, h.erase_eq hsplit, ?_⟩
  exact hsplit ▸ h.toChains.of_links_eq (links_leaveCursor q v) (front_leaveCursor q v)

/-- A variable taken out leaves the others in their order. -/
theorem remove (h : q.Represents vs) (v : Variable) : (q.remove v).Represents (vs.erase v) := by
  unfold DecisionQueue.remove
  split
  next hcontains =>
    have hv := h.contains_iff.1 hcontains
    obtain ⟨before, after, herase, hchains⟩ := h.exists_split_leaveCursor hv
    obtain ⟨hstamps, hbumps, hcursor⟩ := dequeue_rest (q.leaveCursor v) v
    have hstamp : ∀ w, ((q.leaveCursor v).dequeue v).stamp w = q.stamp w := by
      intro w
      rw [← stamp_leaveCursor q v w]
      unfold stamp
      rw [hstamps]
    refine ⟨herase ▸ hchains.dequeue, ?_, ?_, ?_, ?_⟩
    · rw [hstamps, Chains.size_dequeue, stamps_leaveCursor, links_leaveCursor, h.stamped]
    · refine (h.descending.sublist List.erase_sublist).imp fun {a b} hab => ?_
      rw [hstamp, hstamp]
      exact hab
    · intro w
      rw [hstamp, hbumps, numBumps_leaveCursor]
      exact h.latest w
    · intro c hc
      rw [hcursor] at hc
      obtain ⟨hmem, hne⟩ := (h.leaveCursor_spec hv).1 c hc
      exact (List.mem_erase_of_ne hne).2 hmem
  next hcontains =>
    rw [List.erase_of_not_mem fun hv => hcontains (h.contains_iff.2 hv)]
    exact h

/-- When a variable is taken out, no further variable comes to lie in front of the cursor. -/
theorem passed_remove (h : q.Represents vs) (v : Variable) {P : Variable → Prop}
    (hP : q.Passed vs P) : (q.remove v).Passed (vs.erase v) P := by
  intro w hw hfront
  unfold DecisionQueue.remove at hfront
  have hmem : w ∈ vs := List.mem_of_mem_erase hw
  split at hfront
  next hcontains =>
    have hv := h.contains_iff.1 hcontains
    have hne : w ≠ v := by
      rintro rfl
      exact (h.nodup.mem_erase_iff.1 hw).1 rfl
    apply hP w hmem
    apply (h.leaveCursor_spec hv).2 w hmem hne
    obtain ⟨hstamps, _, hcursor⟩ := dequeue_rest (q.leaveCursor v) v
    intro c hc
    have hlt := hfront c (hcursor.trans hc)
    unfold stamp at hlt ⊢
    rwa [hstamps] at hlt
  next => exact hP w hmem hfront

/-- The bumped variable gets the next stamp, and the others keep theirs. -/
theorem stamp_moved (h : q.Represents vs) {v : Variable} (hv : v ∈ vs) (w : Variable) :
    (((q.leaveCursor v).moveToFront v).stampNext v).stamp w =
      if v = w then q.numBumps + 1 else q.stamp w := by
  obtain ⟨hstamps, hbumps, -⟩ := moveToFront_rest (q.leaveCursor v) v
  have hstamped : v < ((q.leaveCursor v).moveToFront v).stamps.size := by
    rw [hstamps, stamps_leaveCursor, h.stamped]
    exact h.known v hv
  rw [stamp_stampNext hstamped, hbumps, numBumps_leaveCursor]
  unfold stamp
  rw [hstamps, stamps_leaveCursor]

/-- With any queued cursor the queue represents the list with the bumped variable moved. -/
theorem moved (h : q.Represents vs) {v : Variable} (hv : v ∈ vs) {cursor : Option Variable}
    (hmem : ∀ c, cursor = some c → c ∈ v :: vs.erase v) :
    ({ ((q.leaveCursor v).moveToFront v).stampNext v with cursor := cursor } :
      DecisionQueue).Represents (v :: vs.erase v) := by
  obtain ⟨before, after, herase, hchains⟩ := h.exists_split_leaveCursor hv
  obtain ⟨hstamps, hbumps, -⟩ := moveToFront_rest (q.leaveCursor v) v
  have hstamp := h.stamp_moved hv
  have hne : ∀ {w}, w ∈ vs.erase v → v ≠ w := by
    rintro w hw rfl
    exact (h.nodup.mem_erase_iff.1 hw).1 rfl
  have hkept : ∀ {w}, w ∈ vs.erase v →
      (((q.leaveCursor v).moveToFront v).stampNext v).stamp w = q.stamp w :=
    fun {w} hw => (hstamp w).trans (if_neg (hne hw))
  refine ⟨(herase ▸ hchains.moveToFront).of_links_eq rfl rfl, ?_, ?_, ?_, hmem⟩
  · show (((q.leaveCursor v).moveToFront v).stamps.set v _).size =
      ((q.leaveCursor v).moveToFront v).links.size
    rw [Arena.size_set, hstamps, stamps_leaveCursor, h.stamped, Chains.size_moveToFront,
      links_leaveCursor]
  · -- the next stamp is larger than all others, and those keep their order
    refine List.pairwise_cons.2 ⟨fun w hw => ?_, ?_⟩
    · refine Nat.lt_of_le_of_lt (Nat.le_of_eq (hkept hw)) ?_
      refine Nat.lt_of_lt_of_le (Nat.lt_succ_of_le (h.latest w)) ?_
      exact Nat.le_of_eq ((hstamp v).trans (if_pos rfl)).symm
    · refine (h.descending.sublist List.erase_sublist).imp_of_mem fun {a b} ha hb hab => ?_
      refine Nat.lt_of_le_of_lt (Nat.le_of_eq (hkept hb)) ?_
      exact Nat.lt_of_lt_of_le hab (Nat.le_of_eq (hkept ha).symm)
  · intro w
    refine Nat.le_trans (Nat.le_of_eq (hstamp w)) ?_
    show _ ≤ ((q.leaveCursor v).moveToFront v).numBumps + 1
    rw [hbumps, numBumps_leaveCursor]
    split
    · exact Nat.le_refl _
    · exact Nat.le_succ_of_le (h.latest w)

/-- A bumped variable is taken from its place and put in front of the others. -/
theorem bump (h : q.Represents vs) {v : Variable} (hv : v ∈ vs) (assigned : Bool) :
    (q.bump v assigned).Represents (v :: vs.erase v) ∧
      ∀ w, (q.bump v assigned).stamp w = if v = w then q.numBumps + 1 else q.stamp w := by
  obtain ⟨-, -, hcursor⟩ := moveToFront_rest (q.leaveCursor v) v
  unfold DecisionQueue.bump
  rw [if_pos (h.contains_iff.2 hv)]
  cases assigned with
  | true =>
    refine ⟨h.moved hv fun c hc => ?_, h.stamp_moved hv⟩
    obtain ⟨hmem, hne⟩ := (h.leaveCursor_spec hv).1 c (hcursor ▸ hc)
    exact List.mem_cons_of_mem _ ((List.mem_erase_of_ne hne).2 hmem)
  | false =>
    refine ⟨h.moved hv fun c hc => ?_, h.stamp_moved hv⟩
    simp [Option.some.inj hc]

/-- When a variable is bumped, only that variable can come to lie in front of the cursor. -/
theorem passed_bump (h : q.Represents vs) {v : Variable} (hv : v ∈ vs) {assigned : Bool}
    {P : Variable → Prop} (hP : q.Passed vs P) (hassigned : assigned = true → P v) :
    (q.bump v assigned).Passed (v :: vs.erase v) P := by
  intro w hw hfront
  obtain ⟨hrep, hstamp⟩ := h.bump hv assigned
  obtain ⟨_, _, hcursor⟩ := moveToFront_rest (q.leaveCursor v) v
  cases assigned with
  | false =>
    have hlt := hfront v (by unfold DecisionQueue.bump; rw [if_pos (h.contains_iff.2 hv)]; rfl)
    rcases List.mem_cons.1 hw with rfl | hmem
    · omega
    · have hdesc := List.rel_of_pairwise_cons hrep.descending hmem
      omega
  | true =>
    rcases List.mem_cons.1 hw with rfl | hmem
    · exact hassigned rfl
    · have hne : w ≠ v := (h.nodup.mem_erase_iff.1 hmem).1
      have hmem' : w ∈ vs := List.mem_of_mem_erase hmem
      apply hP w hmem'
      apply (h.leaveCursor_spec hv).2 w hmem' hne
      intro c hc
      obtain ⟨_, hcv⟩ := (h.leaveCursor_spec hv).1 c hc
      have hlt := hfront c (by
        unfold DecisionQueue.bump
        rw [if_pos (h.contains_iff.2 hv)]
        exact hcursor.trans hc)
      rw [hstamp, hstamp, if_neg hcv.symm, if_neg hne.symm] at hlt
      rw [stamp_leaveCursor, stamp_leaveCursor]
      exact hlt

/-- A variable that becomes unassigned changes the cursor only. -/
theorem release (h : q.Represents vs) (v : Variable) : (q.release v).Represents vs := by
  unfold DecisionQueue.release
  split
  next hset =>
    rw [Bool.and_eq_true] at hset
    refine ⟨h.toChains.of_links_eq rfl rfl, h.stamped, h.descending, h.latest, ?_⟩
    intro c hc
    obtain rfl : v = c := Option.some.inj hc
    exact h.contains_iff.1 hset.1
  next => exact h

/-- After a release the released variable is not in front of the cursor. -/
theorem passed_release (h : q.Represents vs) (v : Variable) {P : Variable → Prop}
    (hP : q.Passed vs P) : (q.release v).Passed vs fun w => P w ∧ w ≠ v := by
  intro w hw hfront
  unfold DecisionQueue.release at hfront
  split at hfront
  next hset =>
    have hlt : q.stamp v < q.stamp w := hfront v rfl
    refine ⟨hP w hw fun c hc => ?_, ?_⟩
    · simp only [hc, Option.all_some, Bool.and_eq_true, decide_eq_true_eq] at hset
      exact Nat.lt_trans hset.2 hlt
    · rintro rfl
      exact Nat.lt_irrefl _ hlt
  next hkeep =>
    refine ⟨hP w hw hfront, ?_⟩
    rintro rfl
    apply hkeep
    rw [h.contains_iff.2 hw]
    cases hc : q.cursor with
    | none => simp
    | some c => simpa using hfront c hc

end Represents

end DecisionQueue

end ClauseLearning
