import ClauseLearning.Proofs.Conflict.Exactness
import ClauseLearning.Proofs.Conflict.Resolution

/-!
# The first unique implication point as a dominator

The reasons of the current level form a graph: from a variable one steps back to the other variables
of its reason that have the level. A backward path starts in the conflict and ends with the decision
of the level, and a variable that lies on all backward paths dominates the conflict. The resolution
never builds the graph. It counts open literals on one walk down the trail, and yet it stops at the
dominator that was assigned last.

That every path passes through the point where the walk stops is seen from what was resolved: up to
there a path cannot leave the literals that were met. That no later variable is on all paths is seen
from what was open when the walk came to its place: another literal had been met through literals
after the place and was still ahead. The path through that literal goes around the place.
-/

set_option autoImplicit false

namespace ClauseLearning

namespace Trail

/-- One steps back from a variable to another variable of its reason that is of the current
level. -/
def StepsBack (t : Trail) (store : ClauseStore) (x y : Variable) : Prop :=
  ∃ c clause, t.reason x = some c ∧ store.get? c = some clause ∧
    ∃ k ∈ clause.literals, k.var = y ∧ y ≠ x ∧ t.level y = t.currentLevel

/-- The variable was decided to open the current level. -/
def IsDecision (t : Trail) (x : Variable) : Prop :=
  t.isAssigned x = true ∧ t.level x = t.currentLevel ∧ t.position x ∈ t.delimiters

/-- The variables passed when one steps back from a variable to the decision of the current
level. -/
inductive LeadsBack (t : Trail) (store : ClauseStore) : Variable → List Variable → Prop where
  | decision {x : Variable} : t.IsDecision x → LeadsBack t store x [x]
  | step {x y : Variable} {path : List Variable} : t.StepsBack store x y →
      LeadsBack t store y path → LeadsBack t store x (x :: path)

/-- A path from a variable of the conflict to the decision of the current level. -/
def BackwardPath (t : Trail) (store : ClauseStore) (conflict : Clause) (path : List Variable) :
    Prop :=
  ∃ l ∈ conflict.literals, t.level l.var = t.currentLevel ∧ t.LeadsBack store l.var path

/-- The variable lies on all backward paths, of which there is one, and was assigned after all
other variables that do. -/
structure FirstDominator (t : Trail) (store : ClauseStore) (conflict : Clause) (x : Variable) :
    Prop where
  connected : ∃ path, t.BackwardPath store conflict path
  dominates : ∀ path, t.BackwardPath store conflict path → x ∈ path
  latest : ∀ y, (∀ path, t.BackwardPath store conflict path → y ∈ path) → y ≠ x →
    t.position y < t.position x

/-- One arrives at a variable from the conflict if one steps back only from variables that were
assigned at or after a place. -/
inductive Reaches (t : Trail) (store : ClauseStore) (conflict : Clause) (i : Nat) :
    Variable → Prop where
  | start {l : Literal} : l ∈ conflict.literals → t.level l.var = t.currentLevel →
      Reaches t store conflict i l.var
  | step {x y : Variable} : Reaches t store conflict i x → i ≤ t.position x →
      t.StepsBack store x y → Reaches t store conflict i y

/-- There is a way around a place of the trail: through variables assigned after it one arrives at
a variable of the current level assigned before it. -/
def WayAround (t : Trail) (store : ClauseStore) (conflict : Clause) (i : Nat) : Prop :=
  ∃ y, t.Reaches store conflict (i + 1) y ∧ t.level y = t.currentLevel ∧ t.position y < i

variable {t : Trail} {store : ClauseStore} {conflict : Clause} {x y : Variable}
  {path : List Variable} {i : Nat}

/-- A path stays on the current level. -/
theorem LeadsBack.level_eq (h : t.LeadsBack store x path) (hx : t.level x = t.currentLevel) :
    ∀ z ∈ path, t.level z = t.currentLevel := by
  induction h with
  | decision _ =>
    intro z hz
    rw [List.mem_singleton.1 hz]
    exact hx
  | step hstep _ ih =>
    obtain ⟨_, _, _, _, _, _, _, _, hy⟩ := hstep
    intro z hz
    rcases List.mem_cons.1 hz with rfl | hz
    · exact hx
    · exact ih hy z hz

/-- A path backwards from a conflict visits assigned variables only. -/
theorem BackwardPath.isAssigned (h : t.BackwardPath store conflict path) (ht : t.WellFormed)
    (hpos : 0 < t.currentLevel) {z : Variable} (hz : z ∈ path) : t.isAssigned z = true := by
  obtain ⟨l, -, hlevel, hleads⟩ := h
  refine ht.isAssigned_of_level ?_
  rw [hleads.level_eq hlevel z hz]
  exact hpos

/-- Where reasons are accompanied, one can always go on to step back, towards the root. -/
theorem exists_leadsBack (he : t.Explained store) (ha : t.Accompanied store)
    (hpos : 0 < t.currentLevel) {l : Literal} (hl : t.isTrue l = true)
    (hlevel : t.level l.var = t.currentLevel) :
    ∃ path, t.LeadsBack store l.var path ∧ ∀ z ∈ path, t.position z ≤ t.position l.var := by
  induction h : t.position l.var using Nat.strong_induction_on generalizing l with
  | _ n ih =>
  subst h
  cases hr : t.reason l.var with
  | none =>
    have hdecision := he.unexplained l hl (hlevel ▸ hpos) hr
    refine ⟨[l.var], .decision ⟨isAssigned_of_isTrue hl, hlevel, hdecision⟩, fun z hz => ?_⟩
    rw [List.mem_singleton.1 hz]
  | some c =>
    obtain ⟨clause, hc, -, hrest⟩ := he.implied l c hl hr
    obtain ⟨k, hk, hne, hklevel⟩ := ha l c clause hl (hlevel ▸ hpos) hr hc
    obtain ⟨hfalse, hlt⟩ := hrest k hk hne
    have hktrue : t.isTrue k.negate = true := isTrue_negate.trans hfalse
    obtain ⟨path, hpath, hle⟩ := ih _ hlt hktrue (hklevel.trans hlevel) rfl
    have hvar : k.var ≠ l.var := fun heq => Nat.ne_of_lt hlt (congrArg t.position heq)
    have hstep : t.StepsBack store l.var k.var :=
      ⟨c, clause, hr, hc, k, hk, rfl, hvar, hklevel.trans hlevel⟩
    refine ⟨l.var :: path, .step hstep hpath, fun z hz => ?_⟩
    rcases List.mem_cons.1 hz with rfl | hz
    · exact Nat.le_refl _
    · exact Nat.le_of_lt (Nat.lt_of_le_of_lt (hle z hz) hlt)

namespace Reaches

/-- What is reached from behind a place is reached from behind every earlier place. -/
theorem mono (h : t.Reaches store conflict i x) {j : Nat} (hle : j ≤ i) :
    t.Reaches store conflict j x := by
  induction h with
  | start hl hlevel => exact .start hl hlevel
  | step _ hi hstep ih => exact ih.step (Nat.le_trans hle hi) hstep

/-- A way from the conflict to a variable is continued by a path from there. -/
theorem exists_backwardPath (h : t.Reaches store conflict i x)
    (hpath : t.LeadsBack store x path) :
    ∃ whole, t.BackwardPath store conflict whole ∧ ∀ z ∈ whole, z ∈ path ∨ i ≤ t.position z := by
  induction h generalizing path with
  | start hl hlevel => exact ⟨path, ⟨_, hl, hlevel, hpath⟩, fun z hz => Or.inl hz⟩
  | step _ hi hstep ih =>
    obtain ⟨whole, hwhole, hmem⟩ := ih (.step hstep hpath)
    refine ⟨whole, hwhole, fun z hz => ?_⟩
    rcases hmem z hz with hz | hz
    · rcases List.mem_cons.1 hz with rfl | hz
      · exact Or.inr hi
      · exact Or.inl hz
    · exact Or.inr hz

end Reaches

/-- A way around a place gives a backward path on which nothing stands at the place. -/
theorem WayAround.exists_backwardPath (h : t.WayAround store conflict i) (ht : t.WellFormed)
    (he : t.Explained store) (ha : t.Accompanied store) (hpos : 0 < t.currentLevel) :
    ∃ path, t.BackwardPath store conflict path ∧ ∀ z ∈ path, t.position z ≠ i := by
  obtain ⟨y, hreaches, hlevel, hlt⟩ := h
  obtain ⟨l, rfl, hl⟩ := WellFormed.exists_isTrue (ht.isAssigned_of_level (hlevel ▸ hpos))
  obtain ⟨path, hpath, hle⟩ := exists_leadsBack he ha hpos hl hlevel
  obtain ⟨whole, hwhole, hmem⟩ := hreaches.exists_backwardPath hpath
  refine ⟨whole, hwhole, fun z hz => ?_⟩
  rcases hmem z hz with hz | hz
  · exact Nat.ne_of_lt (Nat.lt_of_le_of_lt (hle z hz) hlt)
  · exact (Nat.ne_of_lt hz).symm

/-- A variable on all backward paths is the first dominator if there is a way around every place
after it. -/
theorem firstDominator_of_wayAround (ht : t.WellFormed) (he : t.Explained store)
    (ha : t.Accompanied store) (hpos : 0 < t.currentLevel)
    (hfalse : ∀ l ∈ conflict.literals, t.isFalse l = true)
    (hcurrent : ∃ l ∈ conflict.literals, t.level l.var = t.currentLevel)
    (hdominates : ∀ path, t.BackwardPath store conflict path → x ∈ path)
    (haround : ∀ p < t.length, t.position x < p → t.WayAround store conflict p) :
    t.FirstDominator store conflict x := by
  obtain ⟨l, hl, hlevel⟩ := hcurrent
  have htrue : t.isTrue l.negate = true := isTrue_negate.trans (hfalse l hl)
  obtain ⟨path, hleads, -⟩ := exists_leadsBack he ha hpos htrue hlevel
  have hpath : t.BackwardPath store conflict path := ⟨l, hl, hlevel, hleads⟩
  refine ⟨⟨path, hpath⟩, hdominates, fun y hy hne => ?_⟩
  have hassigned := hpath.isAssigned ht hpos (hy path hpath)
  rcases Nat.lt_trichotomy (t.position y) (t.position x) with hlt | heq | hgt
  · exact hlt
  · exact absurd (ht.eq_of_position_eq hassigned
      (hpath.isAssigned ht hpos (hdominates path hpath)) heq) hne
  · -- a way around the place of the variable avoids it
    obtain ⟨other, hother, hmiss⟩ :=
      (haround _ (ht.position_lt hassigned) hgt).exists_backwardPath ht he ha hpos
    exact absurd rfl (hmiss y (hy other hother))

end Trail

namespace Workspace

variable {v : View} {conflict : Clause} {w next : Workspace} {l uip : Literal} {i n : Nat}

/-! ## What the walk resolved -/

/-- From a literal that was met, a path back comes to the first unique implication point: until it
does, it steps to literals that were met. -/
theorem FindsUip.mem_of_leadsBack (h : FindsUip v conflict w uip) (ht : v.trail.WellFormed)
    (hpos : 0 < v.trail.currentLevel) {x : Variable} {path : List Variable}
    (hpath : v.trail.LeadsBack v.clauses x path) (hlevel : v.trail.level x = v.trail.currentLevel)
    (hseen : w.isSeen x = true) : uip.var ∈ path := by
  induction hpath with
  | @decision x hdecision =>
    by_cases heq : x = uip.var
    · exact heq ▸ List.mem_singleton_self _
    · obtain ⟨k, hk, rfl⟩ := (h.tracks.isSeen_iff x).1 hseen
      have hlt := (h.resolved k hk hlevel heq).1
      exact absurd hdecision.2.2 (ht.not_mem_delimiters (Trail.isAssigned_of_isTrue h.uip_true)
        hdecision.1 (h.uip_level.trans hlevel.symm) hlt)
  | @step x y path hstep _ ih =>
    by_cases heq : x = uip.var
    · exact heq ▸ List.mem_cons_self
    · obtain ⟨k, hk, rfl⟩ := (h.tracks.isSeen_iff x).1 hseen
      obtain ⟨c, clause, hr, hc, hcovers⟩ := (h.resolved k hk hlevel heq).2
      obtain ⟨c', clause', hr', hc', j, hj, rfl, -, hy⟩ := hstep
      obtain rfl : c = c' := Option.some.inj (hr.symm.trans hr')
      obtain rfl : clause = clause' := Option.some.inj (hc.symm.trans hc')
      have hjseen := (hcovers j hj).resolve_left (by rw [hy]; omega)
      exact List.mem_cons_of_mem _ (ih hy hjseen)

/-- The first unique implication point lies on all backward paths. -/
theorem FindsUip.dominates (h : FindsUip v conflict w uip) (ht : v.trail.WellFormed)
    (hpos : 0 < v.trail.currentLevel) {path : List Variable}
    (hpath : v.trail.BackwardPath v.clauses conflict path) : uip.var ∈ path := by
  obtain ⟨l, hl, hlevel, hleads⟩ := hpath
  have hseen := (h.covers l hl).resolve_left (by rw [hlevel]; omega)
  exact h.mem_of_leadsBack ht hpos hleads hlevel hseen

/-! ## What the walk left open -/

/-- The walk arrived at a place, and every literal of the current level that was met is reached
through literals from the place on. -/
structure Explores (v : View) (conflict : Clause) (w : Workspace) (i : Nat) : Prop
    extends Descends v conflict w i where
  reached : ∀ k ∈ w.seen, v.trail.level k.var = v.trail.currentLevel →
    v.trail.Reaches v.clauses conflict i k.var

namespace Explores

/-- The literals of the conflict are met first. -/
theorem start {c : ClauseId} (ht : v.trail.WellFormed) (hs : v.clauses.Stampable v.options)
    (h : Tracks v.trail w) (hseen : w.seen = []) (hpending : w.activity.Pending v.clauses)
    (hc : v.clauses.get? c = some conflict)
    (hfalse : ∀ l ∈ conflict.literals, v.trail.isFalse l = true)
    (hok : (w.resolve v c conflict).result = .ok (next, n)) :
    Explores v conflict next v.trail.length ∧ n = next.openBelow v.trail v.trail.length := by
  obtain ⟨hdescends, hn, -⟩ := (Descends.start ht hs h hseen hpending hc hfalse).of_result hok
  refine ⟨⟨hdescends, fun k hk hlevel => ?_⟩, hn⟩
  obtain ⟨⟨_, hmeets⟩, -⟩ := meets_of_resolve ht hs h hpending hc hok
  obtain ⟨new, heq, hnew, -⟩ := hmeets.seen_eq
  rw [heq, hseen, List.nil_append] at hk
  exact .start (hnew k hk).1 hlevel

/-- A place that was not met is passed by. -/
theorem skip (h : Explores v conflict w (i + 1)) (ht : v.trail.WellFormed)
    (hi : v.trail.entries[i]? = some l) (hunseen : w.isSeen l.var = false) :
    Explores v conflict w i :=
  ⟨h.toDescends.skip ht hi hunseen, fun k hk hlevel => (h.reached k hk hlevel).mono (Nat.le_succ i)⟩

/-- At an open place one steps back from its literal to those of the reason. -/
theorem step {c : ClauseId} {clause : Clause} (h : Explores v conflict w (i + 1))
    (ht : v.trail.WellFormed) (hs : v.clauses.Stampable v.options)
    (hi : v.trail.entries[i]? = some l) (hlevel : v.trail.level l.var = v.trail.currentLevel)
    (hseen : w.isSeen l.var = true) (hr : v.trail.reason l.var = some c)
    (hc : v.clauses.get? c = some clause)
    (hrest : ∀ k ∈ clause.literals, k ≠ l →
      v.trail.isFalse k = true ∧ v.trail.position k.var < i)
    (hok : (w.resolve v c clause).result = .ok (next, n)) :
    Explores v conflict next i ∧ next.openBelow v.trail i = w.openBelow v.trail i + n := by
  obtain ⟨hdescends, hcount⟩ :=
    (h.toDescends.step ht hs hi hseen hr hc hrest).of_result hok
  refine ⟨⟨hdescends, fun k hk hklevel => ?_⟩, hcount⟩
  obtain ⟨⟨_, hmeets⟩, -⟩ := meets_of_resolve ht hs h.tracks h.pending hc hok
  obtain ⟨new, heq, hnew, -⟩ := hmeets.seen_eq
  rw [heq] at hk
  rcases List.mem_append.1 hk with hk | hk
  · exact (h.reached k hk hklevel).mono (Nat.le_succ i)
  · obtain ⟨hmem, hunseen⟩ := hnew k hk
    have hne : k.var ≠ l.var := by
      intro hvar
      have hkseen : w.isSeen k.var = false := hunseen
      rw [hvar, hseen] at hkseen
      cases hkseen
    obtain ⟨x, hx, hvar⟩ := (h.tracks.isSeen_iff l.var).1 hseen
    have hreached := (h.reached x hx (hvar ▸ hlevel)).mono (Nat.le_succ i)
    rw [hvar] at hreached
    exact hreached.step (Nat.le_of_eq (ht.entry i l hi).2.2.symm)
      ⟨c, clause, hr, hc, k, hmem, rfl, hne, hklevel⟩

/-- What is open before a place when the walk comes to it shows a way around it. -/
theorem wayAround (h : Explores v conflict w (i + 1)) (hopen : 0 < w.openBelow v.trail i) :
    v.trail.WayAround v.clauses conflict i := by
  obtain ⟨k, hk, hkopen⟩ := List.countP_pos_iff.1 hopen
  simp only [Bool.and_eq_true, beq_iff_eq, decide_eq_true_eq] at hkopen
  exact ⟨k.var, h.reached k hk hkopen.1, hkopen.1, hkopen.2⟩

end Explores

/-- The walk leaves a way around every place that it passes. -/
theorem wayAround_of_descend (ht : v.trail.WellFormed) (hj : v.trail.Justified v.clauses)
    (hs : v.clauses.Stampable v.options) (hi : i ≤ v.trail.length) (h : Explores v conflict w i)
    (hn : n = w.openBelow v.trail i) (hopen : 0 < n)
    (hok : (descend v w n (v.trail.entries.take i).reverse).result = .ok (next, uip)) :
    ∀ p < i, v.trail.position uip.var < p → v.trail.WayAround v.clauses conflict p := by
  induction i generalizing w n with
  | zero => exact fun p hp => absurd hp (Nat.not_lt_zero p)
  | succ i ih =>
    obtain ⟨l, hl⟩ : ∃ l, v.trail.entries[i]? = some l := ⟨_, List.getElem?_eq_getElem hi⟩
    have hlevel := h.tracks.level_of_open ht hl (hn ▸ hopen)
    have hsucc := h.tracks.openBelow_succ ht hl hlevel
    -- it is enough to look at the place itself and at the rest of the walk
    have hsplit : 0 < w.openBelow v.trail i →
        (∀ p < i, v.trail.position uip.var < p → v.trail.WayAround v.clauses conflict p) →
        ∀ p < i + 1, v.trail.position uip.var < p → v.trail.WayAround v.clauses conflict p := by
      intro hstill hrest p hp huip
      rcases Nat.lt_or_eq_of_le (Nat.le_of_lt_succ hp) with hlt | rfl
      · exact hrest p hlt huip
      · exact h.wayAround hstill
    have hknown := ht.lt_numVariables_of_getElem? hl
    rw [List.take_add_one, hl, Option.toList_some, List.reverse_append, List.reverse_singleton,
      List.singleton_append, descend_cons (h.tracks.size_marks.symm ▸ hknown) hknown] at hok
    cases hseen : w.isSeen l.var with
    | false =>
      rw [hseen, if_neg Bool.false_ne_true] at hsucc
      rw [hseen, Bool.not_false, if_pos rfl] at hok
      exact hsplit (by omega)
        (ih (Nat.le_of_succ_le hi) (h.skip ht hl hseen) (by omega) hopen hok)
    | true =>
      rw [hseen, if_pos rfl] at hsucc
      rw [hseen, Bool.not_true, if_neg Bool.false_ne_true] at hok
      split at hok
      next hone =>
        -- the walk stops here
        obtain ⟨-, rfl⟩ := Prod.mk.inj (Except.ok.inj hok)
        intro p hp huip
        rw [(ht.entry i l hl).2.2] at huip
        omega
      next hmore =>
        split at hok
        next => cases hok
        next c hr =>
          obtain ⟨clause, hget, hok⟩ := Traced.result_bind_eq_ok_iff.1 hok
          obtain ⟨_, -, hok⟩ := Traced.result_bind_eq_ok_iff.1 hok
          obtain ⟨⟨mid, opened⟩, hresolve, hok⟩ := Traced.result_bind_eq_ok_iff.1 hok
          have hc : v.clauses.get? c = some clause := ClauseStore.get_eq_ok_iff.1 hget
          have hrest := (hj.of_get? (ht.isTrue_of_getElem? hl) hr hc).2
          rw [(ht.entry i l hl).2.2] at hrest
          obtain ⟨hmid, hcount⟩ := h.step ht hs hl hlevel hseen hr hc hrest hresolve
          exact hsplit (by omega)
            (ih (Nat.le_of_succ_le hi) hmid (by omega) (by omega) hok)

/-- The resolution of a false clause leaves a way around every place after the first unique
implication point. -/
theorem wayAround_of_firstUip {c : ClauseId} (ht : v.trail.WellFormed)
    (hj : v.trail.Justified v.clauses) (hs : v.clauses.Stampable v.options)
    (h : Tracks v.trail w) (hseen : w.seen = []) (hpending : w.activity.Pending v.clauses)
    (hc : v.clauses.get? c = some conflict)
    (hfalse : ∀ l ∈ conflict.literals, v.trail.isFalse l = true)
    (hok : (w.firstUip v c).result = .ok (next, uip)) :
    ∀ p < v.trail.length, v.trail.position uip.var < p →
      v.trail.WayAround v.clauses conflict p := by
  unfold firstUip at hok
  obtain ⟨clause, hget, hok⟩ := Traced.result_bind_eq_ok_iff.1 hok
  obtain rfl : conflict = clause :=
    Option.some.inj (hc.symm.trans (ClauseStore.get_eq_ok_iff.1 hget))
  obtain ⟨⟨met, opened⟩, hresolve, hok⟩ := Traced.result_bind_eq_ok_iff.1 hok
  obtain ⟨_, hrequire, hwalk⟩ := Traced.result_bind_eq_ok_iff.1 hok
  have hopened : 0 < opened := of_decide_eq_true (Traced.result_require_eq_ok_iff.1 hrequire)
  obtain ⟨hexplores, hcount⟩ := Explores.start ht hs h hseen hpending hc hfalse hresolve
  have hwhole : (descend v met opened (v.trail.entries.take v.trail.length).reverse).result =
      .ok (next, uip) := by
    rw [← Trail.length_entries, List.take_length]
    exact hwalk
  exact wayAround_of_descend ht hj hs (Nat.le_refl _) hexplores hcount hopened hwhole

end Workspace

end ClauseLearning
