import ClauseLearning.Proofs.Conflict.Meeting
import ClauseLearning.Proofs.Yields

/-!
# Resolution down to the first unique implication point

The walk down the trail keeps an account of the literals that are open: those met of the current
level whose places were not reached yet. Every literal of the current level whose place was reached
has been resolved, that is, all other literals of its reason have been met, too. While two literals
are open, the entry reached is not the decision of the level and has a reason, so the walk goes on;
and it ends before the trail does, because an open literal has a place ahead.
-/

set_option autoImplicit false

namespace ClauseLearning

namespace Workspace

/-- The number of literals met of the current level that stand before a place. -/
def openBelow (w : Workspace) (t : Trail) (i : Nat) : Nat :=
  w.seen.countP fun l => t.level l.var == t.currentLevel && decide (t.position l.var < i)

/-- The reason of a variable was resolved: its literals were met or belong to the root level. -/
def Resolves (v : View) (w : Workspace) (x : Variable) : Prop :=
  ∃ c clause, v.trail.reason x = some c ∧ v.clauses.get? c = some clause ∧
    w.Covers v.trail clause.literals

/-- The walk down the trail arrived at a place: the literals met are false and cover the conflict,
and those of the current level from the place on are resolved. -/
structure Descends (v : View) (conflict : Clause) (w : Workspace) (i : Nat) : Prop where
  tracks : Tracks v.trail w
  pending : w.activity.Pending v.clauses
  falsified : ∀ l ∈ w.seen, v.trail.isFalse l = true
  covers : w.Covers v.trail conflict.literals
  resolved : ∀ l ∈ w.seen, v.trail.level l.var = v.trail.currentLevel →
    i ≤ v.trail.position l.var → Resolves v w l.var

/-- The walk ended at the first unique implication point: its negation was met, and the other
literals met on the current level stand after it and are resolved. -/
structure FindsUip (v : View) (conflict : Clause) (w : Workspace) (uip : Literal) : Prop where
  tracks : Tracks v.trail w
  pending : w.activity.Pending v.clauses
  falsified : ∀ l ∈ w.seen, v.trail.isFalse l = true
  covers : w.Covers v.trail conflict.literals
  uip_true : v.trail.isTrue uip = true
  uip_level : v.trail.level uip.var = v.trail.currentLevel
  uip_seen : w.isSeen uip.var = true
  resolved : ∀ l ∈ w.seen, v.trail.level l.var = v.trail.currentLevel → l.var ≠ uip.var →
    v.trail.position uip.var < v.trail.position l.var ∧ Resolves v w l.var

namespace Tracks

variable {t : Trail} {w : Workspace}

/-- Only assigned variables are met. -/
theorem isAssigned (ht : t.WellFormed) (h : Tracks t w) {l : Literal} (hl : l ∈ w.seen) :
    t.isAssigned l.var = true := ht.isAssigned_of_level (h.above_root l hl)

/-- A literal met that was false before is the negation of the true literal of its variable. -/
theorem negate_mem_seen (h : Tracks t w) (hfalse : ∀ l ∈ w.seen, t.isFalse l = true) {l : Literal}
    (hl : t.isTrue l = true) (hseen : w.isSeen l.var = true) : l.negate ∈ w.seen := by
  obtain ⟨k, hk, hkl⟩ := (h.isSeen_iff l.var).1 hseen
  rcases Literal.eq_or_eq_negate hkl with rfl | rfl
  · have hno := Trail.isFalse_eq_false_of_isTrue hl
    rw [hfalse k hk] at hno
    cases hno
  · exact hk

/-- At an open place of the current level one literal is closed; at other places none is. -/
theorem openBelow_succ (ht : t.WellFormed) (h : Tracks t w) {i : Nat} {l : Literal}
    (hi : t.entries[i]? = some l) (hlevel : t.level l.var = t.currentLevel) :
    w.openBelow t (i + 1) = w.openBelow t i + if w.isSeen l.var then 1 else 0 := by
  have hposition := (ht.entry i l hi).2.2
  have hassigned := Trail.isAssigned_of_isTrue (ht.isTrue_of_getElem? hi)
  -- no two assigned variables have the same position
  have hhere : ∀ k ∈ w.seen, t.position k.var = i ↔ k.var = l.var := by
    intro k hk
    constructor
    · intro hki
      exact ht.eq_of_position_eq (h.isAssigned ht hk) hassigned (hki.trans hposition.symm)
    · intro hkl
      rw [hkl, hposition]
  have hcount : w.seen.countP (fun k => k.var == l.var) = if w.isSeen l.var then 1 else 0 := by
    have hmap : w.seen.countP (fun k => k.var == l.var) =
        (w.seen.map Literal.var).count l.var := by
      rw [List.count, List.countP_map]
      rfl
    rw [hmap]
    split
    next hseen =>
      obtain ⟨k, hk, hkl⟩ := (h.isSeen_iff l.var).1 hseen
      rw [h.distinct.count, if_pos (hkl ▸ List.mem_map_of_mem hk)]
    next hseen =>
      rw [List.count_eq_zero]
      intro hmem
      obtain ⟨k, hk, hkl⟩ := List.mem_map.1 hmem
      exact hseen ((h.isSeen_iff l.var).2 ⟨k, hk, hkl⟩)
  unfold openBelow
  rw [← hcount, List.countP_eq_countP_filter_add w.seen _ fun k => decide (t.position k.var < i),
    List.countP_filter, List.countP_filter]
  congr 1
  · refine List.countP_congr fun k _ => ?_
    simp only [Bool.and_eq_true, beq_iff_eq, decide_eq_true_eq]
    omega
  · refine List.countP_congr fun k hk => ?_
    simp only [Bool.and_eq_true, beq_iff_eq, decide_eq_true_eq, Bool.not_eq_true',
      decide_eq_false_iff_not]
    rw [← hhere k hk]
    constructor
    · omega
    · intro hki
      rw [(hhere k hk).1 hki]
      omega

/-- Where literals are open, the last place before belongs to the current level. -/
theorem level_of_open (ht : t.WellFormed) (h : Tracks t w) {i : Nat} {l : Literal}
    (hi : t.entries[i]? = some l) (hopen : 0 < w.openBelow t (i + 1)) :
    t.level l.var = t.currentLevel := by
  obtain ⟨k, hk, hkopen⟩ := List.countP_pos_iff.1 hopen
  simp only [Bool.and_eq_true, beq_iff_eq, decide_eq_true_eq] at hkopen
  have hposition := (ht.entry i l hi).2.2
  have hassigned := Trail.isAssigned_of_isTrue (ht.isTrue_of_getElem? hi)
  refine Nat.le_antisymm (ht.level_le _) ?_
  rw [← hkopen.1]
  exact ht.level_mono (h.isAssigned ht hk) hassigned (by omega)

end Tracks

/-- The literals that a clause opens are counted, if they stand before the place. -/
theorem Meets.openBelow_eq {t : Trail} {w next : Workspace} {ls : List Literal} {n : Nat}
    (h : Meets t w ls next n) {i : Nat}
    (hbefore : ∀ l ∈ ls, w.isSeen l.var = false → t.level l.var = t.currentLevel →
      t.position l.var < i) : next.openBelow t i = w.openBelow t i + n := by
  obtain ⟨new, hseen, hnew, hn⟩ := h.seen_eq
  unfold openBelow
  rw [hseen, List.countP_append, hn]
  congr 1
  refine List.countP_congr fun l hl => ?_
  obtain ⟨hmem, hunseen⟩ := hnew l hl
  simp only [Bool.and_eq_true, beq_iff_eq, decide_eq_true_eq, and_iff_left_iff_imp]
  exact hbefore l hmem hunseen

variable {v : View} {conflict : Clause} {w next : Workspace} {l : Literal} {i n : Nat}

/-- What was resolved stays resolved when more is met. -/
theorem Resolves.mono {x : Variable} (htracks : Tracks v.trail w)
    (hnext : Tracks v.trail next) (hsub : w.seen ⊆ next.seen) (h : Resolves v w x) :
    Resolves v next x := by
  obtain ⟨c, clause, hr, hc, hcovers⟩ := h
  exact ⟨c, clause, hr, hc, htracks.covers_mono hnext hsub hcovers⟩

namespace Descends

/-- The conflict itself can be resolved with, which opens its literals of the current level. -/
theorem start {c : ClauseId} (ht : v.trail.WellFormed) (hs : v.clauses.Stampable v.options)
    (h : Tracks v.trail w) (hseen : w.seen = []) (hpending : w.activity.Pending v.clauses)
    (hc : v.clauses.get? c = some conflict)
    (hfalse : ∀ l ∈ conflict.literals, v.trail.isFalse l = true) :
    (w.resolve v c conflict).Yields fun (next, n) =>
      Descends v conflict next v.trail.length ∧ n = next.openBelow v.trail v.trail.length ∧
        (0 < v.trail.currentLevel →
          (∃ l ∈ conflict.literals, v.trail.level l.var = v.trail.currentLevel) → 0 < n) := by
  obtain ⟨next, n, hok⟩ := exists_resolve ht hs h hc fun l hl => Or.inr (hfalse l hl)
  obtain ⟨⟨a, hmeets⟩, hnext⟩ := meets_of_resolve ht hs h hpending hc hok
  have hbefore : ∀ l ∈ next.seen, v.trail.position l.var < v.trail.length :=
    fun l hl => ht.position_lt (hmeets.tracks.isAssigned ht hl)
  -- nothing was open before, and what is opened stands on the trail
  have hn : n = next.openBelow v.trail v.trail.length := by
    have hopen := hmeets.openBelow_eq (i := v.trail.length) fun l hl _ _ =>
      ht.position_lt (Trail.isAssigned_of_isFalse (hfalse l hl))
    have hzero : ({ w with activity := a } : Workspace).openBelow v.trail v.trail.length = 0 := by
      unfold openBelow
      rw [hseen]
      rfl
    omega
  refine ⟨(next, n), hok, ⟨hmeets.tracks, hnext, ?_, hmeets.covers, ?_⟩, hn, ?_⟩
  · obtain ⟨new, heq, hnew, -⟩ := hmeets.seen_eq
    intro l hl
    rw [heq, hseen, List.nil_append] at hl
    exact hfalse l (hnew l hl).1
  · intro l hl _ hge
    have := hbefore l hl
    omega
  · rintro hpos ⟨l, hl, hlevel⟩
    have hlseen : next.isSeen l.var = true :=
      (hmeets.covers l hl).resolve_left (by rw [hlevel]; omega)
    obtain ⟨k, hk, hkl⟩ := (hmeets.tracks.isSeen_iff l.var).1 hlseen
    rw [hn]
    refine List.countP_pos_iff.2 ⟨k, hk, ?_⟩
    simp only [Bool.and_eq_true, beq_iff_eq, decide_eq_true_eq]
    exact ⟨hkl ▸ hlevel, hbefore k hk⟩

/-- A place that was not met is passed by. -/
theorem skip (ht : v.trail.WellFormed) (h : Descends v conflict w (i + 1))
    (hi : v.trail.entries[i]? = some l) (hunseen : w.isSeen l.var = false) :
    Descends v conflict w i := by
  refine ⟨h.tracks, h.pending, h.falsified, h.covers, fun k hk hlevel hge => ?_⟩
  refine h.resolved k hk hlevel (Nat.lt_of_le_of_ne hge fun heq => ?_)
  have hvar : k.var = l.var := ht.eq_of_position_eq (h.tracks.isAssigned ht hk)
    (Trail.isAssigned_of_isTrue (ht.isTrue_of_getElem? hi)) (by rw [← heq, (ht.entry i l hi).2.2])
  rw [(h.tracks.isSeen_iff l.var).2 ⟨k, hk, hvar⟩] at hunseen
  cases hunseen

/-- While another literal is open, the literal at the place does not open its level. -/
theorem not_mem_delimiters (ht : v.trail.WellFormed) (h : Descends v conflict w (i + 1))
    (hi : v.trail.entries[i]? = some l) (hlevel : v.trail.level l.var = v.trail.currentLevel)
    (hopen : 0 < w.openBelow v.trail i) : v.trail.position l.var ∉ v.trail.delimiters := by
  have hposition := (ht.entry i l hi).2.2
  obtain ⟨k, hk, hkopen⟩ := List.countP_pos_iff.1 hopen
  simp only [Bool.and_eq_true, beq_iff_eq, decide_eq_true_eq] at hkopen
  exact ht.not_mem_delimiters (h.tracks.isAssigned ht hk)
    (Trail.isAssigned_of_isTrue (ht.isTrue_of_getElem? hi)) (hkopen.1.trans hlevel.symm) (by omega)

/-- The reason of the literal at an open place can be resolved with. -/
theorem step {c : ClauseId} {clause : Clause} (ht : v.trail.WellFormed)
    (hs : v.clauses.Stampable v.options) (h : Descends v conflict w (i + 1))
    (hi : v.trail.entries[i]? = some l) (hseen : w.isSeen l.var = true)
    (hr : v.trail.reason l.var = some c) (hc : v.clauses.get? c = some clause)
    (hrest : ∀ k ∈ clause.literals, k ≠ l →
      v.trail.isFalse k = true ∧ v.trail.position k.var < i) :
    (w.resolve v c clause).Yields fun (next, n) =>
      Descends v conflict next i ∧ next.openBelow v.trail i = w.openBelow v.trail i + n := by
  have hliteral : ∀ k ∈ clause.literals, w.isSeen k.var = true ∨
      v.trail.isFalse k = true ∧ v.trail.position k.var < i := by
    intro k hk
    by_cases hkl : k = l
    · exact Or.inl (hkl ▸ hseen)
    · exact Or.inr (hrest k hk hkl)
  obtain ⟨next, n, hok⟩ :=
    exists_resolve ht hs h.tracks hc fun k hk => (hliteral k hk).imp_right And.left
  obtain ⟨⟨a, hmeets⟩, hnext⟩ := meets_of_resolve ht hs h.tracks h.pending hc hok
  have hsub : w.seen ⊆ next.seen := hmeets.subset
  -- what is met here for the first time is false and stands in front of the place
  have hnew_false : ∀ k ∈ next.seen, k ∈ w.seen ∨
      v.trail.isFalse k = true ∧ v.trail.position k.var < i := by
    obtain ⟨new, heq, hnew, -⟩ := hmeets.seen_eq
    intro k hk
    rw [heq] at hk
    rcases List.mem_append.1 hk with hk | hk
    · exact Or.inl hk
    · obtain ⟨hmem, hunseen⟩ := hnew k hk
      refine Or.inr ((hliteral k hmem).resolve_left fun hkseen => ?_)
      rw [show w.isSeen k.var = false from hunseen] at hkseen
      cases hkseen
  refine ⟨(next, n), hok, ⟨hmeets.tracks, hnext, ?_, ?_, ?_⟩, ?_⟩
  · intro k hk
    rcases hnew_false k hk with hk | hk
    · exact h.falsified k hk
    · exact hk.1
  · exact h.tracks.covers_mono hmeets.tracks hsub h.covers
  · intro k hk hlevel hge
    rcases hnew_false k hk with hk | hk
    · rcases Nat.lt_or_eq_of_le hge with hlt | heq
      · exact (h.resolved k hk hlevel hlt).mono h.tracks hmeets.tracks hsub
      · have hvar : k.var = l.var := ht.eq_of_position_eq (h.tracks.isAssigned ht hk)
          (Trail.isAssigned_of_isTrue (ht.isTrue_of_getElem? hi))
          (by rw [← heq, (ht.entry i l hi).2.2])
        rw [hvar]
        exact ⟨c, clause, hr, hc, hmeets.covers⟩
    · omega
  · refine hmeets.openBelow_eq fun k hk hunseen _ => ?_
    refine ((hliteral k hk).resolve_left fun hkseen => ?_).2
    rw [show w.isSeen k.var = false from hunseen] at hkseen
    cases hkseen

/-- The last open literal is the first unique implication point. -/
theorem findsUip (ht : v.trail.WellFormed) (h : Descends v conflict w (i + 1))
    (hi : v.trail.entries[i]? = some l) (hlevel : v.trail.level l.var = v.trail.currentLevel)
    (hseen : w.isSeen l.var = true) (hlast : w.openBelow v.trail i = 0) :
    FindsUip v conflict w l := by
  have hposition := (ht.entry i l hi).2.2
  have htrue := ht.isTrue_of_getElem? hi
  refine ⟨h.tracks, h.pending, h.falsified, h.covers, htrue, hlevel, hseen, ?_⟩
  intro k hk hklevel hkl
  have hge : i ≤ v.trail.position k.var := by
    by_contra hlt
    have hpos : 0 < w.openBelow v.trail i := by
      refine List.countP_pos_iff.2 ⟨k, hk, ?_⟩
      simp only [Bool.and_eq_true, beq_iff_eq, decide_eq_true_eq]
      exact ⟨hklevel, Nat.lt_of_not_le hlt⟩
    omega
  have hne : i ≠ v.trail.position k.var := by
    intro heq
    exact hkl (ht.eq_of_position_eq (h.tracks.isAssigned ht hk) (Trail.isAssigned_of_isTrue htrue)
      (heq.symm.trans hposition.symm))
  have hlt : i < v.trail.position k.var := Nat.lt_of_le_of_ne hge hne
  exact ⟨by omega, h.resolved k hk hklevel hlt⟩

end Descends

/-- The walk down the trail finds the first unique implication point, or it stops at a literal that
should have a reason. -/
theorem descend_cases (ht : v.trail.WellFormed) (he : v.trail.Justified v.clauses)
    (hs : v.clauses.Stampable v.options) (hpos : 0 < v.trail.currentLevel)
    (hi : i ≤ v.trail.length) (h : Descends v conflict w i)
    (hn : n = w.openBelow v.trail i) (hopen : 0 < n) :
    ((descend v w n (v.trail.entries.take i).reverse).Yields fun (next, uip) =>
        FindsUip v conflict next uip) ∨
      (descend v w n (v.trail.entries.take i).reverse).result = .error .decisionResolved ∧
        ¬ v.trail.Explained v.clauses := by
  induction i generalizing w n with
  | zero =>
    -- nothing stands before the first place
    have hzero : w.openBelow v.trail 0 = 0 := by
      unfold openBelow
      rw [List.countP_eq_zero]
      simp
    omega
  | succ i ih =>
    have hlen : i < v.trail.entries.length := hi
    obtain ⟨l, hl⟩ : ∃ l, v.trail.entries[i]? = some l := ⟨_, List.getElem?_eq_getElem hlen⟩
    have hlevel := h.tracks.level_of_open ht hl (hn ▸ hopen)
    have hsucc := h.tracks.openBelow_succ ht hl hlevel
    have hknown := ht.lt_numVariables_of_getElem? hl
    rw [List.take_add_one, hl, Option.toList_some, List.reverse_append, List.reverse_singleton,
      List.singleton_append, descend_cons (h.tracks.size_marks.symm ▸ hknown) hknown]
    cases hseen : w.isSeen l.var with
    | false =>
      rw [hseen, if_neg Bool.false_ne_true] at hsucc
      exact ih (Nat.le_of_succ_le hi) (h.skip ht hl hseen) (by omega) hopen
    | true =>
      rw [hseen, if_pos rfl] at hsucc
      simp only [Bool.not_true, Bool.false_eq_true, if_false]
      by_cases hone : n = 1
      · rw [if_pos hone]
        have hlast : w.openBelow v.trail i = 0 := by omega
        exact Or.inl (.pure (h.findsUip ht hl hlevel hseen hlast))
      · rw [if_neg hone]
        have htrue := ht.isTrue_of_getElem? hl
        cases hr : v.trail.reason l.var with
        | none =>
          have hno := h.not_mem_delimiters ht hl hlevel (by omega)
          exact Or.inr ⟨rfl, fun hex => hno (hex.unexplained l htrue (hlevel ▸ hpos) hr)⟩
        | some c =>
          obtain ⟨clause, hc, hmem, hrest⟩ := he l c htrue hr
          rw [(ht.entry i l hl).2.2] at hrest
          obtain ⟨⟨next, k⟩, hresolve, hnext, hcount⟩ := h.step ht hs hl hseen hr hc hrest
          have hstill : n - 1 + k = next.openBelow v.trail i := by
            rw [hcount]
            omega
          have hget : (liftM (v.clauses.get c) : Traced Clause).result = .ok clause :=
            ClauseStore.get_eq_ok_iff.2 hc
          simp only [Traced.Yields]
          rw [Traced.result_bind_of_ok hget, Traced.result_bind_of_ok (Traced.result_tell _),
            Traced.result_bind_of_ok hresolve]
          exact ih (Nat.le_of_succ_le hi) hnext hstill (by omega)

/-- A false clause with a literal of the current level is resolved down to the first unique
implication point, unless a literal lacks a reason that it should have. -/
theorem firstUip_cases {c : ClauseId} (ht : v.trail.WellFormed)
    (he : v.trail.Justified v.clauses) (hs : v.clauses.Stampable v.options)
    (hpos : 0 < v.trail.currentLevel) (h : Tracks v.trail w) (hseen : w.seen = [])
    (hpending : w.activity.Pending v.clauses) (hc : v.clauses.get? c = some conflict)
    (hfalse : ∀ l ∈ conflict.literals, v.trail.isFalse l = true)
    (hcurrent : ∃ l ∈ conflict.literals, v.trail.level l.var = v.trail.currentLevel) :
    ((w.firstUip v c).Yields fun (next, uip) => FindsUip v conflict next uip) ∨
      (w.firstUip v c).result = .error .decisionResolved ∧ ¬ v.trail.Explained v.clauses := by
  have hget : (liftM (v.clauses.get c) : Traced Clause).result = .ok conflict :=
    ClauseStore.get_eq_ok_iff.2 hc
  obtain ⟨⟨next, n⟩, hresolve, hnext, hn, hopen⟩ :=
    Descends.start ht hs h hseen hpending hc hfalse
  have hn_pos := hopen hpos hcurrent
  have hrequire : ∀ e : Fault, (Traced.require (decide (0 < n)) e).result = .ok () :=
    fun _ => Traced.result_require_eq_ok_iff.2 (decide_eq_true hn_pos)
  have hwalk := descend_cases ht he hs hpos (Nat.le_refl _) hnext hn hn_pos
  rw [← Trail.length_entries, List.take_length] at hwalk
  unfold firstUip Traced.Yields
  rw [Traced.result_bind_of_ok hget, Traced.result_bind_of_ok hresolve,
    Traced.result_bind_of_ok (hrequire _)]
  exact hwalk

/-- A false clause with a literal of the current level is resolved down to a first unique
implication point, if all assignments above the root are explained. -/
theorem firstUip_yields {c : ClauseId} (ht : v.trail.WellFormed)
    (he : v.trail.Explained v.clauses) (hs : v.clauses.Stampable v.options)
    (hpos : 0 < v.trail.currentLevel) (h : Tracks v.trail w) (hseen : w.seen = [])
    (hpending : w.activity.Pending v.clauses) (hc : v.clauses.get? c = some conflict)
    (hfalse : ∀ l ∈ conflict.literals, v.trail.isFalse l = true)
    (hcurrent : ∃ l ∈ conflict.literals, v.trail.level l.var = v.trail.currentLevel) :
    (w.firstUip v c).Yields fun (next, uip) => FindsUip v conflict next uip :=
  (firstUip_cases ht he.justified hs hpos h hseen hpending hc hfalse hcurrent).resolve_right
    fun hno => hno.2 he

/-- An analysis that succeeds was given a conflict with a literal of the current level. -/
theorem exists_current_of_firstUip {c : ClauseId} {uip : Literal} (ht : v.trail.WellFormed)
    (hs : v.clauses.Stampable v.options) (h : Tracks v.trail w)
    (hpending : w.activity.Pending v.clauses) (hc : v.clauses.get? c = some conflict)
    (hok : (w.firstUip v c).result = .ok (next, uip)) :
    ∃ l ∈ conflict.literals, v.trail.level l.var = v.trail.currentLevel := by
  unfold firstUip at hok
  obtain ⟨clause, hget, hok⟩ := Traced.result_bind_eq_ok_iff.1 hok
  obtain rfl : conflict = clause :=
    Option.some.inj (hc.symm.trans (ClauseStore.get_eq_ok_iff.1 hget))
  obtain ⟨⟨w₁, n⟩, hresolve, hok⟩ := Traced.result_bind_eq_ok_iff.1 hok
  obtain ⟨_, hrequire, -⟩ := Traced.result_bind_eq_ok_iff.1 hok
  have hn : 0 < n := of_decide_eq_true (Traced.result_require_eq_ok_iff.1 hrequire)
  obtain ⟨⟨a, hmeets⟩, -⟩ := meets_of_resolve ht hs h hpending hc hresolve
  obtain ⟨new, -, hnew, hcount⟩ := hmeets.seen_eq
  rw [hcount] at hn
  obtain ⟨l, hl, hlevel⟩ := List.countP_pos_iff.1 hn
  exact ⟨l, (hnew l hl).1, beq_iff_eq.1 hlevel⟩

/-- Where the resolution of a false clause ends, it has found the first unique implication point,
also if some literals lack a reason. -/
theorem firstUip_ensures {c : ClauseId} (ht : v.trail.WellFormed)
    (he : v.trail.Justified v.clauses) (hs : v.clauses.Stampable v.options)
    (hpos : 0 < v.trail.currentLevel) (h : Tracks v.trail w) (hseen : w.seen = [])
    (hpending : w.activity.Pending v.clauses) (hc : v.clauses.get? c = some conflict)
    (hfalse : ∀ l ∈ conflict.literals, v.trail.isFalse l = true) :
    (w.firstUip v c).Ensures fun (next, uip) => FindsUip v conflict next uip := by
  rintro ⟨next, uip⟩ hok
  have hcurrent := exists_current_of_firstUip ht hs h hpending hc hok
  rcases firstUip_cases ht he hs hpos h hseen hpending hc hfalse hcurrent with hyields | ⟨hno, -⟩
  · exact hyields.of_result hok
  · rw [hok] at hno
    cases hno

/-! ## Whatever the clauses are

Without any assumption on the conflict and the reasons the walk may fault, but as long as it goes
on, what was met is kept track of. -/

/-- Resolving with a clause keeps track of what was met. -/
theorem resolve_ensures (ht : v.trail.WellFormed) (h : Tracks v.trail w) (c : ClauseId)
    (clause : Clause) : (w.resolve v c clause).Ensures fun (next, _) => Tracks v.trail next := by
  unfold resolve
  refine .bind .any fun a _ => ?_
  rintro ⟨next, n⟩ hok
  exact (meets_of_result ht (h.withActivity a) hok).tracks

/-- What an invariant of the walk down the trail says at the end. The invariant is about the entries
ahead: it is kept at an entry that was not met, and by resolving with the reason of one that was. -/
theorem descend_ensures {I : List Literal → Workspace → Prop} {P : Workspace × Literal → Prop}
    (hpass : ∀ {w l ls}, I (l :: ls) w → w.isSeen l.var = false → I ls w)
    (hresolve : ∀ {w l ls c clause}, I (l :: ls) w → w.isSeen l.var = true →
      v.trail.reason l.var = some c → v.clauses.get? c = some clause →
      (w.resolve v c clause).Ensures fun (next, _) => I ls next)
    (hend : ∀ {w l ls}, I (l :: ls) w → w.isSeen l.var = true → P (w, l))
    {ls : List Literal} (h : I ls w) (n : Nat) : (descend v w n ls).Ensures P := by
  induction ls generalizing w n with
  | nil => exact .fault
  | cons l ls ih =>
    unfold descend
    refine .bind .any fun _ _ => ?_
    split
    next hunseen => exact ih (hpass h (by simpa using hunseen)) n
    next hmet =>
      have hseen : w.isSeen l.var = true := by simpa using hmet
      split
      · exact .pure (hend h hseen)
      · refine .bind .any fun _ _ => ?_
        split
        next => exact .fault
        next c hreason =>
          refine .bind (.lift fun clause hget => ClauseStore.get_eq_ok_iff.1 hget) ?_
          intro clause hc
          refine .bind .any fun _ _ => .bind (hresolve h hseen hreason hc) ?_
          rintro ⟨next, opened⟩ hnext
          exact ih hnext _

/-- On the way to the implication point track is kept of what was met. -/
theorem firstUip_tracks (ht : v.trail.WellFormed) (h : Tracks v.trail w) (c : ClauseId) :
    (w.firstUip v c).Ensures fun (next, _) => Tracks v.trail next := by
  unfold firstUip
  refine .bind .any fun clause _ => .bind (resolve_ensures ht h c clause) ?_
  rintro ⟨next, n⟩ hnext
  refine .bind .any fun _ _ => ?_
  exact descend_ensures (fun hw _ => hw) (fun hw _ _ _ => resolve_ensures ht hw _ _)
    (fun hw _ => hw) hnext n

end Workspace

end ClauseLearning
