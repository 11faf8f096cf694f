import ClauseLearning.Proofs.Conflict.Walk

/-!
# The records of a walk

A walk keeps flags, three lists and a record for every level, and it counts the open literals. All
of this tells the same thing in different forms. The flags are those of the variables met, each of
which was met once; these are the variables above the root of the conflict and of the reasons that
the walk told that it resolves; and of every level the record has the number of variables met and
the lowest of their positions.

The count ties the walk to the list. Each resolution closes one literal of the current level and
opens those that it adds to the list, so when one literal is left open, all but one of the current
level were resolved. As the walk goes down the trail, it is the lowest one that is left.
-/

set_option autoImplicit false

namespace ClauseLearning

/-- The reason that an event tells of, with the literal whose reason it is. -/
def Event.resolution? : Event → Option (Clause × Literal)
  | analysingReason clause l => some (clause, l)
  | _ => none

/-- The reasons that a computation told that it resolves, each with its literal, in this order. -/
def Traced.resolutions {α : Type} (m : Traced α) : List (Clause × Literal) :=
  m.told Event.resolution?

/-- Along the trail the positions ascend. -/
theorem Trail.WellFormed.pairwise_position {t : Trail} (ht : t.WellFormed) :
    t.entries.Pairwise fun k l => t.position k.var < t.position l.var := by
  rw [List.pairwise_iff_getElem]
  intro i j hi hj hij
  rw [(ht.entry i _ (List.getElem?_eq_getElem hi)).2.2,
    (ht.entry j _ (List.getElem?_eq_getElem hj)).2.2]
  exact hij

namespace LevelRecord

/-- A record that has a lowest position keeps the minimum. -/
theorem lowest_foldl {t : Trail} {ls : List Literal} {r : LevelRecord} {m : Nat}
    (h : r.lowest = some m) : (ls.foldl (fun r l => r.note (t.position l.var)) r).lowest =
      some ((ls.map fun l => t.position l.var).foldl min m) := by
  induction ls generalizing r m with
  | nil => simpa using h
  | cons l ls ih =>
    have hnote : (r.note (t.position l.var)).lowest = some (min m (t.position l.var)) := by
      simp [note, h]
    rw [List.foldl_cons, ih hnote, List.map_cons, List.foldl_cons]

/-- A record has the lowest position of the literals met of its level. -/
theorem lowest_ofSeen (t : Trail) (seen : List Literal) (level : Nat) :
    (ofSeen t seen level).lowest =
      ((seen.filter fun l => t.level l.var == level).map fun l => t.position l.var).min? := by
  unfold ofSeen
  cases seen.filter fun l => t.level l.var == level with
  | nil => simp
  | cons l ls =>
    rw [List.foldl_cons, lowest_foldl (m := t.position l.var) (by simp [note]), List.map_cons,
      List.min?_cons']

end LevelRecord

namespace Workspace

variable {v : View} {w next : Workspace} {uip : Literal} {n : Nat} {cs : List ClauseId}

/-- The variables of the list of literals met. -/
def seenVariables (w : Workspace) : List Variable := w.seen.map Literal.var

/-- The variables met of a level. -/
def seenAt (w : Workspace) (t : Trail) (level : Nat) : List Variable :=
  w.seenVariables.filter fun x => t.level x == level

/-- The variables met of a level are the variables met that have this level. -/
theorem mem_seenAt {t : Trail} {level : Nat} {x : Variable} :
    x ∈ w.seenAt t level ↔ x ∈ w.seenVariables ∧ t.level x = level := by
  simp [seenAt]

/-- The variables met of a level come from the literals met of that level. -/
theorem seenAt_eq_map (w : Workspace) (t : Trail) (level : Nat) :
    w.seenAt t level = (w.seen.filter fun l => t.level l.var == level).map Literal.var := by
  unfold seenAt seenVariables
  rw [List.filter_map]
  rfl

namespace Tracks

variable {t : Trail}

/-- The marks tell which variables are in the list of those met. -/
theorem mem_seenVariables (h : Tracks t w) (x : Variable) :
    w.isSeen x = true ↔ x ∈ w.seenVariables := by
  unfold seenVariables
  rw [h.isSeen_iff, List.mem_map]

/-- The record of a level counts the variables met of it. -/
theorem seenCount_get (h : Tracks t w) (level : Nat) :
    (w.records.get level).seenCount = (w.seenAt t level).length := by
  rw [h.records_eq, LevelRecord.seenCount_ofSeen, seenAt_eq_map, List.length_map,
    List.countP_eq_length_filter]

/-- The record of a level has the lowest position of the variables met of it. -/
theorem lowest_get (h : Tracks t w) (level : Nat) :
    (w.records.get level).lowest = ((w.seenAt t level).map t.position).min? := by
  rw [h.records_eq, LevelRecord.lowest_ofSeen, seenAt_eq_map, List.map_map]
  rfl

/-- A level of which nothing was met has the default record. -/
theorem get_eq_default (h : Tracks t w) {level : Nat} (hnone : w.seenAt t level = []) :
    w.records.get level = {} := by
  have hcount := h.seenCount_get level
  have hlowest := h.lowest_get level
  rw [hnone] at hcount hlowest
  cases hrecord : w.records.get level with
  | mk seenCount lowest =>
    rw [hrecord] at hcount hlowest
    simp_all

/-- The levels listed are those of which a variable was met. -/
theorem mem_levels_iff_seenAt (h : Tracks t w) (level : Nat) :
    level ∈ w.levels ↔ w.seenAt t level ≠ [] := by
  rw [h.mem_levels_iff, seenAt_eq_map, ne_eq, List.map_eq_nil_iff, List.filter_eq_nil_iff]
  simp

end Tracks

/-- What a clause adds to the current level was counted. -/
theorem Meets.length_seenAt {t : Trail} {ls : List Literal} (h : Meets t w ls next n) :
    (next.seenAt t t.currentLevel).length = (w.seenAt t t.currentLevel).length + n := by
  obtain ⟨new, hseen, -, hcount⟩ := h.seen_eq
  rw [seenAt_eq_map, seenAt_eq_map, hseen, hcount, List.filter_append, List.map_append,
    List.length_append, List.length_map, List.length_map, List.countP_eq_length_filter]

/-- Resolving with a clause tells of no further reason. -/
theorem told_resolve (v : View) (w : Workspace) (c : ClauseId) (clause : Clause) :
    (w.resolve v c clause).told Event.resolution? = [] := by
  have hmark : (w.activity.mark v.audit v.options c clause).told Event.resolution? = [] := by
    unfold Activity.mark
    split
    · exact Traced.told_bind_eq_nil (Traced.told_require _ _) fun _ => rfl
    · rfl
  have hevents : ∀ (w : Workspace) (l : Literal),
      (w.meetEvents v.trail l).filterMap Event.resolution? = [] := by
    intro w l
    unfold meetEvents
    split <;> rfl
  have htake : ∀ (w : Workspace) (l : Literal), (w.take v l).told Event.resolution? = [] := by
    intro w l
    unfold take
    split
    · rfl
    · apply Traced.told_bind_eq_nil (Traced.told_require _ _)
      intro _
      exact Traced.told_bind_eq_nil (hevents w l) fun _ => rfl
  have hmeet : ∀ (w : Workspace) (l : Literal), (w.meet v l).told Event.resolution? = [] :=
    fun w l => Traced.told_bind_eq_nil rfl fun _ => htake w l
  have hall : ∀ (ls : List Literal) (w : Workspace),
      (meetAll v w ls).told Event.resolution? = [] := by
    intro ls
    induction ls with
    | nil => exact fun _ => rfl
    | cons l ls ih =>
      intro w
      apply Traced.told_bind_eq_nil (hmeet w l)
      intro p
      exact Traced.told_bind_eq_nil (ih p.1) fun _ => rfl
  exact Traced.told_bind_eq_nil hmark fun _ => hall _ _

/-- Resolving adds to the variables met of the current level as many as it opens. -/
theorem length_seenAt_resolve (ht : v.trail.WellFormed) (h : Tracks v.trail w) {c : ClauseId}
    {clause : Clause} (hok : (w.resolve v c clause).result = .ok (next, n)) :
    (next.seenAt v.trail v.trail.currentLevel).length =
      (w.seenAt v.trail v.trail.currentLevel).length + n := by
  obtain ⟨activity, -, hok⟩ := Traced.result_bind_eq_ok_iff.1 hok
  exact (meets_of_result ht (h.withActivity activity) hok).length_seenAt

/-- What was met by some clauses stays met when more clauses are used. -/
theorem Used.isSeen_append {next : Workspace} {ds : List ClauseId} (h : Used v n cs w)
    (hnext : Used v n (cs ++ ds) next) {x : Variable} (hx : w.isSeen x = true) :
    next.isSeen x = true := by
  obtain ⟨hpos, hmentions⟩ := (h.isSeen_iff x).1 hx
  apply (hnext.isSeen_iff x).2
  unfold View.mentions at hmentions ⊢
  rw [List.any_append, hmentions]
  exact ⟨hpos, rfl⟩

/-- A clause is the recorded reason of a literal. -/
def IsReason (v : View) (d : ClauseId) (r : Clause × Literal) : Prop :=
  v.trail.reason r.2.var = some d ∧ v.clauses.get? d = some r.1

/-- A walk down a part of the trail resolved the reasons told, on top of the clauses used before,
and found a literal. All literals resolved were met, and when the walk started, one literal was open
more than the resolutions still had to close. -/
structure Walks (v : View) (n : Nat) (cs : List ClauseId) (w : Workspace) (openCount : Nat)
    (ls : List Literal) (told : List (Clause × Literal)) (next : Workspace) (uip : Literal) :
    Prop where
  used : ∃ ds, List.Forall₂ (IsReason v) ds told ∧ Used v n (cs ++ ds) next
  passes : (told.map Prod.snd ++ [uip]).Sublist ls
  met : ∀ l ∈ told.map Prod.snd ++ [uip], next.isSeen l.var = true
  count : openCount + (next.seenAt v.trail v.trail.currentLevel).length =
    told.length + 1 + (w.seenAt v.trail v.trail.currentLevel).length

namespace Walks

variable {l : Literal} {ls : List Literal} {told : List (Clause × Literal)} {k : Nat}

/-- A literal that was not met is passed. -/
theorem skip (h : Walks v n cs w k ls told next uip) (l : Literal) :
    Walks v n cs w k (l :: ls) told next uip :=
  { h with passes := h.passes.cons l }

/-- The last open literal is found. -/
theorem here (h : Used v n cs w) (hl : w.isSeen l.var = true) (ls : List Literal) :
    Walks v n cs w 1 (l :: ls) [] w l where
  used := ⟨[], .nil, by rwa [List.append_nil]⟩
  passes := by simp
  met := by simpa using hl
  count := by simp

/-- The reason of a literal met was resolved, and the walk went on from there. -/
theorem resolve {c : ClauseId} {clause : Clause} {opened : Nat} {mid : Workspace}
    (hused : Used v n cs w) (hl : w.isSeen l.var = true) (hopen : 0 < k)
    (hreason : IsReason v c (clause, l))
    (hcount : (mid.seenAt v.trail v.trail.currentLevel).length =
      (w.seenAt v.trail v.trail.currentLevel).length + opened)
    (h : Walks v n (cs ++ [c]) mid (k - 1 + opened) ls told next uip) :
    Walks v n cs w k (l :: ls) ((clause, l) :: told) next uip := by
  obtain ⟨ds, hreasons, hnext⟩ := h.used
  rw [List.append_assoc, List.singleton_append] at hnext
  refine ⟨⟨c :: ds, .cons hreason hreasons, hnext⟩, ?_, ?_, ?_⟩
  · rw [List.map_cons, List.cons_append]
    exact h.passes.cons_cons l
  · intro x hx
    rw [List.map_cons, List.cons_append, List.mem_cons] at hx
    rcases hx with rfl | hx
    · exact hused.isSeen_append hnext hl
    · exact h.met x hx
  · have hrest := h.count
    rw [hcount] at hrest
    rw [List.length_cons]
    omega

end Walks

/-- Whatever the walk returns, it walked. The induction goes down the trail; the count of open
literals stays positive, as the last one ends the walk. -/
theorem walks_of_descend (ht : v.trail.WellFormed) (h : Used v n cs w) {k : Nat} (hopen : 0 < k)
    {ls : List Literal} (hok : (descend v w k ls).result = .ok (next, uip)) :
    Walks v n cs w k ls (descend v w k ls).resolutions next uip := by
  induction ls generalizing w cs k with
  | nil => cases hok
  | cons l ls ih =>
    unfold descend at hok ⊢
    obtain ⟨_, hmarked, hok⟩ := Traced.result_bind_eq_ok_iff.1 hok
    unfold Traced.resolutions
    rw [Traced.told_bind hmarked]
    by_cases hmet : w.isSeen l.var = true
    · simp only [hmet, Bool.not_true, Bool.false_eq_true, if_false] at hok ⊢
      by_cases hlast : k = 1
      · subst hlast
        obtain ⟨rfl, rfl⟩ := Prod.mk.inj (Except.ok.inj hok)
        exact .here h hmet ls
      · rw [if_neg hlast] at hok ⊢
        obtain ⟨_, hknown, hok⟩ := Traced.result_bind_eq_ok_iff.1 hok
        rw [Traced.told_bind hknown]
        cases hr : v.trail.reason l.var with
        | none =>
          rw [hr] at hok
          cases hok
        | some c =>
          simp only [hr] at hok ⊢
          obtain ⟨clause, hget, hok⟩ := Traced.result_bind_eq_ok_iff.1 hok
          obtain ⟨_, htell, hok⟩ := Traced.result_bind_eq_ok_iff.1 hok
          obtain ⟨⟨mid, opened⟩, hresolve, hok⟩ := Traced.result_bind_eq_ok_iff.1 hok
          have hc : v.clauses.get? c = some clause := ClauseStore.get_eq_ok_iff.1 hget
          -- the last open literal would have ended the walk
          have hstill : 0 < k - 1 + opened := by omega
          have hrest := ih (h.resolve ht hc hresolve) hstill hok
          rw [Traced.told_bind hget, Traced.told_bind htell, Traced.told_bind hresolve,
            told_resolve]
          exact .resolve h hmet hopen ⟨hr, hc⟩ (length_seenAt_resolve ht h.tracks hresolve) hrest
    · simp only [hmet, Bool.not_false, if_true] at hok ⊢
      exact (ih h hopen hok).skip l

/-- What is left when a conflict was resolved down to its first unique implication point. The flags
tell which variables were met, each of which is listed once; they are the variables above the root
of the conflict and of the reasons resolved. The reasons resolved are those of all variables met of
the current level but one, which was assigned before the others. Every level has the number and the
lowest position of its variables, and is listed if it has any; the literals of lower levels form the
clause under construction. -/
structure ExactRecords (v : View) (conflict : Clause) (w : Workspace) (uip : Literal)
    (resolved : List (Clause × Literal)) : Prop where
  nodup : w.seenVariables.Nodup
  isSeen_iff : ∀ x, w.isSeen x = true ↔ x ∈ w.seenVariables
  mem_iff : ∀ x, x ∈ w.seenVariables ↔ 0 < v.trail.level x ∧
    ∃ clause ∈ conflict :: resolved.map Prod.fst, ∃ l ∈ clause.literals, l.var = x
  reasons : ∀ r ∈ resolved, ∃ d, IsReason v d r
  perm : (resolved.map (·.2.var) ++ [uip.var]).Perm (w.seenAt v.trail v.trail.currentLevel)
  seenCount_eq : ∀ k, (w.records.get k).seenCount = (w.seenAt v.trail k).length
  lowest_eq : ∀ k, (w.records.get k).lowest = ((w.seenAt v.trail k).map v.trail.position).min?
  untouched : ∀ k, w.seenAt v.trail k = [] → w.records.get k = {}
  levels_nodup : w.levels.Nodup
  mem_levels_iff : ∀ k, k ∈ w.levels ↔ w.seenAt v.trail k ≠ []
  learned_eq : w.learned =
    w.seen.filter fun l => decide (v.trail.level l.var < v.trail.currentLevel)
  uip_true : v.trail.isTrue uip = true
  uip_lowest : ∀ x ∈ w.seenAt v.trail v.trail.currentLevel, x ≠ uip.var →
    v.trail.position uip.var < v.trail.position x

namespace Walks

variable {k : Nat} {told : List (Clause × Literal)}

/-- The walk passes every entry once. -/
theorem nodup (ht : v.trail.WellFormed)
    (h : Walks v n cs w k v.trail.entries.reverse told next uip) :
    ((told.map Prod.snd ++ [uip]).map Literal.var).Nodup :=
  ht.nodup_reverse_map_var.sublist (h.passes.map Literal.var)

/-- What was resolved stands behind the implication point on the trail, so it belongs to the current
level, too. -/
theorem level_eq (ht : v.trail.WellFormed) (htrue : v.trail.isTrue uip = true)
    (hlevel : v.trail.level uip.var = v.trail.currentLevel)
    (h : Walks v n cs w k v.trail.entries.reverse told next uip) {l : Literal}
    (hl : l ∈ told.map Prod.snd ++ [uip]) : v.trail.level l.var = v.trail.currentLevel := by
  rcases List.mem_append.1 hl with hresolved | huip
  · have hdescending := (List.pairwise_reverse.2 ht.pairwise_position).sublist h.passes
    have hlt := (List.pairwise_append.1 hdescending).2.2 l hresolved uip (List.mem_singleton_self _)
    have hentry : v.trail.isTrue l = true := by
      apply ht.isTrue_iff_mem.2
      apply List.mem_reverse.1
      exact h.passes.subset hl
    have hmono := ht.level_mono (Trail.isAssigned_of_isTrue htrue)
      (Trail.isAssigned_of_isTrue hentry) (Nat.le_of_lt hlt)
    have hle := ht.level_le l.var
    omega
  · rw [List.mem_singleton.1 huip]
    exact hlevel

/-- As many variables were resolved as were met of the current level, less one, so with the
implication point they are all of them. -/
theorem perm {conflict : Clause} (ht : v.trail.WellFormed) (hfinds : FindsUip v conflict next uip)
    (hopen : k = (w.seenAt v.trail v.trail.currentLevel).length)
    (h : Walks v n cs w k v.trail.entries.reverse told next uip) :
    (told.map (·.2.var) ++ [uip.var]).Perm (next.seenAt v.trail v.trail.currentLevel) := by
  have hvars : told.map (·.2.var) ++ [uip.var] = (told.map Prod.snd ++ [uip]).map Literal.var := by
    simp
  rw [hvars]
  have hsub : (told.map Prod.snd ++ [uip]).map Literal.var ⊆
      next.seenAt v.trail v.trail.currentLevel := by
    intro x hx
    obtain ⟨l, hl, rfl⟩ := List.mem_map.1 hx
    apply mem_seenAt.2
    constructor
    · exact (hfinds.tracks.mem_seenVariables l.var).1 (h.met l hl)
    · exact h.level_eq ht hfinds.uip_true hfinds.uip_level hl
  apply ((h.nodup ht).subperm hsub).perm_of_length_le
  have hcount := h.count
  simp only [List.length_append, List.length_map, List.length_singleton]
  omega

end Walks

/-- Every reason told is the reason of some literal. -/
theorem exists_isReason {ds : List ClauseId} {told : List (Clause × Literal)}
    (hreasons : List.Forall₂ (IsReason v) ds told) {r : Clause × Literal} (hr : r ∈ told) :
    ∃ d, IsReason v d r := by
  induction hreasons with
  | nil => cases hr
  | @cons d _ _ _ hd _ ih =>
    rcases List.mem_cons.1 hr with rfl | hr
    · exact ⟨d, hd⟩
    · exact ih hr

/-- The clauses used are the conflict and the reasons told. -/
theorem mentions_iff {c : ClauseId} {conflict : Clause} {ds : List ClauseId}
    {told : List (Clause × Literal)} (hc : v.clauses.get? c = some conflict)
    (hreasons : List.Forall₂ (IsReason v) ds told) (x : Variable) :
    v.mentions ([c] ++ ds) x = true ↔
      ∃ clause ∈ conflict :: told.map Prod.fst, ∃ l ∈ clause.literals, l.var = x := by
  have hstored : ∀ clause : Clause, (∃ d ∈ ds, v.clauses.get? d = some clause) ↔
      clause ∈ told.map Prod.fst := by
    intro clause
    induction hreasons with
    | nil => simp
    | @cons d r ds told hr _ ih =>
      simp only [List.mem_cons, List.map_cons, exists_eq_or_imp, ih, hr.2, Option.some.injEq]
      rw [eq_comm]
  unfold View.mentions
  simp only [List.singleton_append, List.any_cons, hc, Option.any_some, Bool.or_eq_true,
    List.any_eq_true, Option.any_eq_true, beq_iff_eq, List.mem_cons, exists_eq_or_imp, ← hstored]
  apply or_congr_right
  constructor
  · rintro ⟨d, hd, clause, hclause, hx⟩
    exact ⟨clause, ⟨d, hd, hclause⟩, hx⟩
  · rintro ⟨clause, ⟨d, hd, hclause⟩, hx⟩
    exact ⟨d, hd, clause, hclause, hx⟩

/-- From a workspace at rest the records are exact whenever an implication point is found. -/
theorem exactRecords_of_firstUip {c : ClauseId} {conflict : Clause} (ht : v.trail.WellFormed)
    (h : Used v n [] w) (hc : v.clauses.get? c = some conflict)
    (hok : (w.firstUip v c).result = .ok (next, uip)) (hfinds : FindsUip v conflict next uip) :
    ExactRecords v conflict next uip (w.firstUip v c).resolutions := by
  unfold firstUip at hok ⊢
  obtain ⟨clause, hget, hok⟩ := Traced.result_bind_eq_ok_iff.1 hok
  obtain rfl : conflict = clause :=
    Option.some.inj (hc.symm.trans (ClauseStore.get_eq_ok_iff.1 hget))
  obtain ⟨⟨mid, opened⟩, hresolve, hok⟩ := Traced.result_bind_eq_ok_iff.1 hok
  obtain ⟨_, hrequire, hok⟩ := Traced.result_bind_eq_ok_iff.1 hok
  have hopen : 0 < opened := of_decide_eq_true (Traced.result_require_eq_ok_iff.1 hrequire)
  -- at rest nothing of the current level was met, so the conflict opens all that is open
  have hnone : w.seenAt v.trail v.trail.currentLevel = [] := by
    have hseen : w.seenVariables = [] := h.met_eq
    rw [seenAt, hseen, List.filter_nil]
  have hcount := length_seenAt_resolve ht h.tracks hresolve
  rw [hnone, List.length_nil, Nat.zero_add] at hcount
  have hwalks := walks_of_descend ht (h.resolve ht hc hresolve) hopen hok
  have hperm := hwalks.perm ht hfinds hcount.symm
  unfold Traced.resolutions
  rw [Traced.told_bind hget, Traced.told_bind hresolve, Traced.told_bind hrequire, told_resolve,
    Traced.told_require, List.nil_append, List.nil_append]
  obtain ⟨ds, hreasons, hused⟩ := hwalks.used
  have htracks := hused.tracks
  constructor
  case nodup => exact htracks.distinct
  case isSeen_iff => exact htracks.mem_seenVariables
  case mem_iff =>
    intro x
    rw [← htracks.mem_seenVariables, hused.isSeen_iff]
    exact and_congr_right fun _ => mentions_iff hc hreasons x
  case reasons => exact fun r => exists_isReason hreasons
  case perm => exact hperm
  case seenCount_eq => exact htracks.seenCount_get
  case lowest_eq => exact htracks.lowest_get
  case untouched => exact fun k => htracks.get_eq_default
  case levels_nodup => exact htracks.levels_nodup
  case mem_levels_iff => exact htracks.mem_levels_iff_seenAt
  case learned_eq => exact htracks.learned_eq
  case uip_true => exact hfinds.uip_true
  case uip_lowest =>
    intro x hx hne
    obtain ⟨hseen, hlevel⟩ := mem_seenAt.1 hx
    obtain ⟨l, hl, rfl⟩ := List.mem_map.1 hseen
    exact (hfinds.resolved l hl hlevel hne).1

end Workspace

end ClauseLearning
