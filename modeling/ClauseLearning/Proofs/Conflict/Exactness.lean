import ClauseLearning.Proofs.Conflict.Anchors
import ClauseLearning.Proofs.Conflict.Asserting
import ClauseLearning.Proofs.Conflict.Contents

/-!
# Minimisation finds everything that is implied

A false literal is *redundant* for a clause if its negation has a reason of which every other
literal is fixed at the root, belongs to the clause, or is redundant itself. Minimisation decides
this with two early exits, with verdicts that are kept from one literal to the next, and up to a
depth. None of these changes an answer, if reasons are *accompanied*: a reason of a literal above
the root has another literal of the same level.

Going back from a redundant literal along such companions, positions fall and the level stays, until
a literal of the clause is met. So the clause has a literal of the level that was assigned before,
and neither exit is taken. Positions fall with every reason that is looked through, so a depth of
the trail's length is never reached. A verdict that is kept is right whenever it is read, as being
redundant does not depend on the order in which literals are asked for.
-/

set_option autoImplicit false

namespace ClauseLearning

namespace Trail

variable {t : Trail} {store store' : ClauseStore} {clause : List Literal} {l : Literal}

/-- The negation of the literal has a reason, and every other literal of the reason is fixed at the
root, belongs to the clause, or is redundant. -/
inductive Redundant (t : Trail) (store : ClauseStore) (clause : List Literal) : Literal → Prop where
  | intro {l : Literal} {c : ClauseId} {reason : Clause} : t.reason l.var = some c →
      store.get? c = some reason →
      (∀ k ∈ reason.literals, k ≠ l.negate → t.level k.var ≠ 0 → k ∉ clause →
        Redundant t store clause k) → Redundant t store clause l

/-- A literal is redundant exactly if all other literals of its reason are of the root level, in the
clause, or redundant themselves. -/
theorem redundant_iff : t.Redundant store clause l ↔ ∃ c reason, t.reason l.var = some c ∧
    store.get? c = some reason ∧ ∀ k ∈ reason.literals, k ≠ l.negate →
      t.level k.var = 0 ∨ k ∈ clause ∨ t.Redundant store clause k := by
  constructor
  · rintro ⟨hr, hc, hrest⟩
    refine ⟨_, _, hr, hc, fun k hk hne => ?_⟩
    by_cases hroot : t.level k.var = 0
    · exact Or.inl hroot
    by_cases hmem : k ∈ clause
    · exact Or.inr (Or.inl hmem)
    · exact Or.inr (Or.inr (hrest k hk hne hroot hmem))
  · rintro ⟨c, reason, hr, hc, hrest⟩
    exact .intro hr hc fun k hk hne hroot hmem =>
      ((hrest k hk hne).resolve_left hroot).resolve_left hmem

/-- The plain search for redundancy, to a depth: without exits, and without verdicts kept. -/
def isRedundant (t : Trail) (store : ClauseStore) (clause : List Literal) : Nat → Literal → Bool
  | 0, _ => false
  | depth + 1, l =>
    match (t.reason l.var).bind store.get? with
    | none => false
    | some reason => reason.literals.all fun k =>
        k == l.negate || t.level k.var == 0 || clause.contains k ||
          isRedundant t store clause depth k

/-- The literals of a reason are false and became so before the literal that it implies. -/
theorem Justified.rest (h : t.Justified store) (hl : t.isFalse l = true) {c : ClauseId}
    {reason : Clause} (hr : t.reason l.var = some c) (hc : store.get? c = some reason) :
    ∀ k ∈ reason.literals, k ≠ l.negate →
      t.isFalse k = true ∧ t.position k.var < t.position l.var :=
  (h.of_get? (isTrue_negate.trans hl) hr hc).2

/-- The plain search is right if it may look through as many reasons as positions can be below. -/
theorem Justified.isRedundant_iff (h : t.Justified store) {depth : Nat}
    (hl : t.isFalse l = true) (hdepth : t.position l.var < depth) :
    t.isRedundant store clause depth l = true ↔ t.Redundant store clause l := by
  induction depth generalizing l with
  | zero => exact absurd hdepth (Nat.not_lt_zero _)
  | succ depth ih =>
    rw [redundant_iff, isRedundant]
    cases hr : t.reason l.var with
    | none => simp
    | some c =>
      cases hc : store.get? c with
      | none => simp [hc]
      | some reason =>
        have hrest := h.rest hl hr hc
        simp only [Option.bind_some, hc, List.all_eq_true, Bool.or_eq_true, beq_iff_eq,
          List.contains_iff_mem, Option.some.injEq, exists_eq_left', exists_and_left]
        refine forall₂_congr fun k hk => ?_
        by_cases hne : k = l.negate
        · simp [hne]
        · obtain ⟨hfalse, hlt⟩ := hrest k hk hne
          rw [ih hfalse (by omega)]
          simp [hne, or_assoc]

/-- A reason of a literal above the root has another literal of the level of the literal. -/
def Accompanied (t : Trail) (store : ClauseStore) : Prop :=
  ∀ l c reason, t.isTrue l = true → 0 < t.level l.var → t.reason l.var = some c →
    store.get? c = some reason → ∃ k ∈ reason.literals, k ≠ l ∧ t.level k.var = t.level l.var

/-- The clause has a literal of the level of a redundant one that was assigned before it. -/
theorem Redundant.exists_earlier (h : t.Redundant store clause l) (hj : t.Justified store)
    (ha : t.Accompanied store) (hl : t.isFalse l = true) (hpos : 0 < t.level l.var) :
    ∃ k ∈ clause, t.level k.var = t.level l.var ∧ t.position k.var < t.position l.var := by
  induction h with
  | @intro l c reason hr hc _ ih =>
    obtain ⟨k, hk, hne, hlevel⟩ := ha l.negate c reason (isTrue_negate.trans hl) hpos hr hc
    have hlevel : t.level k.var = t.level l.var := hlevel
    obtain ⟨hfalse, hlt⟩ := hj.rest hl hr hc k hk hne
    by_cases hmem : k ∈ clause
    · exact ⟨k, hmem, hlevel, hlt⟩
    · obtain ⟨j, hj, hjlevel, hjlt⟩ := ih k hk hne (by omega) hmem hfalse (by omega)
      exact ⟨j, hj, hjlevel.trans hlevel, Nat.lt_trans hjlt hlt⟩

/-- Literals of one variable that are both false are equal. -/
theorem eq_of_isFalse {k : Literal} (hk : t.isFalse k = true) (hl : t.isFalse l = true)
    (hvar : k.var = l.var) : k = l := by
  have heq := eq_of_isTrue (isTrue_negate.trans hk) (isTrue_negate.trans hl) hvar
  rw [← Literal.negate_negate k, heq, Literal.negate_negate]

end Trail

namespace ClauseStore.Alike

variable {t : Trail} {store store' : ClauseStore}

/-- A clause is found in a store that is alike, with the same literals. -/
theorem keptIn (h : store.Alike store') : store.KeptIn store' := by
  intro c reason hc
  have heq := h.get?_eq c
  rw [hc, Option.map_some, Option.map_eq_some_iff] at heq
  obtain ⟨reason', hc', hcontents⟩ := heq
  exact ⟨reason', hc', congrArg Contents.literals hcontents⟩

/-- Which reasons have company at their level depends on the contents of the clauses only. -/
theorem accompanied (h : store.Alike store') (ha : t.Accompanied store) :
    t.Accompanied store' := by
  intro l c reason' hl hpos hr hc'
  obtain ⟨reason, hc, hliterals⟩ := h.symm.keptIn c reason' hc'
  rw [← hliterals]
  exact ha l c reason hl hpos hr hc

/-- The plain search reads nothing but literals. -/
theorem isRedundant_eq (h : store.Alike store') (clause : List Literal) (depth : Nat)
    (l : Literal) :
    t.isRedundant store' clause depth l = t.isRedundant store clause depth l := by
  induction depth generalizing l with
  | zero => rfl
  | succ depth ih =>
    unfold Trail.isRedundant
    cases hr : t.reason l.var with
    | none => rfl
    | some c =>
      simp only [Option.bind_some]
      cases hc : store.get? c with
      | none =>
        have hc' := h.get?_eq c
        rw [hc, Option.map_none, Option.map_eq_none_iff] at hc'
        rw [hc']
      | some reason =>
        obtain ⟨reason', hc', hliterals⟩ := h.keptIn c reason hc
        rw [hc']
        simp only [hliterals, ih]

end ClauseStore.Alike

namespace Workspace

variable {v : View} {w w' next : Workspace} {clause : List Literal} {a l : Literal}

/-- Above the root a clause is to be shrunk that consists of the literals met below the current
level and of one of the current level; reasons are accompanied. -/
structure Shrinkable (v : View) (w : Workspace) (clause : List Literal) (a : Literal) : Prop where
  trail : v.trail.WellFormed
  justified : v.trail.Justified v.clauses
  accompanied : v.trail.Accompanied v.clauses
  tracks : Tracks v.trail w
  positive : 0 < v.trail.currentLevel
  asserting : v.trail.Asserting clause a
  clause_eq : clause = w.learned ++ [a]

/-- The verdicts kept in a workspace say which literals are redundant; of the rest, marks and
records are those from before. -/
structure Decides (v : View) (clause : List Literal) (w w' : Workspace) : Prop where
  records_eq : w'.records = w.records
  size_eq : w'.marks.size = w.marks.size
  seen_eq : ∀ x, w'.isSeen x = w.isSeen x
  removed : ∀ l, v.trail.isFalse l = true → w'.isRemoved l.var = true →
    v.trail.Redundant v.clauses clause l
  needed : ∀ l, v.trail.isFalse l = true → (w'.marksOf l.var).poison = true →
    ¬ v.trail.Redundant v.clauses clause l

/-- What a positive answer at a depth of the search says. -/
def Answers (v : View) (clause : List Literal) (depth : Nat) (l : Literal) : Prop :=
  v.trail.Redundant v.clauses clause l ∨ (0 < depth ∧ (v.trail.level l.var = 0 ∨ l ∈ clause))

/-- What is asked about: a literal of the clause first, and literals of lower levels below. -/
structure Asks (v : View) (clause : List Literal) (depth : Nat) (l : Literal) : Prop where
  falsified : v.trail.isFalse l = true
  mem : depth = 0 → l ∈ clause
  lower : 0 < depth → v.trail.level l.var < v.trail.currentLevel

/-- Before the first question no verdict was given, so all verdicts are right. -/
theorem Decides.start (h : Tracks v.trail w) (clause ls : List Literal) :
    Decides v clause w { w with learned := ls } where
  records_eq := rfl
  size_eq := rfl
  seen_eq := fun _ => rfl
  removed := by
    intro l _ hl
    have hno : (w.marksOf l.var).removable = true := hl
    rw [(h.no_verdict l.var).2] at hno
    cases hno
  needed := by
    intro l _ hl
    have hno : (w.marksOf l.var).poison = true := hl
    rw [(h.no_verdict l.var).1] at hno
    cases hno

/-- A right verdict can be kept. -/
theorem Decides.conclude (h : Decides v clause w w') (hl : v.trail.isFalse l = true)
    (hsize : l.var < w.marks.size) {removable : Bool}
    (hiff : removable = true ↔ v.trail.Redundant v.clauses clause l) :
    Decides v clause w (w'.conclude l.var removable) := by
  have hsize' : l.var < w'.marks.size := h.size_eq.symm ▸ hsize
  refine ⟨h.records_eq, ?_, fun x => (isSeen_conclude hsize' removable x).trans (h.seen_eq x),
    fun k hk hremoved => ?_, fun k hk hpoison => ?_⟩
  · show (w'.marks.modify l.var _).size = _
    rw [Arena.size_modify, h.size_eq]
  · unfold isRemoved at hremoved
    rw [marksOf_conclude hsize'] at hremoved
    split at hremoved
    next hvar =>
      obtain rfl := Trail.eq_of_isFalse hl hk hvar
      cases removable with
      | true => exact hiff.1 rfl
      | false => exact h.removed l hk hremoved
    next => exact h.removed k hk hremoved
  · rw [marksOf_conclude hsize'] at hpoison
    split at hpoison
    next hvar =>
      obtain rfl := Trail.eq_of_isFalse hl hk hvar
      cases removable with
      | true => exact h.needed l hk hpoison
      | false => exact fun hredundant => nomatch hiff.2 hredundant
    next => exact h.needed k hk hpoison

namespace Shrinkable

variable {depth : Nat}

/-- Below the current level the literals met are those of the clause. -/
theorem mem_iff (h : Shrinkable v w clause a)
    (hlower : v.trail.level l.var < v.trail.currentLevel) : l ∈ clause ↔ l ∈ w.seen := by
  rw [h.clause_eq, List.mem_append, List.mem_singleton, h.tracks.mem_learned_iff]
  constructor
  · rintro (⟨hseen, -⟩ | rfl)
    · exact hseen
    · exact absurd h.asserting.current (Nat.ne_of_lt hlower)
  · exact fun hseen => Or.inl ⟨hseen, hlower⟩

/-- A false literal of a lower level that was met belongs to the clause. -/
theorem mem_of_isSeen (h : Shrinkable v w clause a) (hl : v.trail.isFalse l = true)
    (hlower : v.trail.level l.var < v.trail.currentLevel) (hseen : w.isSeen l.var = true) :
    l ∈ clause := by
  obtain ⟨k, hk, hvar⟩ := (h.tracks.isSeen_iff l.var).1 hseen
  have hmem : k ∈ clause := (h.mem_iff (hvar.symm ▸ hlower)).2 hk
  obtain rfl := Trail.eq_of_isFalse (h.asserting.falsified k hmem) hl hvar
  exact hmem

/-- A redundant literal that is asked about is of a lower level, of which a literal was met that was
assigned before. -/
theorem exists_earlier (h : Shrinkable v w clause a) (hasks : Asks v clause depth l)
    (hpos : 0 < v.trail.level l.var) (hl : v.trail.Redundant v.clauses clause l) :
    v.trail.level l.var < v.trail.currentLevel ∧ ∃ k ∈ w.seen,
      v.trail.level k.var = v.trail.level l.var ∧
        v.trail.position k.var < v.trail.position l.var := by
  obtain ⟨k, hk, hlevel, hlt⟩ :=
    hl.exists_earlier h.justified h.accompanied hasks.falsified hpos
  have hlower : v.trail.level l.var < v.trail.currentLevel := by
    rcases Nat.eq_zero_or_pos depth with hzero | hdepth
    · -- of the current level the clause has one literal only
      refine Nat.lt_of_le_of_ne (h.trail.level_le _) fun hcurrent => ?_
      rw [(h.asserting.level_eq_iff (hasks.mem hzero)).1 hcurrent,
        (h.asserting.level_eq_iff hk).1 (hlevel.trans hcurrent)] at hlt
      exact Nat.lt_irrefl _ hlt
    · exact hasks.lower hdepth
  refine ⟨hlower, k, ?_, hlevel, hlt⟩
  exact (h.mem_iff (hlevel.symm ▸ hlower)).1 hk

/-- Stamps do not matter, and neither do the clauses that wait for one. -/
theorem of_alike {store : ClauseStore} (h : Shrinkable v w clause a)
    (halike : v.clauses.Alike store) (activity : Activity) :
    Shrinkable { v with clauses := store } { w with activity := activity } clause a :=
  ⟨h.trail, h.justified.mono halike.keptIn, halike.accompanied h.accompanied,
    h.tracks.withActivity activity, h.positive, h.asserting, h.clause_eq⟩

/-- The plain search finds the redundant literals of the clause, which are of lower levels. -/
theorem isRedundant_iff (h : Shrinkable v w clause a) (hl : l ∈ clause) :
    v.trail.isRedundant v.clauses clause v.trail.length l = true ↔
      v.trail.level l.var < v.trail.currentLevel ∧ v.trail.Redundant v.clauses clause l := by
  have hfalse := h.asserting.falsified l hl
  have hasks : Asks v clause 0 l := ⟨hfalse, fun _ => hl, fun hno => absurd hno (Nat.lt_irrefl 0)⟩
  rw [h.justified.isRedundant_iff hfalse (h.trail.position_lt (Trail.isAssigned_of_isFalse hfalse))]
  refine ⟨fun hredundant => ⟨?_, hredundant⟩, And.right⟩
  exact (h.exists_earlier hasks (h.asserting.above_root h.positive hl) hredundant).1

/-- What is passed at once is rightly passed. -/
theorem answers_of_isImplied (h : Shrinkable v w clause a) (hd : Decides v clause w w')
    (hasks : Asks v clause depth l) (himplied : w'.isImplied v.trail depth l.var = true) :
    Answers v clause depth l := by
  rcases isImplied_iff.1 himplied with hroot | hremoved | ⟨hdepth, hseen⟩
  · rcases Nat.eq_zero_or_pos depth with hzero | hdepth
    · exact absurd hroot (Nat.ne_of_gt (h.asserting.above_root h.positive (hasks.mem hzero)))
    · exact Or.inr ⟨hdepth, Or.inl hroot⟩
  · exact Or.inl (hd.removed l hasks.falsified hremoved)
  · rw [hd.seen_eq] at hseen
    exact Or.inr ⟨hdepth, Or.inr (h.mem_of_isSeen hasks.falsified (hasks.lower hdepth) hseen)⟩

/-- What is not passed at once needs a reason that is looked through. -/
theorem redundant_of_answers (h : Shrinkable v w clause a) (hd : Decides v clause w w')
    (hasks : Asks v clause depth l) (himplied : ¬ w'.isImplied v.trail depth l.var = true)
    (hanswers : Answers v clause depth l) : v.trail.Redundant v.clauses clause l := by
  rw [isImplied_iff] at himplied
  refine hanswers.resolve_right ?_
  rintro ⟨hdepth, hroot | hmem⟩
  · exact himplied (Or.inl hroot)
  · have hseen := (h.tracks.isSeen_iff l.var).2
      ⟨l, (h.mem_iff (hasks.lower hdepth)).1 hmem, rfl⟩
    exact himplied (Or.inr (Or.inr ⟨hdepth, (hd.seen_eq _).trans hseen⟩))

/-- Neither exit is taken for a redundant literal, and no verdict speaks against it. -/
theorem not_redundant_of_isNeeded (h : Shrinkable v w clause a) (hd : Decides v clause w w')
    (hasks : Asks v clause depth l) (hpos : 0 < v.trail.level l.var)
    (hneeded : w'.isNeeded v.trail depth l.var = true) :
    ¬ v.trail.Redundant v.clauses clause l := by
  intro hl
  obtain ⟨hlower, k, hk, hlevel, hlt⟩ := h.exists_earlier hasks hpos hl
  unfold isNeeded at hneeded
  simp only [Bool.or_eq_true, Bool.and_eq_true, beq_iff_eq, decide_eq_true_eq] at hneeded
  rw [hd.records_eq, h.tracks.records_eq, LevelRecord.startsAtOrAfter_ofSeen,
    LevelRecord.seenCount_ofSeen] at hneeded
  rcases hneeded with ((hpoison | hcurrent) | ⟨hzero, hcount⟩) | hstarts
  · exact hd.needed l hasks.falsified hpoison hl
  · exact Nat.ne_of_lt hlower hcurrent
  · have hmem := (h.mem_iff hlower).1 (hasks.mem hzero)
    have hne : k ≠ l := fun heq => Nat.ne_of_lt hlt (congrArg (fun j => v.trail.position j.var) heq)
    have hpair : [k, l] ⊆ w.seen.filter fun j => v.trail.level j.var == v.trail.level l.var := by
      simp [hk, hmem, hlevel]
    have htwo := (List.Nodup.subperm (by simp [hne]) hpair).length_le
    rw [← List.countP_eq_length_filter] at htwo
    exact absurd hcount (Nat.not_lt.2 htwo)
  · exact absurd (hstarts k hk hlevel) (Nat.not_le.2 hlt)

/-- The verdict that is known at once is right, and otherwise it hangs on a reason. -/
theorem exists_verdict (h : Shrinkable v w clause a) (hd : Decides v clause w w')
    (hasks : Asks v clause depth l) :
    (∃ removable, w'.verdict v depth l.negate = .ok (.settled removable) ∧
        (removable = true ↔ Answers v clause depth l)) ∨
      ∃ c reason, w'.verdict v depth l.negate = .ok (.undecided reason) ∧
        v.trail.reason l.var = some c ∧ v.clauses.get? c = some reason ∧
        v.trail.level l.var < v.trail.currentLevel ∧
        (Answers v clause depth l ↔ v.trail.Redundant v.clauses clause l) := by
  have hknown := Trail.lt_numVariables_of_isAssigned (Trail.isAssigned_of_isFalse hasks.falsified)
  have hmarked : l.var < w'.marks.size := by
    rw [hd.size_eq, h.tracks.size_marks]
    exact hknown
  rw [verdict_eq_assess (l := l.negate) hknown hmarked, assess, Literal.negate_var]
  by_cases himplied : w'.isImplied v.trail depth l.var = true
  · rw [if_pos himplied]
    exact Or.inl ⟨true, rfl, iff_of_true rfl (h.answers_of_isImplied hd hasks himplied)⟩
  rw [if_neg himplied]
  -- beyond this point a literal is implied only if it is redundant
  have hredundant := h.redundant_of_answers hd hasks himplied
  have hpos : 0 < v.trail.level l.var :=
    Nat.pos_of_ne_zero fun hroot => himplied (isImplied_iff.2 (Or.inl hroot))
  cases hr : v.trail.reason l.var with
  | none =>
    refine Or.inl ⟨false, rfl, iff_of_false Bool.false_ne_true fun hanswers => ?_⟩
    obtain ⟨c, -, hc, -⟩ := Trail.redundant_iff.1 (hredundant hanswers)
    rw [hr] at hc
    cases hc
  | some c =>
    obtain ⟨reason, hc, -⟩ := h.justified l.negate c (Trail.isTrue_negate.trans hasks.falsified) hr
    have hget : v.clauses.get c = .ok reason := ClauseStore.get_eq_ok_iff.2 hc
    simp only [hget, bind, Except.bind]
    cases hneeded : w'.isNeeded v.trail depth l.var with
    | true =>
      refine Or.inl ⟨false, rfl, iff_of_false Bool.false_ne_true fun hanswers => ?_⟩
      exact h.not_redundant_of_isNeeded hd hasks hpos hneeded (hredundant hanswers)
    | false =>
      refine Or.inr ⟨c, reason, rfl, rfl, hc, ?_, hredundant, Or.inl⟩
      unfold isNeeded at hneeded
      simp only [Bool.or_eq_false_iff, beq_eq_false_iff_ne] at hneeded
      exact Nat.lt_of_le_of_ne (h.trail.level_le _) hneeded.1.1.2

end Shrinkable

/-- The premises of a literal are the negations of the other literals of its reason. -/
theorem mem_premises {reason : Clause} {l m : Literal} :
    m ∈ premises reason l ↔ ∃ k ∈ reason.literals, k ≠ l ∧ k.negate = m := by
  unfold premises
  simp [and_assoc]

/-- A literal is redundant if the search would pass the other literals of its reason. -/
theorem redundant_iff_premises {depth : Nat} {c : ClauseId} {reason : Clause}
    (hr : v.trail.reason l.var = some c) (hc : v.clauses.get? c = some reason) :
    v.trail.Redundant v.clauses clause l ↔
      ∀ m ∈ premises reason l.negate, Answers v clause (depth + 1) m.negate := by
  rw [Trail.redundant_iff]
  constructor
  · rintro ⟨c', reason', hr', hc', hrest⟩ m hm
    obtain rfl : c' = c := Option.some.inj (hr'.symm.trans hr)
    obtain rfl : reason' = reason := Option.some.inj (hc'.symm.trans hc)
    obtain ⟨k, hk, hne, rfl⟩ := mem_premises.1 hm
    rw [Literal.negate_negate]
    rcases hrest k hk hne with hroot | hmem | hredundant
    · exact Or.inr ⟨Nat.succ_pos _, Or.inl hroot⟩
    · exact Or.inr ⟨Nat.succ_pos _, Or.inr hmem⟩
    · exact Or.inl hredundant
  · intro hall
    refine ⟨c, reason, hr, hc, fun k hk hne => ?_⟩
    have hanswers := hall k.negate (mem_premises.2 ⟨k, hk, hne, rfl⟩)
    rw [Literal.negate_negate] at hanswers
    rcases hanswers with hredundant | ⟨-, hroot | hmem⟩
    · exact Or.inr (Or.inr hredundant)
    · exact Or.inl hroot
    · exact Or.inr (Or.inl hmem)

/-- A list passes exactly if each of its literals does. -/
theorem allPass_decides {test : Workspace → Literal → Traced (Workspace × Bool)}
    {I : Workspace → Prop} {Q : Literal → Prop} {ls : List Literal}
    (htest : ∀ w, ∀ l ∈ ls, I w →
      (test w l).Yields fun (next, passes) => I next ∧ (passes = true ↔ Q l)) (h : I w) :
    (allPass test w ls).Yields fun (next, passes) =>
      I next ∧ (passes = true ↔ ∀ l ∈ ls, Q l) := by
  induction ls generalizing w with
  | nil => exact .pure ⟨h, by simp⟩
  | cons l ls ih =>
    rw [allPass]
    refine .bind (htest w l List.mem_cons_self h) ?_
    rintro ⟨w₁, passes⟩ ⟨h₁, hiff⟩
    cases passes with
    | false => exact .pure ⟨h₁, iff_of_false Bool.false_ne_true fun hall =>
        Bool.false_ne_true (hiff.2 (hall l List.mem_cons_self))⟩
    | true =>
      refine (ih (fun w k hk => htest w k (List.mem_cons_of_mem _ hk)) h₁).mono ?_
      rintro ⟨next, rest⟩ ⟨hnext, hrest⟩
      refine ⟨hnext, hrest.trans ?_⟩
      rw [List.forall_mem_cons]
      exact (and_iff_right (hiff.1 rfl)).symm

/-- The search decides redundancy if its budget is above the position of the literal. Down the
search positions fall with the budget. -/
theorem Shrinkable.isRemovable_yields (h : Shrinkable v w clause a) (budget depth : Nat)
    (hd : Decides v clause w w') (hasks : Asks v clause depth l)
    (hbudget : v.trail.position l.var < budget) :
    (isRemovable v budget depth w' l.negate).Yields fun (next, removable) =>
      Decides v clause w next ∧ (removable = true ↔ Answers v clause depth l) := by
  induction budget generalizing depth w' l with
  | zero => exact absurd hbudget (Nat.not_lt_zero _)
  | succ budget ih =>
    rcases h.exists_verdict hd hasks with
      ⟨removable, hv, hiff⟩ | ⟨c, reason, hv, hr, hc, hlower, hiff⟩
    · rw [isRemovable_of_settled hv]
      exact .pure ⟨hd, hiff⟩
    · unfold isRemovable
      refine .bind (.lift hv (P := (· = .undecided reason)) rfl) ?_
      rintro _ rfl
      have hall : (allPass (isRemovable v budget (depth + 1)) w' (premises reason l.negate)).Yields
          fun (next, passes) => Decides v clause w next ∧ (passes = true ↔
            ∀ m ∈ premises reason l.negate, Answers v clause (depth + 1) m.negate) := by
        refine allPass_decides (fun w₁ m hm h₁ => ?_) hd
        obtain ⟨k, hk, hne, rfl⟩ := mem_premises.1 hm
        obtain ⟨hfalse, hlt⟩ := h.justified.rest hasks.falsified hr hc k hk hne
        have hle : v.trail.level k.var ≤ v.trail.level l.var :=
          h.trail.level_mono (Trail.isAssigned_of_isFalse hfalse)
            (Trail.isAssigned_of_isFalse hasks.falsified) (Nat.le_of_lt hlt)
        rw [Literal.negate_negate]
        have hdeeper : depth + 1 = 0 → k ∈ clause := fun hno => absurd hno (Nat.succ_ne_zero depth)
        exact ih (depth + 1) h₁ ⟨hfalse, hdeeper, fun _ => by omega⟩ (by omega)
      refine .bind hall ?_
      rintro ⟨next, removable⟩ ⟨hnext, hpasses⟩
      have hredundant : removable = true ↔ v.trail.Redundant v.clauses clause l := by
        rw [hpasses, redundant_iff_premises hr hc]
      have hsize : l.var < w.marks.size := by
        rw [h.tracks.size_marks]
        exact Trail.lt_numVariables_of_isAssigned (h.trail.isAssigned_of_reason hr)
      exact .bind (.tell _) fun _ _ =>
        .pure ⟨hnext.conclude hasks.falsified hsize hredundant, hredundant.trans hiff.symm⟩

/-- Minimisation keeps exactly the literals that the plain search finds not to be redundant. -/
theorem Shrinkable.keepNeeded_yields (h : Shrinkable v w clause a) {maxDepth : Nat}
    (hdepth : v.trail.length ≤ maxDepth) {ls : List Literal} (hls : ls ⊆ clause)
    (hd : Decides v clause w w') :
    (keepNeeded v maxDepth w' ls).Yields fun (_, kept) => kept =
      ls.filter fun l => !v.trail.isRedundant v.clauses clause v.trail.length l := by
  induction ls generalizing w' with
  | nil => exact .pure rfl
  | cons l ls ih =>
    have hmem : l ∈ clause := hls List.mem_cons_self
    have hfalse := h.asserting.falsified l hmem
    have hassigned := Trail.isAssigned_of_isFalse hfalse
    have hposition := h.trail.position_lt hassigned
    have hasks : Asks v clause 0 l :=
      ⟨hfalse, fun _ => hmem, fun hno => absurd hno (Nat.lt_irrefl 0)⟩
    rw [keepNeeded]
    refine .bind (h.isRemovable_yields (maxDepth + 1) 0 hd hasks (by omega)) ?_
    rintro ⟨w₁, removable⟩ ⟨h₁, hiff⟩
    refine .bind (ih (fun k hk => hls (List.mem_cons_of_mem _ hk)) h₁) ?_
    rintro ⟨next, rest⟩ rfl
    have hplain : removable = v.trail.isRedundant v.clauses clause v.trail.length l := by
      rw [Bool.eq_iff_iff, hiff, h.justified.isRedundant_iff hfalse hposition]
      exact or_iff_left fun hno => absurd hno.1 (Nat.lt_irrefl 0)
    refine .pure ?_
    rw [List.filter_cons, ← hplain]
    cases removable <;> rfl

/-- Minimisation to a depth of at least the trail's length removes exactly the redundant literals,
as the plain search does. -/
theorem Shrinkable.minimise_yields (h : Shrinkable v w clause a) {maxDepth : Nat}
    (hdepth : v.trail.length ≤ maxDepth) (ls : List Literal) :
    ({ w with learned := ls }.minimise v maxDepth clause).Yields fun (_, kept) => kept =
      clause.filter fun l => !v.trail.isRedundant v.clauses clause v.trail.length l := by
  have hknown : ∀ l ∈ clause, l.var < v.trail.numVariables := fun l hl =>
    h.asserting.lt_numVariables hl
  obtain ⟨⟨decided, kept⟩, hok, hkept⟩ :=
    h.keepNeeded_yields hdepth (List.Subset.refl _) (.start h.tracks clause ls)
  have hsize : ({ w with learned := ls } : Workspace).marks.size = v.trail.numVariables :=
    h.tracks.size_marks
  have hjudges := Workspace.keepNeeded_yields h.trail h.justified hsize maxDepth hknown
    (.start v h.tracks.no_verdict h.tracks.minimised_eq)
  have hplaced : decided.requireAll decided.minimised = .ok () :=
    requireAll_eq_ok_iff.2 (hjudges.of_result hok).1.placed
  unfold minimise
  refine .bind (P := fun p => p = (decided, kept)) ⟨_, hok, rfl⟩ ?_
  rintro _ rfl
  exact .bind (.lift (P := fun _ => True) hplaced trivial) fun _ _ =>
    .bind (.tell _) fun _ _ => .pure hkept

end Workspace

end ClauseLearning
