import ClauseLearning.Proofs.Conflict.FirstMet
import ClauseLearning.Proofs.Solver.Implications

/-!
# Which clauses a resolution uses

The clauses that a resolution uses can be told from the trail alone. It starts with the conflict
and goes down the trail; at every entry above the root whose variable one of the clauses used so far
mentions, it goes on with the reason of the entry, and it stops at the first unique implication
point. The walk that keeps marks agrees with this description: what is marked is what the clauses
used so far mention above the root, and the clauses that wait for a stamp are those used so far that
qualify, in the order of their use.

A clause is used at most once, because it is the reason of at most one variable, and the conflict is
false and so no reason at all.
-/

set_option autoImplicit false

namespace ClauseLearning

namespace View

/-- Whether one of several clauses has a literal of a variable. -/
def mentions (v : View) (cs : List ClauseId) (x : Variable) : Bool :=
  cs.any fun c => (v.clauses.get? c).any fun clause => clause.literals.any fun l => l.var == x

/-- The clauses used when the resolution has passed an entry of the trail. -/
def pass (v : View) (cs : List ClauseId) (l : Literal) : List ClauseId :=
  if 0 < v.trail.level l.var ∧ v.mentions cs l.var = true then
    cs ++ (v.trail.reason l.var).toList
  else cs

/-- The clauses that the resolution of a conflict uses, in this order: the conflict, and the reasons
of the entries that it passes on the way down to the first unique implication point. -/
def resolvedClauses (v : View) (c : ClauseId) (uip : Literal) : List ClauseId :=
  (v.trail.entries.reverse.takeWhile (· != uip)).foldl v.pass [c]

/-- Whether a clause qualifies for a stamp. -/
def qualifies (v : View) (c : ClauseId) : Bool :=
  (v.clauses.get? c).any fun clause =>
    clause.learned && v.options.tracks clause.size clause.glue

/-- Met are the variables above the root that the clauses mention. -/
theorem mem_met {v : View} {cs : List ClauseId} {x : Variable} :
    x ∈ v.met cs ↔ 0 < v.trail.level x ∧ v.mentions cs x = true := by
  unfold met mentions Trail.aboveRoot
  simp only [List.mem_eraseDups, List.mem_flatMap, List.mem_map, List.mem_filter,
    decide_eq_true_eq, List.any_eq_true, Option.any_eq_true, beq_iff_eq]
  constructor
  · rintro ⟨c, hc, l, ⟨hl, hpos⟩, rfl⟩
    cases hget : v.clauses.get? c with
    | none => simp [hget] at hl
    | some clause => exact ⟨hpos, c, hc, clause, hget, l, by simpa [hget] using hl, rfl⟩
  · rintro ⟨hpos, c, hc, clause, hget, l, hl, rfl⟩
    exact ⟨c, hc, l, ⟨by simpa [hget] using hl, hpos⟩, rfl⟩

/-- The clauses used on the way are the reasons of some of the entries passed. -/
theorem foldl_pass (v : View) (ls : List Literal) (cs : List ClauseId) :
    ∃ passed : List Literal, passed.Sublist ls ∧
      ls.foldl v.pass cs = cs ++ passed.filterMap fun l => v.trail.reason l.var := by
  induction ls generalizing cs with
  | nil => exact ⟨[], .refl _, (List.append_nil cs).symm⟩
  | cons l ls ih =>
    rw [List.foldl_cons]
    obtain ⟨passed, hsub, heq⟩ := ih (v.pass cs l)
    rw [heq]
    unfold pass
    split
    · refine ⟨l :: passed, hsub.cons_cons l, ?_⟩
      cases hr : v.trail.reason l.var <;> simp [hr]
    · exact ⟨passed, hsub.cons l, rfl⟩

/-- No clause is used twice. -/
theorem nodup_resolvedClauses {v : View} {c : ClauseId} {conflict : Clause}
    (ht : v.trail.WellFormed) (he : v.trail.Justified v.clauses)
    (hc : v.clauses.get? c = some conflict)
    (hfalse : ∀ l ∈ conflict.literals, v.trail.isFalse l = true) (uip : Literal) :
    (v.resolvedClauses c uip).Nodup := by
  obtain ⟨passed, hsub, heq⟩ :=
    v.foldl_pass (v.trail.entries.reverse.takeWhile (· != uip)) [c]
  have hsub : passed.Sublist v.trail.entries.reverse := hsub.trans (List.takeWhile_sublist _)
  have htrue : ∀ l ∈ passed, v.trail.isTrue l = true := fun l hl =>
    ht.isTrue_iff_mem.2 (List.mem_reverse.1 (hsub.subset hl))
  have hdistinct : passed.Pairwise fun k l => k.var ≠ l.var :=
    List.pairwise_map.1 (ht.nodup_reverse_map_var.sublist (hsub.map _))
  unfold resolvedClauses
  rw [heq, List.singleton_append, List.nodup_cons]
  constructor
  · -- a reason has a true literal
    intro hmem
    obtain ⟨l, hl, hr⟩ := List.mem_filterMap.1 hmem
    obtain ⟨clause, hclause, hin, -⟩ := he l c (htrue l hl) hr
    obtain rfl : conflict = clause := Option.some.inj (hc.symm.trans hclause)
    have hno := Trail.isFalse_eq_false_of_isTrue (htrue l hl)
    rw [hfalse l hin] at hno
    cases hno
  · rw [List.Nodup, List.pairwise_filterMap]
    refine hdistinct.imp fun hne d hd d' hd' heq => hne ?_
    exact he.eq_of_reason_eq ht hd (heq ▸ hd')

end View

/-- A clause that qualifies is put at the end of those that wait. -/
theorem Activity.eq_of_mark {a next : Activity} {audit : AuditLevel} {o : Options} {c : ClauseId}
    {clause : Clause} (hok : (a.mark audit o c clause).result = .ok next) :
    next = { a with pending := a.pending ++
      if clause.learned && o.tracks clause.size clause.glue then [c] else [] } := by
  unfold mark at hok
  split at hok
  next hqualifies =>
    obtain ⟨_, -, hok⟩ := Traced.result_bind_eq_ok_iff.1 hok
    rw [if_pos hqualifies]
    exact (Except.ok.inj hok).symm
  next hno =>
    rw [if_neg hno, List.append_nil]
    exact (Except.ok.inj hok).symm

namespace Workspace

variable {v : View} {w next : Workspace} {n : Nat} {c : ClauseId} {cs : List ClauseId}

/-- The given clauses were resolved with: their variables above the root were met, in the order in
which they are mentioned first, and the clauses that qualify wait for a stamp. -/
structure Used (v : View) (n : Nat) (cs : List ClauseId) (w : Workspace) : Prop where
  tracks : Tracks v.trail w
  met_eq : w.seen.map Literal.var = v.met cs
  activity_eq : w.activity = { pending := cs.filter v.qualifies, numStamps := n }

/-- The variables met are those above the root that the clauses used mention. -/
theorem Used.isSeen_iff (h : Used v n cs w) (x : Variable) :
    w.isSeen x = true ↔ 0 < v.trail.level x ∧ v.mentions cs x = true := by
  rw [h.tracks.isSeen_iff, ← View.mem_met, ← h.met_eq, List.mem_map]

/-- At rest nothing was resolved with. -/
theorem Rests.used (h : w.Rests) (hsize : w.marks.size = v.trail.numVariables) :
    Used v w.activity.numStamps [] w := by
  obtain ⟨hseen, -, -, hpending, -⟩ := isClear_iff.1 h.clear
  refine ⟨h.tracks hsize, ?_, ?_⟩
  · rw [hseen]
    rfl
  · rw [List.filter_nil, ← hpending]

/-- Resolving with a clause adds it to the clauses used. -/
theorem Used.resolve (ht : v.trail.WellFormed) (h : Used v n cs w) {clause : Clause} {k : Nat}
    (hc : v.clauses.get? c = some clause) (hok : (w.resolve v c clause).result = .ok (next, k)) :
    Used v n (cs ++ [c]) next := by
  unfold Workspace.resolve at hok
  obtain ⟨activity, hmark, hok⟩ := Traced.result_bind_eq_ok_iff.1 hok
  have hmarked := h.tracks.withActivity activity
  have hmeets := meets_of_result ht hmarked hok
  refine ⟨hmeets.tracks, ?_, ?_⟩
  · rw [vars_of_meetAll ht hmarked hok, View.met_concat hc, ← h.met_eq]
  · rw [hmeets.activity_eq]
    show activity = _
    rw [Activity.eq_of_mark hmark, h.activity_eq, List.filter_append]
    simp only [View.qualifies, hc, Option.any_some, List.filter_cons, List.filter_nil]

/-- The walk down the trail came from some entries to those ahead of it, and used the clauses that
the description tells of the entries passed. -/
def UsedUpTo (v : View) (n : Nat) (cs : List ClauseId) (ls ahead : List Literal) (w : Workspace) :
    Prop :=
  ∃ passed, ls = passed ++ ahead ∧ Used v n (passed.foldl v.pass cs) w

/-- An entry that was not met is passed without using a clause. -/
theorem UsedUpTo.pass {l : Literal} {ls ahead : List Literal}
    (h : UsedUpTo v n cs ls (l :: ahead) w) (hunseen : w.isSeen l.var = false) :
    UsedUpTo v n cs ls ahead w := by
  obtain ⟨passed, rfl, hused⟩ := h
  refine ⟨passed ++ [l], by simp, ?_⟩
  rwa [List.foldl_append, List.foldl_cons, List.foldl_nil, View.pass, if_neg]
  rw [← hused.isSeen_iff, hunseen]
  exact Bool.false_ne_true

/-- At an entry that was met the reason is used. -/
theorem UsedUpTo.resolve (ht : v.trail.WellFormed) {l : Literal} {ls ahead : List Literal}
    {c : ClauseId} {clause : Clause} (h : UsedUpTo v n cs ls (l :: ahead) w)
    (hseen : w.isSeen l.var = true) (hreason : v.trail.reason l.var = some c)
    (hc : v.clauses.get? c = some clause) :
    (w.resolve v c clause).Ensures fun (next, _) => UsedUpTo v n cs ls ahead next := by
  obtain ⟨passed, rfl, hused⟩ := h
  rintro ⟨next, opened⟩ hok
  refine ⟨passed ++ [l], by simp, ?_⟩
  rw [List.foldl_append, List.foldl_cons, List.foldl_nil, View.pass,
    if_pos ((hused.isSeen_iff l.var).1 hseen), hreason]
  exact hused.resolve ht hc hok

/-- The walk down the trail uses the clauses that the description tells. -/
theorem descend_used (ht : v.trail.WellFormed) (h : Used v n cs w) (openCount : Nat)
    (ls : List Literal) :
    (descend v w openCount ls).Ensures fun (next, uip) => ∃ passed rest,
      ls = passed ++ uip :: rest ∧ Used v n (passed.foldl v.pass cs) next := by
  have hstart : UsedUpTo v n cs ls ls w := ⟨[], rfl, h⟩
  refine descend_ensures (fun h => h.pass) (fun h => h.resolve ht) ?_ hstart openCount
  rintro w l ahead ⟨passed, hsplit, hused⟩ -
  exact ⟨passed, ahead, hsplit, hused⟩

/-- The clauses that wait for a stamp when the first unique implication point was found are those
used that qualify. -/
theorem firstUip_used (ht : v.trail.WellFormed) (h : Used v n [] w) (c : ClauseId) :
    (w.firstUip v c).Ensures fun (next, uip) => Used v n (v.resolvedClauses c uip) next := by
  unfold firstUip
  refine .bind (.lift fun clause hget => ClauseStore.get_eq_ok_iff.1 hget) fun clause hc => ?_
  refine .bind (fun _ hok => h.resolve ht hc hok) ?_
  rintro ⟨w₁, opened⟩ hused
  refine .bind .any fun _ _ => (descend_used ht hused _ _).mono ?_
  rintro ⟨next, uip⟩ ⟨passed, rest, hsplit, hused⟩
  -- the entries passed are those before the first unique implication point
  have hpassed : v.trail.entries.reverse.takeWhile (· != uip) = passed := by
    have hnodup : v.trail.entries.reverse.Nodup :=
      List.Nodup.of_map _ ht.nodup_reverse_map_var
    rw [hsplit] at hnodup ⊢
    have hne : ∀ l ∈ passed, (l != uip) = true := by
      intro l hl
      rw [bne_iff_ne]
      rintro rfl
      exact (List.nodup_append.1 hnodup).2.2 l hl l List.mem_cons_self rfl
    rw [List.takeWhile_append_of_pos hne]
    simp
  show Used v n (v.resolvedClauses c uip) next
  unfold View.resolvedClauses
  rw [hpassed]
  exact hused

end Workspace

end ClauseLearning
