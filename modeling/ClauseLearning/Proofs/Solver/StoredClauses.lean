import ClauseLearning.Proofs.Conflict.Contents
import ClauseLearning.Proofs.Conflict.LevelStructure
import ClauseLearning.Proofs.Solver.Cleanliness

/-!
# The shape of the stored clauses

Whatever the caller does, every stored clause has at least two literals, of different variables that
exist. For the clauses of the formula this is what becomes of a clause when it is added. For learned
clauses it does not depend on the conflict being false or on reasons that imply anything.

The literals below the level of the conflict are collected once for each variable. The one literal
that may repeat a variable is the asserting one, which is put at the end: if the walk down the trail
was led astray, the first unique implication point may have been collected before. But then the two
literals have one position, so they are the first two of the clause that is stored, and the jump
goes back to their level, where the asserting literal cannot be assigned. Such an analysis faults.
-/

set_option autoImplicit false

namespace ClauseLearning

namespace Clause.Proper

/-- Being proper is a matter of the literals. -/
theorem of_literals_eq {n : Nat} {c d : Clause} (h : c.Proper n) (heq : d.literals = c.literals) :
    d.Proper n :=
  ⟨heq ▸ h.two, heq ▸ h.distinct, heq ▸ h.known⟩

end Clause.Proper

namespace Trail

/-- A clause was shrunk from literals of distinct variables and a last one, and is sorted by
position. If the last one stands in front and the second is of another variable, then all variables
of the clause are distinct. -/
theorem WellFormed.nodup_var_of_second_ne {t : Trail} (ht : t.WellFormed)
    {learned kept rest : List Literal} {a second : Literal}
    (hlearned : (learned.map Literal.var).Nodup) (hsub : kept.Sublist (learned ++ [a]))
    (hperm : (a :: second :: rest).Perm kept)
    (hsorted : (a :: second :: rest).Pairwise fun k l => t.position l.var ≤ t.position k.var)
    (hassigned : ∀ l ∈ kept, t.isAssigned l.var = true) (hne : second.var ≠ a.var) :
    (kept.map Literal.var).Nodup := by
  obtain ⟨front, last, rfl, hfront, hlast⟩ := List.sublist_append_iff.1 hsub
  have hdistinct : (front.map Literal.var).Nodup := hlearned.sublist (hfront.map _)
  rcases List.sublist_singleton.1 hlast with rfl | rfl
  · rwa [List.append_nil]
  · have hrest : (second :: rest).Perm front :=
      (hperm.trans (List.perm_append_singleton a front)).cons_inv
    rw [List.map_append, List.map_singleton, List.nodup_append_comm, List.singleton_append,
      List.nodup_cons]
    refine ⟨fun hmem => ?_, hdistinct⟩
    obtain ⟨x, hx, hvar⟩ := List.mem_map.1 hmem
    -- a second literal of the variable has the same position, and so has what stands between
    obtain ⟨hfirst, htail⟩ := List.pairwise_cons.1 hsorted
    have hle : t.position x.var ≤ t.position second.var := by
      rcases List.mem_cons.1 (hrest.mem_iff.2 hx) with rfl | hx
      · exact Nat.le_refl _
      · exact (List.pairwise_cons.1 htail).1 x hx
    have hge := hfirst second List.mem_cons_self
    rw [hvar] at hle
    refine hne (ht.eq_of_position_eq ?_ ?_ (Nat.le_antisymm hge hle))
    · exact hassigned second (List.mem_append_left _ (hrest.mem_iff.1 List.mem_cons_self))
    · exact hassigned a (List.mem_append_right _ (List.mem_singleton_self a))

end Trail

namespace Workspace

/-- The first unique implication point is on the trail. -/
theorem firstUip_mem {v : View} {w : Workspace} (c : ClauseId) :
    (w.firstUip v c).Ensures fun (_, uip) => uip ∈ v.trail.entries := by
  unfold firstUip
  refine .bind .any fun _ _ => .bind .any fun _ _ => .bind .any fun _ _ => ?_
  -- the entries ahead stay entries of the trail
  exact descend_ensures (I := fun ls _ => ls ⊆ v.trail.entries)
    (fun hls _ => List.subset_of_cons_subset hls)
    (fun hls _ _ _ => fun _ _ => List.subset_of_cons_subset hls)
    (fun hls _ => hls List.mem_cons_self) (fun _ => List.mem_reverse.1) _

end Workspace

namespace Solver

variable {s next start : Solver} {ops : List Operation}

/-- The stored clauses are proper. -/
def StoresProper (s : Solver) : Prop :=
  ∀ c clause, s.clauses.get? c = some clause → clause.Proper s.numVariables

/-- Shrinking takes literals out. -/
theorem sublist_of_shrinkClause (hok : s.shrinkClause.result = .ok next) :
    next.workspace.learned.Sublist s.workspace.learned := by
  rcases next_of_shrinkClause hok with rfl | ⟨w, kept, removed, hminimise, rfl⟩
  · exact .refl _
  · unfold Workspace.minimise at hminimise
    obtain ⟨⟨_, found⟩, hkeep, hminimise⟩ := Traced.result_bind_eq_ok_iff.1 hminimise
    obtain ⟨_, -, hminimise⟩ := Traced.result_bind_eq_ok_iff.1 hminimise
    obtain ⟨-, rfl⟩ := Prod.mk.inj (Except.ok.inj hminimise)
    exact Workspace.keepNeeded_sublist _ _ _ hkeep

/-- What is stored has the asserting literal in front, and the jump goes to the level of the literal
after it. -/
theorem stores_of_installClause {asserting : Literal} {glue jump : Nat} {c : Option ClauseId}
    (hok : (s.installClause asserting glue).result = .ok (next, jump, c)) :
    next = s ∨ ∃ second rest proof tracked,
      s.latestFirst s.workspace.learned = asserting :: second :: rest ∧
      jump = s.trail.level second.var ∧ next = { s with
        proof := proof
        clauses := s.clauses.insert (.ofLearned (asserting :: second :: rest) glue tracked) } := by
  unfold installClause at hok
  split at hok
  next first second rest hlatest =>
    obtain ⟨_, -, hok⟩ := Traced.result_bind_eq_ok_iff.1 hok
    obtain ⟨_, hfirst, hok⟩ := Traced.result_bind_eq_ok_iff.1 hok
    have hfirst : first = asserting := beq_iff_eq.1 (Traced.result_require_eq_ok_iff.1 hfirst)
    obtain ⟨⟨stored, d⟩, hstore, hok⟩ := Traced.result_bind_eq_ok_iff.1 hok
    obtain ⟨rfl, hanswer⟩ := Prod.mk.inj (Except.ok.inj hok)
    obtain ⟨rfl, -⟩ := Prod.mk.inj hanswer
    unfold storeLearned at hstore
    obtain ⟨_, -, hstore⟩ := Traced.result_bind_eq_ok_iff.1 hstore
    obtain ⟨rfl, -⟩ := Prod.mk.inj (Except.ok.inj hstore)
    subst hfirst
    exact Or.inr ⟨second, rest, _, _, hlatest, rfl, rfl⟩
  next => exact Or.inl (Prod.mk.inj (Except.ok.inj hok)).1.symm

/-- What is stored of the literals collected and the negated implication point is proper, if the
jump to the level of the second literal frees the first one. -/
theorem Coherent.proper_of_latest (hs : s.Coherent) {w : Workspace} {uip second : Literal}
    {kept rest : List Literal} {glue : Nat} {tracked : Bool} (hw : Workspace.Tracks s.trail w)
    (huip : uip ∈ s.trail.entries) (hsub : kept.Sublist (w.learned ++ [uip.negate]))
    (hlatest : s.latestFirst kept = uip.negate :: second :: rest)
    (hfree : (s.trail.cut (s.trail.level second.var)).isAssigned uip.var = false) :
    (Clause.ofLearned (uip.negate :: second :: rest) glue tracked).Proper s.numVariables := by
  have huip_assigned := Trail.isAssigned_of_isTrue (hs.trail.isTrue_iff_mem.2 huip)
  have hassigned : ∀ l ∈ kept, s.trail.isAssigned l.var = true := by
    intro l hl
    rcases List.mem_append.1 (hsub.subset hl) with hl | hl
    · rw [hw.learned_eq] at hl
      exact hs.trail.isAssigned_of_level (hw.above_root l (List.mem_filter.1 hl).1)
    · rw [List.mem_singleton.1 hl]
      exact huip_assigned
  have hlearned : (w.learned.map Literal.var).Nodup := by
    rw [hw.learned_eq]
    exact hw.distinct.sublist (List.filter_sublist.map _)
  have hperm : (uip.negate :: second :: rest).Perm kept := hlatest ▸ stableSort_perm _ kept
  have hsorted : (uip.negate :: second :: rest).Pairwise fun k l =>
      s.trail.position l.var ≤ s.trail.position k.var :=
    hlatest ▸ Trail.pairwise_latest_first s.trail kept
  have hne : second.var ≠ uip.negate.var := by
    intro heq
    rw [heq] at hfree
    have hstays := (hs.trail.isAssigned_cut _ uip.var).2 ⟨huip_assigned, Nat.le_refl _⟩
    exact absurd (hstays.symm.trans hfree) (by decide)
  have hdistinct := hs.trail.nodup_var_of_second_ne hlearned hsub hperm hsorted hassigned hne
  exact ⟨by simp [Clause.ofLearned], ((hperm.map _).nodup_iff).2 hdistinct, fun l hl =>
    Trail.lt_numVariables_of_isAssigned (hassigned l (hperm.mem_iff.1 hl))⟩

namespace StoresProper

/-- Storing further clauses under the names after the others. -/
theorem insert (h : s.StoresProper) {clause : Clause} (hclause : clause.Proper s.numVariables) :
    ({ s with clauses := s.clauses.insert clause } : Solver).StoresProper := by
  intro c stored hc
  have hc : (s.clauses.insert clause).get? c = some stored := hc
  rw [ClauseStore.get?_insert] at hc
  split at hc
  next => exact Option.some.inj hc ▸ hclause
  next => exact h c stored hc

/-- Stamps do not matter. -/
theorem of_alike (h : s.StoresProper) (halike : s.clauses.Alike next.clauses)
    (hnum : next.numVariables = s.numVariables) : next.StoresProper := by
  intro c clause hc
  have hsame := halike.get?_eq c
  rw [hc] at hsame
  obtain ⟨old, hold, hcontents⟩ := Option.map_eq_some_iff.1 hsame.symm
  rw [hnum]
  exact (h c old hold).of_literals_eq (congrArg Contents.literals hcontents).symm

/-- Whether all clauses are proper depends on the clauses and the number of variables only. -/
theorem congr (h : s.StoresProper) (hclauses : next.clauses = s.clauses)
    (hnum : next.numVariables = s.numVariables) : next.StoresProper :=
  h.of_alike (hclauses ▸ .refl _) hnum

/-- What is stored of an added clause is proper. -/
theorem adds (h : s.StoresProper) {ls : List Literal} (ha : s.Adds ls next) :
    next.StoresProper := by
  cases ha with
  | refused _ => exact h
  | dropped _ => exact h
  | refuted _ => exact h.congr rfl rfl
  | unit _ hp =>
    obtain ⟨iterating, counters, rfl⟩ := hp.next_eq
    exact h.congr rfl (Trail.numVariables_push _ _ _)
  | stored hremains htwo =>
    exact h.insert ⟨htwo, hremains.distinct, fun l hl => (hremains.free l hl).1⟩

/-- A clause that is learned and asserted is proper. -/
theorem learns {c : ClauseId} {learned : Learned} (h : s.StoresProper) (hs : s.Coherent)
    (hphases : s.Phases c next learned) : next.StoresProper := by
  cases hphases with
  | @intro derived stamped recorded shrunk installed undone asserted bumped asserting jump clause
    hderive hstamp hrecord hshrink hinstall hundo himply hbump =>
  obtain ⟨w, uip, activity, store, hfirst, rfl, hw, -, hflush, rfl⟩ :=
    hs.recorded hderive hstamp hrecord
  have hsub := sublist_of_shrinkClause hshrink
  obtain ⟨kept, counters, rfl⟩ := workspace_of_shrinkClause hshrink hs.trail hw rfl
  have hafter : bumped.clearWorkspace.clauses = installed.clauses ∧
      bumped.clearWorkspace.numVariables = installed.numVariables := by
    obtain ⟨_, _, rfl⟩ := next_of_bumpSeen hbump
    obtain ⟨_, _, rfl⟩ := (pushes_of_imply himply).next_eq
    obtain ⟨-, rfl⟩ := undo_eq_ok hundo
    exact ⟨rfl, (Trail.numVariables_push _ _ _).trans (Trail.numVariables_cut _ _)⟩
  refine StoresProper.congr ?_ hafter.1 hafter.2
  have hrecorded : ({ s with
      clauses := store
      workspace := { w with activity := activity, learned := kept }
      counters := counters } : Solver).StoresProper := h.of_alike (.of_flush hflush) rfl
  rcases stores_of_installClause hinstall with
    rfl | ⟨second, rest, proof, tracked, hlatest, rfl, rfl⟩
  · exact hrecorded.congr rfl rfl
  · refine StoresProper.insert (s := { s with
      clauses := store
      workspace := { w with activity := activity, learned := kept }
      proof := proof
      counters := _ }) (hrecorded.congr rfl rfl) ?_
    have hpushes := pushes_of_imply himply
    obtain ⟨-, rfl⟩ := undo_eq_ok hundo
    exact hs.proper_of_latest hw (Workspace.firstUip_mem _ _ hfirst) hsub hlatest hpushes.free

/-- What an analysis stores is proper. -/
theorem analyse {outcome : Outcome} (h : s.StoresProper) (hs : s.Coherent)
    (hok : s.analyse.result = .ok (next, outcome)) : next.StoresProper := by
  have hcourse := course_of_analyse hok
  cases hcourse with
  | repeated _ => exact h
  | refuted _ _ => exact h.congr rfl rfl
  | learned _ _ hlearn =>
    have hcounted : s.countConflict.Coherent := hs.congr rfl hs.serves rfl
    have hstores : s.countConflict.StoresProper := h.congr rfl rfl
    exact (hstores.learns hcounted (phases_of_learn hlearn)).congr rfl rfl

/-- No operation that succeeds stores an improper clause. -/
theorem perform (h : s.StoresProper) (hs : s.Coherent) {op : Operation}
    (hok : s.perform op = .ok next) : next.StoresProper := by
  cases performs_of_perform hok with
  | newVariable =>
    intro c clause hc
    rw [Coherent.numVariables_newVariable]
    exact (h c clause hc).mono (Nat.le_succ _)
  | addClause _ hadds => exact h.adds hadds
  | decide _ _ _ => exact h.congr rfl (Trail.numVariables_push _ _ _)
  | nextDecision _ => exact h.congr rfl rfl
  | assign hpushes =>
    obtain ⟨iterating, counters, rfl⟩ := hpushes.next_eq
    exact h.congr rfl (Trail.numVariables_push _ _ _)
  | ignored _ => exact h
  | declared _ _ => exact h.congr rfl rfl
  | analyse hanalyse => exact h.analyse hs hanalyse
  | backtrack hundo =>
    obtain ⟨-, rfl⟩ := undo_eq_ok hundo
    exact h.congr rfl (Trail.numVariables_cut _ _)
  | removeFromQueue _ => exact h.congr rfl rfl
  | iterate => exact h.congr rfl rfl

end StoresProper

/-- Along every run the solver stays coherent and stores proper clauses. -/
theorem Run.storesProper {allows : Solver → Operation → Bool} (h : Run allows start ops s)
    (hstart : start.Coherent) (hstores : start.StoresProper) : s.StoresProper := by
  induction h with
  | start => exact hstores
  | step hrun _ hok ih => exact ih.perform (hrun.coherent hstart) hok

end Solver

end ClauseLearning
