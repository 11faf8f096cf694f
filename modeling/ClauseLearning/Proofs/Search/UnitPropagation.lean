import ClauseLearning.Proofs.Search.LowerLevels
import ClauseLearning.Proofs.Search.Unfolding

/-!
# Propagation computes the unit closure

The passes of propagation depend on the order in which the clauses are stored, and so does the order
of the literals that they put on the trail. What becomes true does not: if no clause is false in the
end, the true literals are exactly those that unit propagation reaches from the trail, and a clause
is false in the end exactly if unit propagation reaches a literal and its negation.

One half is that every literal put on the trail is reached. The other half is that the true literals
of settled clauses are closed under the unit rule, for which a clause must not have two literals of
one variable. So all of this holds in every state that operations lead to, whatever the reasons that
the trail records and whatever clauses were learned from.
-/

set_option autoImplicit false

namespace ClauseLearning

/-- Unit propagation reaches nothing outside a set that has the assumptions and is closed under the
unit rule. -/
theorem Propagated.of_closed {F : Formula} {assumed : List Literal} {P : Literal → Prop}
    (hassumed : ∀ l ∈ assumed, P l)
    (hclosed : ∀ ls ∈ F, ∀ l ∈ ls, (∀ k ∈ ls, k ≠ l → P k.negate) → P l) {l : Literal}
    (h : Propagated F assumed l) : P l := by
  induction h with
  | assumption hl => exact hassumed _ hl
  | unit hls hl _ ih => exact hclosed _ hls _ hl ih

namespace Trail

variable {t u : Trail} {store : ClauseStore} {l : Literal}

/-- The literal was put on a level of the trail with a stored clause that has it and whose other
literals were false before. -/
def AccountsFor (t : Trail) (store : ClauseStore) (level : Nat) (l : Literal) : Prop :=
  t.level l.var = level ∧ ∃ c clause, t.reason l.var = some c ∧ store.get? c = some clause ∧
    l ∈ clause.literals ∧ ∀ k ∈ clause.literals, k ≠ l →
      t.isFalse k = true ∧ t.position k.var < t.position l.var

/-- It is enough that assigned variables keep their cells. -/
theorem AccountsFor.of_cell_eq {n : Nat} (h : t.AccountsFor store n l)
    (hl : t.isAssigned l.var = true)
    (hcell : ∀ v, t.isAssigned v = true → u.cell v = t.cell v) : u.AccountsFor store n l := by
  obtain ⟨hlevel, c, clause, hreason, hc, hmem, hrest⟩ := h
  have hkept := hcell l.var hl
  refine ⟨?_, c, clause, ?_, hc, hmem, fun k hk hne => ?_⟩
  · unfold level at hlevel ⊢
    rw [hkept]
    exact hlevel
  · unfold reason at hreason ⊢
    rw [hkept]
    exact hreason
  · obtain ⟨hfalse, hlt⟩ := hrest k hk hne
    have hkept' := hcell k.var (isAssigned_of_isFalse hfalse)
    unfold position at hlt ⊢
    rw [hkept, hkept']
    refine ⟨?_, hlt⟩
    rw [isFalse_iff] at hfalse ⊢
    rw [hkept']
    exact hfalse

/-- The trail accounts for a literal that is put at its end with a clause that implies it. -/
theorem WellFormed.accountsFor_push (h : t.WellFormed) {c : ClauseId}
    (hl : l.var < t.numVariables) (hfree : t.isAssigned l.var = false)
    (himplies : t.Implies store l c) :
    (t.push l (some c)).AccountsFor store t.currentLevel l := by
  have hopens : t.Opens t (some c) := .refl t _
  have hcell := hopens.cell_push_self hl
  obtain ⟨clause, hc, hmem, hrest⟩ := himplies
  refine ⟨?_, c, clause, ?_, hc, hmem, fun k hk hne => ?_⟩
  · rw [level, hcell]
  · rw [reason, hcell]
  · have hk := hrest k hk hne
    obtain ⟨hfalse, hposition⟩ := hopens.isFalse_push hl hfree hk
    refine ⟨hfalse, ?_⟩
    rw [position, position, hposition, hcell]
    exact h.position_lt (isAssigned_of_isFalse hk)

end Trail

namespace Solver

variable {s mid next start : Solver} {ops : List Operation} {l : Literal} {c : ClauseId}
  {conflict : Option ClauseId}

/-- Whether unit propagation through the stored clauses reaches a literal from the trail. -/
def Propagates (s : Solver) (l : Literal) : Prop :=
  Propagated (s.clauses.toList.map Clause.literals) s.trail.entries l

/-- Unit propagation reaches a literal and its negation. -/
def Contradicts (s : Solver) : Prop := ∃ l, s.Propagates l ∧ s.Propagates l.negate

/-- The lists of literals stored are those of the stored clauses. -/
theorem mem_literals_iff {ls : List Literal} :
    ls ∈ s.clauses.toList.map Clause.literals ↔
      ∃ c clause, s.clauses.get? c = some clause ∧ clause.literals = ls := by
  simp only [List.mem_map, ClauseStore.mem_toList_iff]
  constructor
  · rintro ⟨clause, ⟨c, hc⟩, heq⟩
    exact ⟨c, clause, hc, heq⟩
  · rintro ⟨c, clause, hc, heq⟩
    exact ⟨clause, ⟨c, hc⟩, heq⟩

/-- If all other literals of a stored clause are refuted by propagation, the last one propagates. -/
theorem Propagates.of_get? {clause : Clause} (hc : s.clauses.get? c = some clause)
    (hl : l ∈ clause.literals) (hrest : ∀ k ∈ clause.literals, k ≠ l → s.Propagates k.negate) :
    s.Propagates l :=
  .unit (mem_literals_iff.2 ⟨c, clause, hc, rfl⟩) hl hrest

/-- Unit propagation does not depend on the order of the clauses. -/
theorem Propagates.of_perm {store : ClauseStore} (h : s.Propagates l)
    (hperm : (store.toList.map Clause.literals).Perm (s.clauses.toList.map Clause.literals)) :
    ({ s with clauses := store } : Solver).Propagates l :=
  h.mono hperm.symm.subset

namespace Unfolds

/-- What is put on the trail, unit propagation reaches. -/
theorem propagates (h : s.Unfolds next) (hs : s.Tidy) (hl : next.trail.isTrue l = true) :
    s.Propagates l := by
  induction h generalizing l with
  | refl => exact .assumption (hs.trail.isTrue_iff_mem.1 hl)
  | @step mid next new c hmid himplies hpushes ih =>
    have htrue := Trail.isTrue_push (r := some c) hpushes.known hpushes.free l
    obtain ⟨iterating, counters, rfl⟩ := hpushes.next_eq
    rcases htrue.1 hl with rfl | hold
    · obtain ⟨clause, hc, hmem, hfalse⟩ := himplies
      refine .of_get? (hmid.clauses_eq ▸ hc) hmem fun k hk hne => ih ?_
      rw [Trail.isTrue_negate]
      exact hfalse k hk hne
    · exact ih hold

/-- The trail grows by literals for which it accounts. -/
theorem exists_new (h : s.Unfolds next) (hs : s.Tidy) :
    ∃ new, next.trail.entries = s.trail.entries ++ new ∧
      ∀ l ∈ new, next.trail.AccountsFor s.clauses s.currentLevel l := by
  induction h with
  | refl => exact ⟨[], (List.append_nil _).symm, fun l hl => absurd hl List.not_mem_nil⟩
  | @step mid next last c hmid himplies hpushes ih =>
    obtain ⟨new, hentries, hnew⟩ := ih
    have hwell := (hmid.tidy hs).trail
    have hcell := fun v => (Unfolds.step .refl himplies hpushes).cell_eq (v := v)
    have hlast := hwell.accountsFor_push hpushes.known hpushes.free (hmid.clauses_eq ▸ himplies)
    have hlevel : mid.trail.currentLevel = s.currentLevel := hmid.currentLevel_eq
    rw [hlevel] at hlast
    obtain ⟨iterating, counters, rfl⟩ := hpushes.next_eq
    refine ⟨new ++ [last], ?_, fun l hl => ?_⟩
    · rw [← List.append_assoc, ← hentries]
      exact Trail.entries_push _ _ _
    · rcases List.mem_append.1 hl with hl | hl
      · have htrue : mid.trail.isTrue l = true :=
          hwell.isTrue_iff_mem.2 (hentries ▸ List.mem_append_right _ hl)
        exact (hnew l hl).of_cell_eq (Trail.isAssigned_of_isTrue htrue) hcell
      · obtain rfl := List.mem_singleton.1 hl
        exact hlast

/-- The true literals of settled clauses are closed under the unit rule. -/
theorem isTrue_of_propagates (h : s.Unfolds next) (hs : s.Tidy)
    (hsettled : next.SettledAt next.currentLevel) (hl : s.Propagates l) :
    next.trail.isTrue l = true := by
  have hwell := (h.tidy hs).trail
  refine Propagated.of_closed (P := fun k => next.trail.isTrue k = true) (fun k hk => ?_)
    (fun ls hls l hl hrest => ?_) hl
  · obtain ⟨new, hentries⟩ := h.exists_entries_eq
    exact hwell.isTrue_iff_mem.2 (hentries ▸ List.mem_append_left _ hk)
  obtain ⟨c, clause, hc, rfl⟩ := mem_literals_iff.1 hls
  have hfalse : ∀ k ∈ clause.literals, k ≠ l → next.trail.isFalse k = true := by
    intro k hk hne
    rw [← Trail.isTrue_negate]
    exact hrest k hk hne
  -- a literal that is free or true can only be the one asked for
  have hno : ∀ k ∈ clause.literals, k ≠ l → ¬ next.trail.FreeUpTo next.currentLevel k := by
    intro k hk hne hfree
    exact hfree ⟨Trail.isAssigned_of_isFalse (hfalse k hk hne), hwell.level_le k.var⟩
  rcases (hsettled c clause (h.clauses_eq ▸ hc)).true_or_free with
    ⟨k, hk, htrue, -⟩ | ⟨k, hk, k', hk', hne, hkfree, hkfree'⟩
  · by_cases heq : k = l
    · exact heq ▸ htrue
    · have hboth := hfalse k hk heq
      rw [Trail.isFalse_eq_false_of_isTrue htrue] at hboth
      cases hboth
  · by_cases heq : k = l
    · exact absurd hkfree' (hno k' hk' fun heq' => hne (heq.trans heq'.symm))
    · exact absurd hkfree (hno k hk heq)

/-- A false clause has two literals of different variables, so unit propagation contradicts
itself. -/
theorem contradicts (h : s.Unfolds next) (hs : s.Tidy) (hfalse : next.Falsified c) :
    s.Contradicts := by
  obtain ⟨clause, hc, hfalse⟩ := hfalse
  have hnegated : ∀ k ∈ clause.literals, s.Propagates k.negate := by
    intro k hk
    refine h.propagates hs ?_
    rw [Trail.isTrue_negate]
    exact hfalse k hk
  obtain ⟨l, hl⟩ : ∃ l, l ∈ clause.literals :=
    List.exists_mem_of_length_pos (Nat.lt_of_succ_lt ((h.tidy hs).proper c clause hc).two)
  refine ⟨l, .of_get? (h.clauses_eq ▸ hc) hl fun k hk _ => hnegated k hk, hnegated l hl⟩

end Unfolds

/-- What propagation achieves. It only puts literals at the end of the trail, each on the current
level with a reason that implied it, and changes nothing else but what is reported. If it meets no
false clause, the true literals are those that unit propagation reaches, and no clause is unit or
false. If it names a clause, the clause is false. It names one exactly if unit propagation reaches a
literal and its negation. -/
structure Saturates (s next : Solver) (conflict : Option ClauseId) : Prop where
  appends : ∃ new, next.trail.entries = s.trail.entries ++ new ∧
    ∀ l ∈ new, next.trail.AccountsFor s.clauses s.currentLevel l
  delimiters_eq : next.trail.delimiters = s.trail.delimiters
  cell_eq : ∀ v, s.trail.isAssigned v = true → next.trail.cell v = s.trail.cell v
  remains : ∃ trail proof iterating counters, next =
    { s with trail := trail, proof := proof, iterating := iterating, counters := counters }
  isTrue_iff : conflict = none → ∀ l, next.trail.isTrue l = true ↔ s.Propagates l
  undecided : conflict = none → ∀ c clause, s.clauses.get? c = some clause →
    (∃ l ∈ clause.literals, next.trail.isTrue l = true) ∨
      ∃ k ∈ clause.literals, ∃ l ∈ clause.literals, k.var ≠ l.var ∧
        next.trail.isAssigned k.var = false ∧ next.trail.isAssigned l.var = false
  falsified : ∀ c, conflict = some c → next.Falsified c
  conflict_iff : conflict.isSome = true ↔ s.Contradicts

/-- Up to the current level a literal is free exactly if its variable is unassigned. -/
theorem Tidy.isAssigned_of_freeUpTo (h : s.Tidy) (hfree : s.trail.FreeUpTo s.currentLevel l) :
    s.trail.isAssigned l.var = false :=
  Bool.eq_false_iff.2 fun hassigned => hfree ⟨hassigned, h.trail.level_le l.var⟩

/-- An unfolding that ends with a false clause, or with all clauses settled, saturates. -/
theorem Unfolds.saturates (h : s.Unfolds next) (hs : s.Tidy)
    (hfalse : ∀ c, conflict = some c → next.Falsified c)
    (hsettled : conflict = none → next.SettledAt next.currentLevel) :
    s.Saturates next conflict where
  appends := h.exists_new hs
  delimiters_eq := h.delimiters_eq
  cell_eq := fun _ hv => h.cell_eq hv
  remains := h.exists_eq
  isTrue_iff := fun hnone l =>
    ⟨h.propagates hs, h.isTrue_of_propagates hs (hsettled hnone)⟩
  undecided := by
    intro hnone c clause hc
    have hc : next.clauses.get? c = some clause := h.clauses_eq ▸ hc
    rcases (hsettled hnone c clause hc).true_or_free with
      ⟨l, hl, htrue, -⟩ | ⟨k, hk, l, hl, hne, hkfree, hlfree⟩
    · exact Or.inl ⟨l, hl, htrue⟩
    · have hnext := h.tidy hs
      exact Or.inr ⟨k, hk, l, hl, (hnext.proper c clause hc).var_ne hk hl hne,
        hnext.isAssigned_of_freeUpTo hkfree, hnext.isAssigned_of_freeUpTo hlfree⟩
  falsified := hfalse
  conflict_iff := by
    cases conflict with
    | some c => exact ⟨fun _ => h.contradicts hs (hfalse c rfl), fun _ => rfl⟩
    | none =>
      refine ⟨fun hno => (nomatch hno), ?_⟩
      rintro ⟨l, hl, hnegate⟩
      -- a literal and its negation would both be true
      have htrue := h.isTrue_of_propagates hs (hsettled rfl) hl
      have hboth := h.isTrue_of_propagates hs (hsettled rfl) hnegate
      rw [Trail.isTrue_negate, Trail.isFalse_eq_false_of_isTrue htrue] at hboth
      cases hboth

/-- In a tidy solver propagation ends, with all there is to propagate or with a false clause. -/
theorem Tidy.saturates (h : s.Tidy) :
    s.propagate.Yields fun (next, conflict) => s.Saturates next conflict := by
  refine h.propagate_yields.mono ?_
  rintro ⟨next, conflict⟩ ⟨hunfolds, hfalse, hsettled⟩
  exact hunfolds.saturates h hfalse hsettled

/-- Storing the same clauses in another order keeps a solver tidy. -/
theorem Tidy.of_perm (h : s.Tidy) {store : ClauseStore}
    (hperm : (store.toList.map Clause.literals).Perm (s.clauses.toList.map Clause.literals)) :
    ({ s with clauses := store } : Solver).Tidy := by
  refine ⟨h.trail, fun c clause hc => ?_⟩
  have hmem := mem_literals_iff.2 ⟨c, clause, hc, rfl⟩
  obtain ⟨d, stored, hd, heq⟩ := mem_literals_iff.1 (hperm.subset hmem)
  exact (h.proper d stored hd).of_literals_eq heq.symm

/-- In every state that operations lead to from a new solver, propagation ends without a fault and
computes what unit propagation reaches from the trail. If the same clauses were stored in another
order, it would find a conflict in the same cases, and without one make the same literals true. -/
theorem Run.propagate_saturates {o : Options} {audit : AuditLevel} {proof : ProofLog}
    (hnew : Solver.new o audit proof = .ok start) (hrun : Run unrestricted start ops s) :
    ∃ next conflict, s.propagate.result = .ok (next, conflict) ∧ s.Saturates next conflict ∧
      ∀ store : ClauseStore,
        (store.toList.map Clause.literals).Perm (s.clauses.toList.map Clause.literals) →
        ∃ next' conflict',
          ({ s with clauses := store } : Solver).propagate.result = .ok (next', conflict') ∧
          conflict'.isSome = conflict.isSome ∧
          (conflict = none → ∀ l, next'.trail.isTrue l = next.trail.isTrue l) := by
  obtain rfl := eq_empty_of_new hnew
  have hempty := grounded_empty o audit proof
  have hs : s.Tidy := ⟨(hrun.coherent hempty.toCoherent).trail,
    hrun.storesProper hempty.toCoherent hempty.proper⟩
  obtain ⟨⟨next, conflict⟩, hok, hsaturates⟩ := hs.saturates
  refine ⟨next, conflict, hok, hsaturates, fun store hperm => ?_⟩
  obtain ⟨⟨next', conflict'⟩, hok', hsaturates'⟩ := (hs.of_perm hperm).saturates
  have hsame : ∀ l, ({ s with clauses := store } : Solver).Propagates l ↔ s.Propagates l :=
    fun l => ⟨fun h => h.mono hperm.subset, fun h => h.of_perm hperm⟩
  have hconflict : conflict'.isSome = conflict.isSome := by
    rw [Bool.eq_iff_iff, hsaturates.conflict_iff, hsaturates'.conflict_iff]
    simp only [Contradicts, hsame]
  refine ⟨next', conflict', hok', hconflict, fun hnone l => ?_⟩
  have hnone' : conflict' = none := by
    rw [← Option.not_isSome_iff_eq_none, hconflict, hnone]
    exact Bool.false_ne_true
  rw [Bool.eq_iff_iff, hsaturates.isTrue_iff hnone, hsaturates'.isTrue_iff hnone', hsame]

/-- After a decision a literal is assigned that its reason does not have, and a clause is declared
false that is not. The decision implies three literals, one after the other, and the last clause
forbids them. -/
def strayRun : List Operation :=
  [.newVariable, .newVariable, .newVariable, .newVariable, .newVariable,
    .addClause [⟨0, false⟩, ⟨1, true⟩], .addClause [⟨1, false⟩, ⟨2, true⟩],
    .addClause [⟨1, false⟩, ⟨2, false⟩, ⟨3, true⟩],
    .addClause [⟨1, false⟩, ⟨2, false⟩, ⟨3, false⟩], .decide ⟨0, true⟩,
    .assign ⟨4, true⟩ (some 0), .declareConflict 1]

/-- Propagation appends three literals and meets a false clause. -/
theorem strayRun_propagate_saturates : ∃ s,
    runBy unrestricted (Solver.empty {} .basic ⟨none⟩) strayRun = some s ∧
      ∃ next, s.propagate.result = .ok (next, some 3) ∧ s.Saturates next (some 3) ∧
        s.trail.entries = [⟨0, true⟩, ⟨4, true⟩] ∧
        next.trail.entries = [⟨0, true⟩, ⟨4, true⟩, ⟨1, true⟩, ⟨2, true⟩, ⟨3, true⟩] ∧
        s.Contradicts := by
  have hnew : Solver.new {} .basic ⟨none⟩ = .ok (Solver.empty {} .basic ⟨none⟩) := rfl
  have hend : ((runBy unrestricted (Solver.empty {} .basic ⟨none⟩) strayRun).bind fun s =>
      s.propagate.result.toOption.map fun p => (s.trail.entries, p.1.trail.entries, p.2)) =
      some ([⟨0, true⟩, ⟨4, true⟩],
        [⟨0, true⟩, ⟨4, true⟩, ⟨1, true⟩, ⟨2, true⟩, ⟨3, true⟩], some 3) := by decide +kernel
  obtain ⟨s, hrun, hend⟩ := Option.bind_eq_some_iff.1 hend
  obtain ⟨⟨next, conflict⟩, hpropagate, hend⟩ := Option.map_eq_some_iff.1 hend
  simp only [Prod.mk.injEq] at hend
  obtain ⟨hbefore, hafter, rfl⟩ := hend
  obtain ⟨next', conflict', hok, hsaturates, -⟩ :=
    Run.propagate_saturates hnew (Run.start.of_runBy hrun)
  obtain ⟨rfl, rfl⟩ := Prod.mk.inj
    (Except.ok.inj (hok.symm.trans (toOption_eq_some_iff.1 hpropagate)))
  exact ⟨s, hrun, next', hok, hsaturates, hbefore, hafter, hsaturates.conflict_iff.1 rfl⟩

end Solver

end ClauseLearning
