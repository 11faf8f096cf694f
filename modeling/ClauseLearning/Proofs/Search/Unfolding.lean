import ClauseLearning.Proofs.Search.Settlement
import ClauseLearning.Proofs.Solver.StoredClauses

/-!
# Unfolding what the stored clauses imply

Propagation puts literals on the trail, one after the other, each with a stored clause that implies
it at that moment. A solver *unfolds* to another one by steps of this kind, and propagation unfolds
a solver until a clause is false or the current level settles all of them.

For this it does not matter where the assignments on the trail came from and whether the reasons
that they name imply anything. The trail has to be well formed, and a stored clause must not repeat
a variable; otherwise a clause could look undetermined although it asks for a literal.
-/

set_option autoImplicit false

namespace ClauseLearning

namespace ClauseStore

/-- A clause stands in the list at the place that its name tells. -/
theorem getElem?_toList (s : ClauseStore) (c : ClauseId) : s.toList[c]? = s.get? c :=
  Array.getElem?_toList

/-- The list holds the clauses that are stored. -/
theorem mem_toList_iff {s : ClauseStore} {clause : Clause} :
    clause ∈ s.toList ↔ ∃ c, s.get? c = some clause := by
  rw [List.mem_iff_getElem?]
  simp only [getElem?_toList]

/-- The entries list the stored clauses under their names. -/
theorem mem_entries_iff {s : ClauseStore} {e : ClauseId × Clause} :
    e ∈ s.entries ↔ s.get? e.1 = some e.2 := by
  obtain ⟨c, clause⟩ := e
  unfold entries
  rw [List.mem_map, ← getElem?_toList]
  constructor
  · rintro ⟨⟨found, i⟩, hmem, heq⟩
    obtain ⟨rfl, rfl⟩ := Prod.mk.inj heq
    exact List.mk_mem_zipIdx_iff_getElem?.1 hmem
  · intro hc
    exact ⟨(clause, c), List.mk_mem_zipIdx_iff_getElem?.2 hc, rfl⟩

end ClauseStore

namespace Solver

variable {s mid next : Solver}

/-- All that propagation rests on: the trail is well formed, and the stored clauses are proper. -/
structure Tidy (s : Solver) : Prop where
  trail : s.trail.WellFormed
  proper : s.StoresProper

/-- The solvers that come from putting literals on the trail, one after the other, each with a
stored clause that implies it. -/
inductive Unfolds (s : Solver) : Solver → Prop where
  | refl : Unfolds s s
  | step {mid next : Solver} {l : Literal} {c : ClauseId} : Unfolds s mid →
      mid.trail.Implies mid.clauses l c → mid.Pushes l (some c) next → Unfolds s next

namespace Unfolds

/-- Unfolding goes on from where it stopped. -/
theorem trans (h : s.Unfolds mid) (h' : mid.Unfolds next) : s.Unfolds next := by
  induction h' with
  | refl => exact h
  | step _ himplies hpushes ih => exact ih.step himplies hpushes

/-- Apart from the trail only what is reported changes. -/
theorem exists_eq (h : s.Unfolds next) : ∃ trail proof iterating counters, next =
    { s with trail := trail, proof := proof, iterating := iterating, counters := counters } := by
  induction h with
  | refl => exact ⟨s.trail, s.proof, s.iterating, s.counters, rfl⟩
  | step _ _ hpushes ih =>
    obtain ⟨_, _, _, _, rfl⟩ := ih
    obtain ⟨iterating, counters, rfl⟩ := hpushes.next_eq
    exact ⟨_, _, iterating, counters, rfl⟩

/-- Unfolding stores no clause. -/
theorem clauses_eq (h : s.Unfolds next) : next.clauses = s.clauses := by
  obtain ⟨_, _, _, _, rfl⟩ := h.exists_eq
  rfl

/-- Unfolding opens no level. -/
theorem delimiters_eq (h : s.Unfolds next) : next.trail.delimiters = s.trail.delimiters := by
  induction h with
  | refl => rfl
  | step _ _ hpushes ih =>
    obtain ⟨iterating, counters, rfl⟩ := hpushes.next_eq
    exact (Trail.delimiters_push _ _ _).trans ih

/-- Unfolding stays on its level. -/
theorem currentLevel_eq (h : s.Unfolds next) : next.currentLevel = s.currentLevel :=
  congrArg List.length h.delimiters_eq

/-- Unfolding creates no variable. -/
theorem numVariables_eq (h : s.Unfolds next) : next.numVariables = s.numVariables := by
  induction h with
  | refl => rfl
  | step _ _ hpushes ih =>
    obtain ⟨iterating, counters, rfl⟩ := hpushes.next_eq
    exact (Trail.numVariables_push _ _ _).trans ih

/-- Unfolding keeps a solver tidy. -/
theorem tidy (h : s.Unfolds next) (hs : s.Tidy) : next.Tidy := by
  induction h with
  | refl => exact hs
  | @step mid next l c _ _ hpushes ih =>
    have hwell := ih.trail.push (some c) hpushes.known hpushes.free
    obtain ⟨iterating, counters, rfl⟩ := hpushes.next_eq
    exact ⟨hwell, ih.proper.congr rfl (Trail.numVariables_push _ _ _)⟩

/-- The trail grows at its end. -/
theorem exists_entries_eq (h : s.Unfolds next) :
    ∃ new, next.trail.entries = s.trail.entries ++ new := by
  induction h with
  | refl => exact ⟨[], (List.append_nil _).symm⟩
  | @step mid next l c _ _ hpushes ih =>
    obtain ⟨new, hnew⟩ := ih
    obtain ⟨iterating, counters, rfl⟩ := hpushes.next_eq
    refine ⟨new ++ [l], (Trail.entries_push _ _ _).trans ?_⟩
    rw [hnew, List.append_assoc]

/-- Either nothing happened, or the trail is longer. -/
theorem eq_or_length_lt (h : s.Unfolds next) : next = s ∨ s.trail.length < next.trail.length := by
  cases h with
  | refl => exact Or.inl rfl
  | @step mid _ l c hmid _ hpushes =>
    obtain ⟨new, hnew⟩ := hmid.exists_entries_eq
    have hlength := congrArg List.length hnew
    rw [List.length_append, Trail.length_entries, Trail.length_entries] at hlength
    obtain ⟨iterating, counters, rfl⟩ := hpushes.next_eq
    refine Or.inr ?_
    show s.trail.length < (mid.trail.push l (some c)).length
    rw [Trail.length_push]
    omega

/-- Unfolding takes nothing off the trail. -/
theorem length_le (h : s.Unfolds next) : s.trail.length ≤ next.trail.length := by
  rcases h.eq_or_length_lt with rfl | hlt
  · exact Nat.le_refl _
  · exact Nat.le_of_lt hlt

/-- If the trail is as long as before, nothing was unfolded. -/
theorem eq_of_length_eq (h : s.Unfolds next) (heq : next.trail.length = s.trail.length) :
    next = s :=
  h.eq_or_length_lt.resolve_right fun hlt => absurd heq (Nat.ne_of_gt hlt)

/-- What was assigned keeps its cell. -/
theorem cell_eq (h : s.Unfolds next) {v : Variable} (hv : s.trail.isAssigned v = true) :
    next.trail.cell v = s.trail.cell v := by
  induction h with
  | refl => rfl
  | @step mid next l c _ _ hpushes ih =>
    have hassigned : mid.trail.isAssigned v = true := by
      unfold Trail.isAssigned at hv ⊢
      rw [ih]
      exact hv
    have hne : l.var ≠ v := by
      rintro rfl
      rw [hpushes.free] at hassigned
      cases hassigned
    have hcell := Trail.cell_push (some c) hpushes.known v
    rw [if_neg hne] at hcell
    obtain ⟨iterating, counters, rfl⟩ := hpushes.next_eq
    exact hcell.trans ih

end Unfolds

/-- A pass through stored clauses unfolds the solver up to a false clause. If it leaves the solver
as it is and meets no false clause, the clauses are settled by the current level. -/
theorem Tidy.propagatePass_yields (h : s.Tidy) {entries : List (ClauseId × Clause)}
    (hstored : ∀ e ∈ entries, s.clauses.get? e.1 = some e.2) :
    (s.propagatePass entries).Yields fun (next, conflict) =>
      s.Unfolds next ∧ (∀ c, conflict = some c → next.Falsified c) ∧
        (conflict = none → next = s →
          ∀ e ∈ entries, s.trail.Settles s.currentLevel e.2.literals) := by
  induction entries generalizing s with
  | nil =>
    exact .pure ⟨.refl, fun c hc => (nomatch hc), fun _ _ e he => absurd he List.not_mem_nil⟩
  | cons e entries ih =>
    obtain ⟨c, clause⟩ := e
    have hc : s.clauses.get? c = some clause := hstored (c, clause) List.mem_cons_self
    have hrest : ∀ e ∈ entries, s.clauses.get? e.1 = some e.2 :=
      fun e he => hstored e (List.mem_cons_of_mem _ he)
    have hproper := h.proper c clause hc
    obtain ⟨standing, hstanding, hstands⟩ :=
      Trail.exists_standing h.trail hproper.nodup hproper.known
    unfold propagatePass
    refine .bind (.lift hstanding (Eq.refl standing)) ?_
    rintro _ rfl
    split
    next =>
      refine .pure ⟨.refl, fun d hd => ?_, fun hno => (nomatch hno)⟩
      obtain rfl := Option.some.inj hd
      exact ⟨clause, hc, hstands⟩
    next l =>
      obtain ⟨hl, hfree, hfalse⟩ := hstands
      have himplies : s.trail.Implies s.clauses l c := ⟨clause, hc, hl, hfalse⟩
      refine .bind (assign_yields (hproper.known l hl) hfree fun d hd => ?_) fun mid hmid => ?_
      · obtain rfl := Option.some.inj hd
        exact Trail.holdsReason_iff.2 himplies
      · have hunfolds : s.Unfolds mid := .step .refl himplies hmid
        have hlonger : s.trail.length < mid.trail.length := by
          obtain ⟨iterating, counters, rfl⟩ := hmid.next_eq
          exact Nat.lt_of_lt_of_eq (Nat.lt_succ_self _) (Trail.length_push _ _ _).symm
        refine (ih (hunfolds.tidy h) fun e he => hunfolds.clauses_eq ▸ hrest e he).mono ?_
        rintro ⟨next, conflict⟩ ⟨hnext, hconflict, -⟩
        refine ⟨hunfolds.trans hnext, hconflict, fun _ heq => ?_⟩
        -- the pass assigned a literal
        have hle : mid.trail.length ≤ next.trail.length := hnext.length_le
        have heq : next = s := heq
        rw [heq] at hle
        omega
    next hfalsified hunit =>
      have hsettles : s.trail.Settles s.currentLevel clause.literals := by
        unfold Trail.Stands at hstands
        split at hstands
        next => exact absurd rfl hfalsified
        next l => exact absurd rfl (hunit l)
        next => exact hstands
      refine (ih h hrest).mono ?_
      rintro ⟨next, conflict⟩ ⟨hnext, hconflict, hsettled⟩
      refine ⟨hnext, hconflict, fun hnone heq e he => ?_⟩
      rcases List.mem_cons.1 he with rfl | he
      · exact hsettles
      · exact hsettled hnone heq e he

/-- With more passes than free variables propagation ends. -/
theorem Tidy.propagateFor_yields {rounds : Nat} (h : s.Tidy)
    (hrounds : s.numVariables < s.trail.length + rounds) :
    (propagateFor rounds s).Yields fun (next, conflict) =>
      s.Unfolds next ∧ (∀ c, conflict = some c → next.Falsified c) ∧
        (conflict = none → next.SettledAt next.currentLevel) := by
  induction rounds generalizing s with
  | zero =>
    have hle : s.trail.length ≤ s.numVariables := h.trail.length_le_numVariables
    omega
  | succ rounds ih =>
    unfold propagateFor
    refine .bind (h.propagatePass_yields fun e he => ?_) ?_
    · exact ClauseStore.mem_entries_iff.1 he
    · rintro ⟨mid, conflict⟩ ⟨hmid, hconflict, hsettled⟩
      dsimp only
      split
      next hend =>
        refine .pure ⟨hmid, hconflict, fun hnone c clause hc => ?_⟩
        have hnone : conflict = none := hnone
        rw [hnone, Option.isSome_none, Bool.false_or, beq_iff_eq] at hend
        obtain rfl := hmid.eq_of_length_eq hend
        exact hsettled hnone rfl (c, clause) (ClauseStore.mem_entries_iff.2 hc)
      next hgo =>
        rw [Bool.or_eq_true, not_or, beq_iff_eq] at hgo
        have hle := hmid.length_le
        have hnum := hmid.numVariables_eq
        refine (ih (hmid.tidy h) (by omega)).mono ?_
        rintro ⟨next, found⟩ ⟨hnext, hrest⟩
        exact ⟨hmid.trans hnext, hrest⟩

/-- Propagation unfolds the solver and ends with a false clause, or with all stored clauses
settled. -/
theorem Tidy.propagate_yields (h : s.Tidy) :
    s.propagate.Yields fun (next, conflict) =>
      s.Unfolds next ∧ (∀ c, conflict = some c → next.Falsified c) ∧
        (conflict = none → next.SettledAt next.currentLevel) :=
  h.propagateFor_yields (by omega)

end Solver

end ClauseLearning
