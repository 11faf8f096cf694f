import ClauseLearning.Proofs.Decision.Service
import ClauseLearning.Proofs.Simplification
import ClauseLearning.Proofs.Yields
import ClauseLearning.Solver.Assignment

/-!
# What the operations do to the solver

Each operation that assigns, undoes or adds a clause is described by the solver that it leaves: what
is not mentioned stays as it was. The description of an operation comes with the conditions under
which it succeeds.
-/

set_option autoImplicit false

namespace ClauseLearning

/-- Logging the empty clause writes its line, whether or not the writer can be flushed. -/
theorem ProofLog.logEmpty_fst (p : ProofLog) : p.logEmpty.1 = (p.logClause []).1 := by
  unfold logEmpty
  split
  next q hq =>
    rw [hq]
    split <;> rfl
  next => rfl

namespace Solver

variable {s next : Solver} {l : Literal} {r : Option ClauseId}

/-- The solver after a literal was put on the trail; at the root the literal is logged. -/
structure Pushes (s : Solver) (l : Literal) (r : Option ClauseId) (next : Solver) : Prop where
  known : l.var < s.numVariables
  free : s.trail.isAssigned l.var = false
  next_eq : ∃ iterating counters, next =
    { s with
      trail := s.trail.push l r
      proof := if s.currentLevel = 0 then (s.proof.logClause [l]).1 else s.proof
      iterating := iterating
      counters := counters }
  counters_eq : next.counters = if s.currentLevel = 0 then s.counters.countFixed else s.counters

/-- A literal of a free variable can be put on the trail. -/
theorem imply_yields (hknown : l.var < s.numVariables)
    (hfree : s.trail.isAssigned l.var = false) : (s.imply l r).Yields (s.Pushes l r) := by
  have hassign : s.trail.assign l r = .ok (s.trail.push l r) :=
    Trail.assign_eq_ok_iff.2 ⟨hknown, hfree, rfl⟩
  unfold imply
  refine .bind (.lift hassign rfl) ?_
  rintro _ rfl
  by_cases hroot : s.currentLevel = 0
  · rw [if_pos hroot]
    refine .bind (.tellAll _) fun _ _ => .pure ⟨hknown, hfree, ?_, (if_pos hroot).symm⟩
    rw [if_pos hroot]
    exact ⟨true, _, rfl⟩
  · rw [if_neg hroot]
    refine .pure ⟨hknown, hfree, ?_, (if_neg hroot).symm⟩
    rw [if_neg hroot]
    exact ⟨s.iterating, s.counters, rfl⟩

/-- Only a literal of a free variable can be put on the trail. -/
theorem pushes_of_imply (hok : (s.imply l r).result = .ok next) : s.Pushes l r next := by
  obtain ⟨t, hassign, -⟩ := Traced.result_bind_eq_ok_iff.1 hok
  obtain ⟨hknown, hfree, -⟩ := Trail.assign_eq_ok_iff.1 hassign
  exact (imply_yields hknown hfree).of_result hok

/-- Only a literal of a free variable can be assigned. -/
theorem pushes_of_assign (hok : (s.assign l r).result = .ok next) : s.Pushes l r next := by
  unfold assign at hok
  obtain ⟨_, -, hok⟩ := Traced.result_bind_eq_ok_iff.1 hok
  exact pushes_of_imply hok

/-- An assignment succeeds if its reason passes the audit. -/
theorem assign_yields (hknown : l.var < s.numVariables)
    (hfree : s.trail.isAssigned l.var = false)
    (hreason : ∀ c, r = some c → (s.trail.holdsReason s.clauses l c).result = .ok true) :
    (s.assign l r).Yields (s.Pushes l r) := by
  unfold assign
  refine .bind (P := fun _ => True) ?_ fun _ _ => imply_yields hknown hfree
  cases r with
  | none => exact .pure trivial
  | some c => exact .checkBy (hreason c rfl)

/-- A decision succeeds exactly for a free variable while no conflict is pending. -/
theorem decide_eq_ok_iff : (s.decide l).result = .ok next ↔
    s.status = .ready ∧ l.var < s.numVariables ∧ s.trail.isAssigned l.var = false ∧
      next = s.withTrail (s.trail.openLevel.push l none) := by
  have hassign : ∀ t, s.trail.openLevel.assignDecision l = .ok t ↔
      l.var < s.numVariables ∧ s.trail.isAssigned l.var = false ∧
        t = s.trail.openLevel.push l none := by
    intro t
    unfold Trail.assignDecision
    rw [if_neg (by simp [Trail.openLevel, Trail.currentLevel]), Trail.assign_eq_ok_iff]
    exact Iff.rfl
  unfold decide
  rw [Traced.result_bind_eq_ok_iff]
  constructor
  · rintro ⟨_, hready, hok⟩
    obtain ⟨_, -, hok⟩ := Traced.result_bind_eq_ok_iff.1 hok
    obtain ⟨t, ht, hok⟩ := Traced.result_bind_eq_ok_iff.1 hok
    obtain ⟨hknown, hfree, rfl⟩ := (hassign t).1 ht
    exact ⟨beq_iff_eq.1 (Traced.result_require_eq_ok_iff.1 hready), hknown, hfree,
      (Except.ok.inj hok).symm⟩
  · rintro ⟨hready, hknown, hfree, rfl⟩
    refine ⟨(), Traced.result_require_eq_ok_iff.2 (beq_iff_eq.2 hready), ?_⟩
    refine Traced.result_bind_eq_ok_iff.2 ⟨(), rfl, ?_⟩
    exact Traced.result_bind_eq_ok_iff.2 ⟨_, (hassign _).2 ⟨hknown, hfree, rfl⟩, rfl⟩

/-- What is undone are the levels above one that was reached. -/
theorem undo_eq_ok {level : Nat} (hok : s.undo level = .ok next) :
    level ≤ s.currentLevel ∧ next =
      { s with
        trail := s.trail.cut level
        heuristic := s.heuristic.release (s.trail.above level) } := by
  obtain ⟨⟨t, undone⟩, hbacktrack, hok⟩ := Fault.bind_eq_ok_iff.1 hok
  obtain ⟨heuristic, hrelease, hok⟩ := Fault.bind_eq_ok_iff.1 hok
  obtain ⟨hlevel, rfl, rfl⟩ := Trail.backtrack_eq_ok hbacktrack
  obtain rfl := Heuristic.releaseKnown_eq_ok hrelease
  exact ⟨hlevel, (Except.ok.inj hok).symm⟩

/-- Undoing succeeds for the levels that were reached, where the heuristic serves the trail. -/
theorem undo_eq (ht : s.trail.WellFormed) (hs : s.heuristic.Serves s.trail) {level : Nat}
    (hle : level ≤ s.currentLevel) : s.undo level = .ok
      { s with
        trail := s.trail.cut level
        heuristic := s.heuristic.release (s.trail.above level) } := by
  refine Fault.bind_eq_ok_iff.2 ⟨_, ht.backtrack_eq hle, ?_⟩
  exact Fault.bind_eq_ok_iff.2 ⟨_, hs.releaseKnown_eq ht level, rfl⟩

/-- What is created is the next variable. -/
theorem createVariable_eq_ok (hok : s.createVariable = .ok next) : next = s.newVariable := by
  obtain ⟨heuristic, hgrow, hok⟩ := Fault.bind_eq_ok_iff.1 hok
  obtain rfl := Heuristic.growKnown_eq_ok hgrow
  exact (Except.ok.inj hok).symm

/-- Where the heuristic serves the trail, a variable can be created. -/
theorem createVariable_eq (hs : s.heuristic.Serves s.trail) :
    s.createVariable = .ok s.newVariable :=
  Fault.bind_eq_ok_iff.2 ⟨_, hs.growKnown_eq _, rfl⟩

/-! ## Adding a clause -/

/-- What is left of a clause when its false literals are dropped: free literals of different
variables. -/
structure Remains (s : Solver) (ls rest : List Literal) : Prop where
  subset : rest ⊆ ls
  covers : ∀ k ∈ ls, k ∈ rest ∨ s.trail.isFalse k = true
  free : ∀ k ∈ rest, k.var < s.numVariables ∧ s.trail.isAssigned k.var = false
  distinct : (rest.map Literal.var).Nodup

/-- What becomes of a clause that is added at the root level. It is refused if the formula has no
model anyway, and dropped if it is a tautology or true. Of other clauses the literals that are not
false are left: none refute the formula, a single one is fixed, several are stored. -/
inductive Adds (s : Solver) (ls : List Literal) : Solver → Prop where
  | refused : s.status = .unsatisfiable → Adds s ls s
  | dropped : (∃ l ∈ ls, l.negate ∈ ls) ∨ (∃ l ∈ ls, s.trail.isTrue l = true) → Adds s ls s
  | refuted : s.Remains ls [] →
      Adds s ls { s with proof := (s.proof.logClause []).1, status := .unsatisfiable }
  | unit {l : Literal} {next : Solver} : s.Remains ls [l] → s.Pushes l none next → Adds s ls next
  | stored {rest : List Literal} : s.Remains ls rest → 2 ≤ rest.length →
      Adds s ls { s with clauses := s.clauses.insert (.ofFormula rest) }

variable {ls rest : List Literal}

/-- That the formula has no model can be learned once. -/
theorem learnEmpty_eq_ok_iff : s.learnEmpty.result = .ok next ↔ s.status ≠ .unsatisfiable ∧
    next = { s with proof := (s.proof.logClause []).1, status := .unsatisfiable } := by
  unfold learnEmpty
  rw [Traced.result_bind_eq_ok_iff]
  simp only [Traced.result_require_eq_ok_iff, exists_const, Bool.not_eq_true', isUnsatisfiable,
    beq_eq_false_iff_ne]
  refine and_congr_right fun _ => ?_
  rw [← ProofLog.logEmpty_fst]
  exact ⟨fun hok => (Except.ok.inj hok).symm, fun heq => heq ▸ rfl⟩

/-- A clause that is neither a tautology nor true at the root is left with free literals. -/
theorem remains_of_test (hpair : Literal.hasNeighbourPair (Literal.sortDistinct ls) = false)
    (htest : s.trail.anyTrue (Literal.sortDistinct ls) = .ok false) :
    s.Remains ls ((Literal.sortDistinct ls).filter fun l => !s.trail.isFalse l) where
  subset := by
    intro k hk
    exact Literal.mem_sortDistinct.1 (List.mem_filter.1 hk).1
  covers := by
    intro k hk
    rw [List.mem_filter, Literal.mem_sortDistinct]
    cases s.trail.isFalse k with
    | true => exact Or.inr rfl
    | false => exact Or.inl ⟨hk, rfl⟩
  free := by
    intro k hk
    obtain ⟨hmem, hfalse⟩ := List.mem_filter.1 hk
    obtain ⟨hknown, htrue⟩ := Trail.known_of_anyTrue htest k hmem
    refine ⟨hknown, Bool.eq_false_iff.2 fun hassigned => ?_⟩
    rw [Bool.not_eq_true'] at hfalse
    rcases Trail.isTrue_or_isFalse hassigned with h | h
    · rw [h] at htrue
      cases htrue
    · rw [h] at hfalse
      cases hfalse
  distinct := (Literal.nodup_var_sortDistinct hpair).sublist (List.filter_sublist.map _)

/-- What is left of a clause is taken in by its length. -/
theorem addRemaining_yields (hgo : s.status ≠ .unsatisfiable) (h : s.Remains ls rest) :
    (s.addRemaining rest).Yields fun (next, _) => s.Adds ls next := by
  match rest, h with
  | [], h =>
    refine .bind ⟨_, learnEmpty_eq_ok_iff.2 ⟨hgo, rfl⟩, rfl⟩ ?_
    rintro _ rfl
    exact .pure (.refuted h)
  | [l], h =>
    obtain ⟨hknown, hfree⟩ := h.free l List.mem_cons_self
    refine .bind (assign_yields hknown hfree fun c hc => nomatch hc) fun next hnext => ?_
    exact .pure (.unit h hnext)
  | k₁ :: k₂ :: rest, h => exact .pure (.stored h (by simp))

/-- At the root level a clause can be added if the test for true literals can be made. -/
theorem addClause_yields (hroot : s.currentLevel = 0)
    (htest : s.status ≠ .unsatisfiable →
      ∃ b, s.trail.anyTrue (Literal.sortDistinct ls) = .ok b) :
    (s.addClause ls).Yields fun (next, _) => s.Adds ls next := by
  unfold addClause
  refine .bind (.require (beq_iff_eq.2 hroot)) fun _ _ => ?_
  split
  next hunsat => exact .pure (.refused (beq_iff_eq.1 hunsat))
  next hunsat =>
    obtain ⟨satisfied, htest⟩ := htest fun h => hunsat (beq_iff_eq.2 h)
    refine .bind (.lift htest rfl) ?_
    rintro _ rfl
    split
    next hdrop =>
      refine .pure (.dropped ?_)
      rcases Bool.or_eq_true_iff.1 hdrop with hpair | hsatisfied
      · exact Or.inl (Literal.exists_negate_of_sortDistinct hpair)
      · rw [hsatisfied] at htest
        obtain ⟨l, hl, htrue⟩ := Trail.exists_isTrue_of_anyTrue htest
        exact Or.inr ⟨l, Literal.mem_sortDistinct.1 hl, htrue⟩
    next hkeep =>
      rw [Bool.not_eq_true, Bool.or_eq_false_iff] at hkeep
      obtain ⟨hpair, rfl⟩ := hkeep
      have hgo : s.status ≠ .unsatisfiable := fun h => hunsat (beq_iff_eq.2 h)
      exact addRemaining_yields hgo (remains_of_test hpair htest)

/-- A clause that was added was added at the root level. -/
theorem adds_of_addClause {answer : Except ClauseError (Option ClauseId)}
    (hok : (s.addClause ls).result = .ok (next, answer)) :
    s.currentLevel = 0 ∧ s.Adds ls next := by
  obtain ⟨_, hroot, hrest⟩ := Traced.result_bind_eq_ok_iff.1 hok
  have hroot : s.currentLevel = 0 := beq_iff_eq.1 (Traced.result_require_eq_ok_iff.1 hroot)
  refine ⟨hroot, (addClause_yields hroot fun hunsat => ?_).of_result hok⟩
  have hready : ¬ s.isUnsatisfiable = true := fun h => hunsat (beq_iff_eq.1 h)
  rw [if_neg hready] at hrest
  obtain ⟨satisfied, htest, -⟩ := Traced.result_bind_eq_ok_iff.1 hrest
  exact ⟨satisfied, htest⟩

/-- Over existing variables the test for true literals can be made. -/
theorem exists_anyTrue (hknown : ∀ l ∈ ls, l.var < s.numVariables) :
    ∃ b, s.trail.anyTrue (Literal.sortDistinct ls) = .ok b :=
  ⟨_, Trail.anyTrue_eq_any fun l hl => hknown l (Literal.mem_sortDistinct.1 hl)⟩

end Solver

end ClauseLearning
