import ClauseLearning.Proofs.Solver.Cleanliness

/-!
# Adding a clause keeps its meaning

A solver *admits* the valuations under which the literals that are true at the root and all stored
clauses hold, and none once it knows that there is no model. A clause that is added at the root
restricts the admitted valuations to its own models, on whatever way it is taken in.

Two kinds of clauses are absorbed, as they ask for nothing: those with a literal and its negation,
and those with a true literal. Of any other clause the remainder counts, the distinct literals that
are not false: under an admitted valuation the clause holds exactly if its remainder does. An empty
remainder refutes the formula, a single literal is fixed at the root, and a longer remainder is
stored.
-/

set_option autoImplicit false

namespace ClauseLearning

/-- The look at neighbours finds exactly the clauses with a literal and its negation. -/
theorem Literal.hasNeighbourPair_sortDistinct {ls : List Literal} :
    hasNeighbourPair (sortDistinct ls) = true ↔ ∃ l ∈ ls, l.negate ∈ ls := by
  refine ⟨exists_negate_of_sortDistinct, ?_⟩
  rintro ⟨l, hl, hneg⟩
  by_contra hno
  have hnodup := nodup_var_sortDistinct (Bool.eq_false_iff.2 hno)
  have heq : l = l.negate :=
    List.inj_on_of_nodup_map hnodup (mem_sortDistinct.2 hl) (mem_sortDistinct.2 hneg) rfl
  have hpositive := congrArg Literal.positive heq
  rw [negate_positive] at hpositive
  cases hl : l.positive <;> simp [hl] at hpositive

/-- A clause with a literal and its negation holds under every valuation. -/
theorem satisfies_of_negate_mem {ls : List Literal} (h : ∃ l ∈ ls, l.negate ∈ ls) (σ : Valuation) :
    Satisfies σ ls := by
  obtain ⟨l, hl, hneg⟩ := h
  by_cases hholds : l.Holds σ
  · exact ⟨l, hl, hholds⟩
  · exact ⟨l.negate, hneg, (l.holds_negate_iff σ).2 hholds⟩

/-- A valuation satisfies a clause of one literal exactly if it makes the literal true. -/
theorem satisfies_singleton {l : Literal} {σ : Valuation} : Satisfies σ [l] ↔ l.Holds σ := by
  simp [Satisfies]

namespace Solver

/-- Whether a valuation is a model of what a solver holds: of the literals that are true at the root
and of the stored clauses. There is none if the formula is known to have no model. -/
def Admits (s : Solver) (σ : Valuation) : Prop :=
  s.status ≠ .unsatisfiable ∧ (∀ l, s.trail.IsRootTrue l → l.Holds σ) ∧
    ∀ c clause, s.clauses.get? c = some clause → Satisfies σ clause.literals

/-- Whether a clause asks for nothing, as it holds a literal and its negation or a true literal. -/
def Absorbs (s : Solver) (ls : List Literal) : Prop :=
  (∃ l ∈ ls, l.negate ∈ ls) ∨ ∃ l ∈ ls, s.trail.isTrue l = true

/-- The distinct literals of a clause that are not false, in the order of their codes. -/
def remainder (s : Solver) (ls : List Literal) : List Literal :=
  (Literal.sortDistinct ls).filter fun l => !s.trail.isFalse l

/-- What becomes of a clause that is added at the root level, with what is answered. -/
inductive Takes (s : Solver) (ls : List Literal) :
    Solver → Except ClauseError (Option ClauseId) → Prop where
  | refused : s.status = .unsatisfiable → Takes s ls s (.error .infeasibleState)
  | absorbed : s.status ≠ .unsatisfiable → s.Absorbs ls → Takes s ls s (.ok none)
  | refuted : s.status ≠ .unsatisfiable → ¬ s.Absorbs ls → s.remainder ls = [] →
      Takes s ls { s with proof := (s.proof.logClause []).1, status := .unsatisfiable }
        (.error .infeasibleClause)
  | fixed {l : Literal} {next : Solver} : s.status ≠ .unsatisfiable → ¬ s.Absorbs ls →
      s.remainder ls = [l] → s.Pushes l none next → Takes s ls next (.ok none)
  | stored : s.status ≠ .unsatisfiable → ¬ s.Absorbs ls → 2 ≤ (s.remainder ls).length →
      Takes s ls { s with clauses := s.clauses.insert (.ofFormula (s.remainder ls)) }
        (.ok (some s.clauses.nextId))

variable {s next : Solver} {ls : List Literal} {answer : Except ClauseError (Option ClauseId)}

/-- The remainder of a clause has its literals that are not false. -/
theorem mem_remainder {l : Literal} :
    l ∈ s.remainder ls ↔ l ∈ ls ∧ s.trail.isFalse l = false := by
  unfold remainder
  rw [List.mem_filter, Literal.mem_sortDistinct, Bool.not_eq_true']

/-- The remainder of a clause is sorted and repeats nothing. -/
theorem pairwise_remainder (s : Solver) (ls : List Literal) :
    (s.remainder ls).Pairwise fun a b => a.code < b.code :=
  (Literal.pairwise_sortDistinct ls).sublist List.filter_sublist

/-- What is left of a clause that is not absorbed has no value. -/
theorem free_of_mem_remainder (h : ¬ s.Absorbs ls) {l : Literal} (hl : l ∈ s.remainder ls) :
    s.trail.isAssigned l.var = false := by
  obtain ⟨hmem, hfalse⟩ := mem_remainder.1 hl
  refine Bool.eq_false_iff.2 fun hassigned => ?_
  rcases Trail.isTrue_or_isFalse hassigned with htrue | hno
  · exact h (Or.inr ⟨l, hmem, htrue⟩)
  · rw [hno] at hfalse
    cases hfalse

/-- What is left of a clause that is not absorbed has distinct variables. -/
theorem nodup_var_remainder (h : ¬ s.Absorbs ls) : ((s.remainder ls).map Literal.var).Nodup := by
  have hpair : Literal.hasNeighbourPair (Literal.sortDistinct ls) = false :=
    Bool.eq_false_iff.2 fun hpair => h (Or.inl (Literal.hasNeighbourPair_sortDistinct.1 hpair))
  exact (Literal.nodup_var_sortDistinct hpair).sublist (List.filter_sublist.map _)

/-- A clause has one distinct literal that is not false exactly if one literal is left. -/
theorem remainder_eq_singleton_iff {l : Literal} : s.remainder ls = [l] ↔
    (l ∈ ls ∧ s.trail.isFalse l = false) ∧ ∀ k ∈ ls, s.trail.isFalse k = false → k = l := by
  constructor
  · intro hrest
    refine ⟨mem_remainder.1 (hrest ▸ List.mem_singleton_self l), fun k hk hfalse => ?_⟩
    have hmem := mem_remainder.2 ⟨hk, hfalse⟩
    rw [hrest] at hmem
    exact List.mem_singleton.1 hmem
  · rintro ⟨hl, honly⟩
    have hnodup : (s.remainder ls).Nodup :=
      (pairwise_remainder s ls).imp fun hlt heq => Nat.ne_of_lt hlt (congrArg Literal.code heq)
    refine List.perm_singleton.1 ((List.perm_ext_iff_of_nodup hnodup (List.nodup_singleton l)).2 ?_)
    intro k
    rw [mem_remainder, List.mem_singleton]
    exact ⟨fun hk => honly k hk.1 hk.2, fun heq => heq ▸ hl⟩

/-! ## The ways in which a clause is taken in -/

/-- The test for true literals and the look at neighbours find out whether a clause is absorbed. -/
theorem absorbs_iff {satisfied : Bool} (hknown : ∀ l ∈ ls, l.var < s.numVariables)
    (htest : s.trail.anyTrue (Literal.sortDistinct ls) = .ok satisfied) :
    (Literal.hasNeighbourPair (Literal.sortDistinct ls) || satisfied) = true ↔ s.Absorbs ls := by
  have hany : s.trail.anyTrue (Literal.sortDistinct ls) =
      .ok ((Literal.sortDistinct ls).any s.trail.isTrue) :=
    Trail.anyTrue_eq_any fun l hl => hknown l (Literal.mem_sortDistinct.1 hl)
  obtain rfl := Except.ok.inj (htest.symm.trans hany)
  unfold Absorbs
  rw [Bool.or_eq_true, Literal.hasNeighbourPair_sortDistinct, List.any_eq_true]
  simp only [Literal.mem_sortDistinct]

/-- What is done with the remainder of a clause depends on its length. -/
theorem addRemaining_takes (hgo : s.status ≠ .unsatisfiable) (hno : ¬ s.Absorbs ls)
    (hknown : ∀ l ∈ ls, l.var < s.numVariables) :
    (s.addRemaining (s.remainder ls)).Yields fun (next, answer) => s.Takes ls next answer := by
  match hrest : s.remainder ls with
  | [] =>
    refine .bind ⟨_, learnEmpty_eq_ok_iff.2 ⟨hgo, rfl⟩, rfl⟩ ?_
    rintro _ rfl
    exact .pure (.refuted hgo hno hrest)
  | [l] =>
    have hl : l ∈ s.remainder ls := hrest ▸ List.mem_singleton_self l
    have hassign := assign_yields (r := none) (hknown l (mem_remainder.1 hl).1)
      (free_of_mem_remainder hno hl) fun c hc => nomatch hc
    exact .bind hassign fun next hpushes => .pure (.fixed hgo hno hrest hpushes)
  | k₁ :: k₂ :: rest =>
    have hstored : s.Takes ls { s with clauses := s.clauses.insert (.ofFormula (s.remainder ls)) }
        (.ok (some s.clauses.nextId)) := .stored hgo hno (by simp [hrest])
    rw [hrest] at hstored
    exact .pure hstored

/-- At the root level every clause over existing variables is taken in. -/
theorem addClause_takes (hroot : s.currentLevel = 0)
    (hknown : ∀ l ∈ ls, l.var < s.numVariables) :
    (s.addClause ls).Yields fun (next, answer) => s.Takes ls next answer := by
  unfold addClause
  refine .bind (.require (beq_iff_eq.2 hroot)) fun _ _ => ?_
  split
  next hunsat => exact .pure (.refused (beq_iff_eq.1 hunsat))
  next hunsat =>
    have hgo : s.status ≠ .unsatisfiable := fun h => hunsat (beq_iff_eq.2 h)
    obtain ⟨satisfied, htest⟩ := exists_anyTrue hknown
    refine .bind (.lift htest rfl) ?_
    rintro _ rfl
    split
    next habsorbs => exact .pure (.absorbed hgo ((absorbs_iff hknown htest).1 habsorbs))
    next hkeep =>
      have hno : ¬ s.Absorbs ls := fun h => hkeep ((absorbs_iff hknown htest).2 h)
      exact addRemaining_takes hgo hno hknown

/-! ## The meaning -/

/-- Under an admitted valuation a clause holds exactly if its remainder does, since the literals
that were dropped are false at the root. -/
theorem Admits.satisfies_remainder_iff {σ : Valuation} (h : s.Admits σ) (hs : s.Coherent)
    (hroot : s.currentLevel = 0) : Satisfies σ (s.remainder ls) ↔ Satisfies σ ls := by
  constructor
  · rintro ⟨l, hl, hholds⟩
    exact ⟨l, (mem_remainder.1 hl).1, hholds⟩
  · rintro ⟨l, hl, hholds⟩
    refine ⟨l, mem_remainder.2 ⟨hl, Bool.eq_false_iff.2 fun hfalse => ?_⟩, hholds⟩
    have hnegate : s.trail.IsRootTrue l.negate :=
      Trail.isRootTrue_negate.2 ⟨hfalse, hs.level_eq_zero hroot l.var⟩
    exact (l.holds_negate_iff σ).1 (h.2.1 _ hnegate) hholds

/-- Under an admitted valuation an absorbed clause holds. -/
theorem Admits.satisfies_of_absorbs {σ : Valuation} (h : s.Admits σ) (hs : s.Coherent)
    (hroot : s.currentLevel = 0) (habsorbs : s.Absorbs ls) : Satisfies σ ls := by
  rcases habsorbs with hpair | ⟨l, hl, htrue⟩
  · exact satisfies_of_negate_mem hpair σ
  · exact ⟨l, hl, h.2.1 l ⟨htrue, hs.level_eq_zero hroot l.var⟩⟩

/-- A literal that is fixed at the root restricts the admitted valuations to those under which it
holds. -/
theorem Pushes.admits_iff {l : Literal} {r : Option ClauseId} (hp : s.Pushes l r next)
    (hroot : s.currentLevel = 0) (σ : Valuation) : next.Admits σ ↔ s.Admits σ ∧ l.Holds σ := by
  obtain ⟨iterating, counters, heq⟩ := hp.next_eq
  have hpush : ∀ k, next.trail.IsRootTrue k ↔ k = l ∨ s.trail.IsRootTrue k := by
    intro k
    rw [heq]
    have hlevel : s.trail.currentLevel = 0 := hroot
    refine (Trail.isRootTrue_push hp.known hp.free k).trans ?_
    rw [and_iff_left hlevel]
  unfold Admits
  simp only [hpush, or_imp, forall_and, forall_eq]
  rw [heq]
  exact ⟨fun ⟨hgo, ⟨hl, hold⟩, hclauses⟩ => ⟨⟨hgo, hold, hclauses⟩, hl⟩,
    fun ⟨⟨hgo, hold, hclauses⟩, hl⟩ => ⟨hgo, ⟨hl, hold⟩, hclauses⟩⟩

/-- A clause that is stored restricts the admitted valuations to its models. -/
theorem admits_insert_iff {clause : Clause} (σ : Valuation) :
    ({ s with clauses := s.clauses.insert clause } : Solver).Admits σ ↔
      s.Admits σ ∧ Satisfies σ clause.literals := by
  unfold Admits
  simp only [ClauseStore.get?_insert]
  constructor
  · rintro ⟨hgo, hroot, hclauses⟩
    refine ⟨⟨hgo, hroot, fun c old hc => ?_⟩, ?_⟩
    · refine hclauses c old ?_
      rw [if_neg (Nat.ne_of_lt (ClauseStore.lt_nextId hc))]
      exact hc
    · refine hclauses s.clauses.nextId clause ?_
      rw [if_pos rfl]
  · rintro ⟨⟨hgo, hroot, hclauses⟩, hnew⟩
    refine ⟨hgo, hroot, fun c stored hc => ?_⟩
    split at hc
    next => exact Option.some.inj hc ▸ hnew
    next => exact hclauses c stored hc

/-- However a clause is taken in, the solver then admits what it admitted before and what satisfies
the clause. -/
theorem Takes.admits_iff (h : s.Takes ls next answer) (hs : s.Coherent)
    (hroot : s.currentLevel = 0) (σ : Valuation) :
    next.Admits σ ↔ s.Admits σ ∧ Satisfies σ ls := by
  cases h with
  | refused hunsat => exact ⟨fun h => absurd hunsat h.1, fun h => absurd hunsat h.1.1⟩
  | absorbed _ habsorbs => exact ⟨fun h => ⟨h, h.satisfies_of_absorbs hs hroot habsorbs⟩, And.left⟩
  | refuted _ _ hrest =>
    refine ⟨fun h => absurd rfl h.1, fun ⟨h, hls⟩ => ?_⟩
    obtain ⟨l, hl, -⟩ := (h.satisfies_remainder_iff hs hroot).2 hls
    rw [hrest] at hl
    cases hl
  | fixed _ _ hrest hpushes =>
    rw [hpushes.admits_iff hroot σ, ← satisfies_singleton, ← hrest]
    exact and_congr_right fun h => h.satisfies_remainder_iff hs hroot
  | stored _ _ _ =>
    rw [admits_insert_iff]
    exact and_congr_right fun h => h.satisfies_remainder_iff hs hroot

/-! ## The answer -/

/-- What it means to add a clause at the root, and what the answer tells. The clause is refused, and
nothing changes, exactly if the formula had no model before. Otherwise it is found to be infeasible
exactly if all its literals are false; it is taken in without a name exactly if it is absorbed or
has one distinct literal that is not false, which becomes true at the root without a reason; and in
all other cases it gets a new name, under which its distinct literals that are not false are stored
in the order of their codes: two or more of them, of different free variables. -/
structure Admission (s : Solver) (ls : List Literal) (next : Solver)
    (answer : Except ClauseError (Option ClauseId)) : Prop where
  admits_iff : ∀ σ, next.Admits σ ↔ s.Admits σ ∧ Satisfies σ ls
  refused_iff : answer = .error .infeasibleState ↔ s.status = .unsatisfiable
  unchanged : s.status = .unsatisfiable → next = s
  infeasible_iff : s.status ≠ .unsatisfiable →
    (answer = .error .infeasibleClause ↔ ∀ l ∈ ls, s.trail.isFalse l = true)
  unnamed_iff : s.status ≠ .unsatisfiable →
    (answer = .ok none ↔ s.Absorbs ls ∨ ∃! l, l ∈ ls ∧ s.trail.isFalse l = false)
  fixed : s.status ≠ .unsatisfiable → ¬ s.Absorbs ls →
    ∀ l, (l ∈ ls ∧ s.trail.isFalse l = false) →
      (∀ k ∈ ls, s.trail.isFalse k = false → k = l) →
      next.trail = s.trail.push l none ∧ next.trail.IsRootTrue l ∧ next.trail.reason l.var = none
  named : s.status ≠ .unsatisfiable → (∃ l ∈ ls, s.trail.isFalse l = false) → ¬ s.Absorbs ls →
    (¬ ∃! l, l ∈ ls ∧ s.trail.isFalse l = false) →
    ∃ c clause, answer = .ok (some c) ∧ s.clauses.get? c = none ∧
      next.clauses.get? c = some clause ∧
      (∀ l, l ∈ clause.literals ↔ l ∈ ls ∧ s.trail.isFalse l = false) ∧
      clause.literals.Pairwise (fun a b => a.code < b.code) ∧ 2 ≤ clause.literals.length ∧
      (clause.literals.map Literal.var).Nodup ∧
      ∀ l ∈ clause.literals, s.trail.isAssigned l.var = false

/-- A clause of which every literal is false is not absorbed. -/
theorem not_absorbs_of_isFalse (hfalse : ∀ l ∈ ls, s.trail.isFalse l = true) : ¬ s.Absorbs ls := by
  have hno : ∀ l ∈ ls, s.trail.isTrue l = false := fun l hl => by
    refine Bool.eq_false_iff.2 fun htrue => ?_
    have := hfalse l hl
    rw [Trail.isFalse_eq_false_of_isTrue htrue] at this
    cases this
  rintro (⟨l, hl, hneg⟩ | ⟨l, hl, htrue⟩)
  · have hneg := hfalse _ hneg
    rw [← Trail.isTrue_negate, Literal.negate_negate, hno l hl] at hneg
    cases hneg
  · rw [hno l hl] at htrue
    cases htrue

/-- Nothing is left of a clause exactly if all its literals are false. -/
theorem remainder_eq_nil_iff : s.remainder ls = [] ↔ ∀ l ∈ ls, s.trail.isFalse l = true := by
  rw [List.eq_nil_iff_forall_not_mem]
  refine forall_congr' fun l => ?_
  rw [mem_remainder, not_and, Bool.not_eq_false]

/-- Exactly one literal of a clause is not false if the remainder is that literal. -/
theorem existsUnique_iff : (∃! l, l ∈ ls ∧ s.trail.isFalse l = false) ↔
    ∃ l, s.remainder ls = [l] := by
  refine exists_congr fun l => ?_
  rw [remainder_eq_singleton_iff]
  refine and_congr_right fun _ => ?_
  exact ⟨fun h k hk hfalse => h k ⟨hk, hfalse⟩, fun h k hk => h k hk.1 hk.2⟩

namespace Takes

/-- A clause is refused exactly if the formula was known to have no model. -/
theorem refused_iff (h : s.Takes ls next answer) :
    answer = .error .infeasibleState ↔ s.status = .unsatisfiable := by
  cases h with
  | refused hunsat => exact iff_of_true rfl hunsat
  | absorbed hgo _ => exact iff_of_false nofun hgo
  | refuted hgo _ _ => exact iff_of_false nofun hgo
  | fixed hgo _ _ _ => exact iff_of_false nofun hgo
  | stored hgo _ _ => exact iff_of_false nofun hgo

/-- A refused clause leaves the solver as it was. -/
theorem eq_of_refused (h : s.Takes ls next answer) (hunsat : s.status = .unsatisfiable) :
    next = s := by
  cases h with
  | refused _ => rfl
  | absorbed hgo _ => exact absurd hunsat hgo
  | refuted hgo _ _ => exact absurd hunsat hgo
  | fixed hgo _ _ _ => exact absurd hunsat hgo
  | stored hgo _ _ => exact absurd hunsat hgo

/-- A clause is infeasible exactly if none of its literals is left. -/
theorem infeasible_iff (h : s.Takes ls next answer) (hgo : s.status ≠ .unsatisfiable) :
    answer = .error .infeasibleClause ↔ s.remainder ls = [] := by
  cases h with
  | refused hunsat => exact absurd hunsat hgo
  | absorbed _ habsorbs =>
    refine iff_of_false nofun fun hrest => ?_
    exact not_absorbs_of_isFalse (remainder_eq_nil_iff.1 hrest) habsorbs
  | refuted _ _ hrest => exact iff_of_true rfl hrest
  | fixed _ _ hrest _ => exact iff_of_false nofun (by simp [hrest])
  | stored _ _ hlong =>
    refine iff_of_false nofun fun hrest => ?_
    rw [hrest] at hlong
    simp at hlong

/-- A clause gets no name exactly if it is absorbed or one literal is left. -/
theorem unnamed_iff (h : s.Takes ls next answer) (hgo : s.status ≠ .unsatisfiable) :
    answer = .ok none ↔ s.Absorbs ls ∨ ∃ l, s.remainder ls = [l] := by
  cases h with
  | refused hunsat => exact absurd hunsat hgo
  | absorbed _ habsorbs => exact iff_of_true rfl (Or.inl habsorbs)
  | refuted _ hno hrest => exact iff_of_false nofun (by simp [hno, hrest])
  | @fixed l _ _ _ hrest _ => exact iff_of_true rfl (Or.inr ⟨l, hrest⟩)
  | stored _ hno hlong =>
    refine iff_of_false nofun ?_
    rintro (habsorbs | ⟨l, hrest⟩)
    · exact hno habsorbs
    · rw [hrest] at hlong
      simp at hlong

/-- The one literal that is left of a clause is put on the trail without a reason. -/
theorem trail_of_fixed (h : s.Takes ls next answer) (hgo : s.status ≠ .unsatisfiable)
    (hno : ¬ s.Absorbs ls) {l : Literal} (hrest : s.remainder ls = [l]) : s.Pushes l none next := by
  cases h with
  | refused hunsat => exact absurd hunsat hgo
  | absorbed _ habsorbs => exact absurd habsorbs hno
  | refuted _ _ hnil => cases hnil.symm.trans hrest
  | fixed _ _ hrest' hpushes =>
    obtain rfl := List.singleton_inj.1 (hrest'.symm.trans hrest)
    exact hpushes
  | stored _ _ hlong =>
    rw [hrest] at hlong
    simp at hlong

/-- Two literals or more that are left of a clause are stored under the next name. -/
theorem stored_of_long (h : s.Takes ls next answer) (hgo : s.status ≠ .unsatisfiable)
    (hno : ¬ s.Absorbs ls) (hlong : 2 ≤ (s.remainder ls).length) :
    answer = .ok (some s.clauses.nextId) ∧
      next.clauses = s.clauses.insert (.ofFormula (s.remainder ls)) := by
  cases h with
  | refused hunsat => exact absurd hunsat hgo
  | absorbed _ habsorbs => exact absurd habsorbs hno
  | refuted _ _ hrest =>
    rw [hrest] at hlong
    simp at hlong
  | fixed _ _ hrest _ =>
    rw [hrest] at hlong
    simp at hlong
  | stored _ _ _ => exact ⟨rfl, rfl⟩

end Takes

/-- However a clause is taken in, it is admitted. -/
theorem Takes.admission (h : s.Takes ls next answer) (hs : s.Coherent)
    (hroot : s.currentLevel = 0) : s.Admission ls next answer where
  admits_iff := h.admits_iff hs hroot
  refused_iff := h.refused_iff
  unchanged := h.eq_of_refused
  infeasible_iff hgo := (h.infeasible_iff hgo).trans remainder_eq_nil_iff
  unnamed_iff hgo := by
    rw [existsUnique_iff]
    exact h.unnamed_iff hgo
  fixed := by
    intro hgo hno l hl honly
    have hp := h.trail_of_fixed hgo hno (remainder_eq_singleton_iff.2 ⟨hl, honly⟩)
    have htrail : next.trail = s.trail.push l none := by
      obtain ⟨iterating, counters, rfl⟩ := hp.next_eq
      rfl
    refine ⟨htrail, ?_, ?_⟩
    · rw [htrail, Trail.isRootTrue_push hp.known hp.free]
      exact Or.inl ⟨rfl, hroot⟩
    · unfold Trail.reason
      rw [htrail, Trail.cell_push none hp.known, if_pos rfl]
  named := by
    rintro hgo ⟨k, hk, hfalse⟩ hno hmany
    rw [existsUnique_iff] at hmany
    have hlong : 2 ≤ (s.remainder ls).length := by
      -- a remainder without a literal or with one only is excluded
      match hrest : s.remainder ls with
      | [] => exact absurd (hrest ▸ mem_remainder.2 ⟨hk, hfalse⟩) List.not_mem_nil
      | [l] => exact absurd ⟨l, hrest⟩ hmany
      | _ :: _ :: _ => simp
    obtain ⟨hanswer, hclauses⟩ := h.stored_of_long hgo hno hlong
    refine ⟨_, .ofFormula (s.remainder ls), hanswer, ?_, ?_, fun l => mem_remainder,
      pairwise_remainder s ls, hlong, nodup_var_remainder hno,
      fun l hl => free_of_mem_remainder hno hl⟩
    · by_contra hsome
      obtain ⟨clause, hclause⟩ := Option.ne_none_iff_exists'.1 hsome
      exact Nat.lt_irrefl _ (ClauseStore.lt_nextId hclause)
    · rw [hclauses, ClauseStore.get?_insert, if_pos rfl]

/-- In every state at the root level that operations lead to from a new solver, a clause over
existing variables is added according to its meaning and its remainder. -/
theorem Run.addClause_admission {o : Options} {audit : AuditLevel} {proof : ProofLog}
    {start : Solver} {ops : List Operation} (hnew : Solver.new o audit proof = .ok start)
    (hrun : Run unrestricted start ops s) (hroot : s.currentLevel = 0)
    (hknown : ∀ l ∈ ls, l.var < s.numVariables) :
    ∃ next answer, (s.addClause ls).result = .ok (next, answer) ∧ s.Admission ls next answer := by
  obtain rfl := eq_empty_of_new hnew
  have hs := hrun.coherent (grounded_empty o audit proof).toCoherent
  obtain ⟨⟨next, answer⟩, hok, htakes⟩ := addClause_takes hroot hknown
  exact ⟨next, answer, hok, htakes.admission hs hroot⟩

/-- Four variables, a clause of two literals and a unit clause that makes the first of them true. -/
def rootRun : List Operation :=
  [.newVariable, .newVariable, .newVariable, .newVariable, .addClause [⟨0, true⟩, ⟨3, true⟩],
    .addClause [⟨0, true⟩, ⟨0, true⟩]]

/-- A clause with a repeated literal, and with one that is false after that. -/
def redundantClause : List Literal := [⟨2, true⟩, ⟨0, false⟩, ⟨1, false⟩, ⟨2, true⟩]

/-- The clause is simplified and stored as the second one. -/
theorem rootRun_addClause_admission : ∃ s,
    runBy unrestricted (Solver.empty {} .full ⟨none⟩) rootRun = some s ∧
      ∃ next answer, (s.addClause redundantClause).result = .ok (next, answer) ∧
        s.Admission redundantClause next answer ∧ answer = .ok (some 1) := by
  have hnew : Solver.new {} .full ⟨none⟩ = .ok (Solver.empty {} .full ⟨none⟩) := rfl
  have hend : ((runBy unrestricted (Solver.empty {} .full ⟨none⟩) rootRun).map fun s =>
      (s.currentLevel, s.numVariables, (s.addClause redundantClause).result.toOption.map fun p =>
        p.2.toOption)) = some (0, 4, some (some (some 1))) := by decide +kernel
  obtain ⟨s, hrun, hend⟩ := Option.map_eq_some_iff.1 hend
  obtain ⟨hroot, hend⟩ := Prod.mk.inj hend
  obtain ⟨hnum, hend⟩ := Prod.mk.inj hend
  have hknown : ∀ l ∈ redundantClause, l.var < s.numVariables := by
    rw [hnum]
    decide
  obtain ⟨next, answer, hok, hadmission⟩ :=
    Run.addClause_admission hnew (Run.start.of_runBy hrun) hroot hknown
  rw [hok] at hend
  have hanswer : answer.toOption = some (some 1) := Option.some.inj hend
  refine ⟨s, hrun, next, answer, hok, hadmission, ?_⟩
  cases answer with
  | error e => cases hanswer
  | ok c => exact congrArg Except.ok (Option.some.inj hanswer)

end Solver

end ClauseLearning
