import ClauseLearning.Proofs.Solver.Guidance

/-!
# The implication graph

The reasons recorded on the trail form a graph: an edge leads from the variable of every other
literal of a reason to the variable that the reason assigned. Edges go up the trail, so that a walk
against them ends, and no reason serves two variables.

The graph is that of a founded solver. An assignment without a reason may be made on any level, as
it adds no edge. An analysis of a false clause adds the edges of the learned clause, whose other
literals are still assigned after the backjump; and an undoing takes the top of the graph away.
-/

set_option autoImplicit false

namespace ClauseLearning

namespace Trail

/-- The reason of a variable has a literal of another variable. -/
def Precedes (t : Trail) (s : ClauseStore) (x y : Variable) : Prop :=
  x ≠ y ∧ ∃ c clause, t.reason y = some c ∧ s.get? c = some clause ∧
    ∃ k ∈ clause.literals, k.var = x

/-- A recorded reason is a stored clause that contains the true literal of its variable; the other
literals are false, and they were assigned earlier, on the same level or a lower one. A reason
belongs to one variable, and following reasons comes to an end. -/
structure ImplicationGraph (t : Trail) (s : ClauseStore) : Prop where
  implied : ∀ x c, t.reason x = some c → ∃ l clause, l.var = x ∧ t.isTrue l = true ∧
    s.get? c = some clause ∧ l ∈ clause.literals ∧ ∀ k ∈ clause.literals, k ≠ l →
      t.isFalse k = true ∧ t.position k.var < t.position x ∧ t.level k.var ≤ t.level x
  unshared : ∀ x y c, t.reason x = some c → t.reason y = some c → x = y
  acyclic : WellFounded (t.Precedes s)

variable {t : Trail} {s : ClauseStore}

namespace Justified

/-- A reason implies its literal by literals that are false before it, on levels that are no
higher. -/
theorem exists_implied (h : t.Justified s) (ht : t.WellFormed) {x : Variable} {c : ClauseId}
    (hr : t.reason x = some c) : ∃ l clause, l.var = x ∧ t.isTrue l = true ∧
      s.get? c = some clause ∧ l ∈ clause.literals ∧ ∀ k ∈ clause.literals, k ≠ l →
        t.isFalse k = true ∧ t.position k.var < t.position x ∧ t.level k.var ≤ t.level x := by
  obtain ⟨l, rfl, hl⟩ := WellFormed.exists_isTrue (ht.isAssigned_of_reason hr)
  obtain ⟨clause, hc, hmem, hrest⟩ := h l c hl hr
  refine ⟨l, clause, rfl, hl, hc, hmem, fun k hk hkl => ?_⟩
  obtain ⟨hfalse, hlt⟩ := hrest k hk hkl
  exact ⟨hfalse, hlt, ht.level_mono (isAssigned_of_isFalse hfalse) (isAssigned_of_isTrue hl)
    (Nat.le_of_lt hlt)⟩

/-- Of two true literals of a clause at most one is implied by it. -/
theorem eq_of_reason_eq (h : t.Justified s) (ht : t.WellFormed) {x y : Variable} {c : ClauseId}
    (hx : t.reason x = some c) (hy : t.reason y = some c) : x = y := by
  obtain ⟨k, clause, rfl, hk, hc, -, hrest⟩ := h.exists_implied ht hx
  obtain ⟨l, clause', rfl, hl, hc', hmem, -⟩ := h.exists_implied ht hy
  obtain rfl : clause = clause' := Option.some.inj (hc.symm.trans hc')
  by_contra hne
  have hfalse := (hrest l hmem fun heq => hne (congrArg Literal.var heq.symm)).1
  rw [isFalse_eq_false_of_isTrue hl] at hfalse
  cases hfalse

/-- What precedes a variable in the implication graph stands before it on the trail. -/
theorem position_lt_of_precedes (h : t.Justified s) (ht : t.WellFormed) {x y : Variable}
    (hxy : t.Precedes s x y) : t.position x < t.position y := by
  obtain ⟨hne, c, clause, hr, hc, k, hk, rfl⟩ := hxy
  obtain ⟨l, clause', rfl, -, hc', -, hrest⟩ := h.exists_implied ht hr
  obtain rfl : clause = clause' := Option.some.inj (hc.symm.trans hc')
  exact (hrest k hk fun heq => hne (congrArg Literal.var heq)).2.1

/-- Justified assignments form an implication graph without cycles. -/
theorem implicationGraph (h : t.Justified s) (ht : t.WellFormed) : t.ImplicationGraph s where
  implied := fun _ _ hr => h.exists_implied ht hr
  unshared := fun _ _ _ hx hy => h.eq_of_reason_eq ht hx hy
  acyclic := Subrelation.wf (h.position_lt_of_precedes ht) (measure t.position).wf

end Justified

end Trail

namespace Solver

variable {s next start : Solver} {ops : List Operation}

/-- The rule that named reasons imply their literals and analysed conflicts are false. Without a
reason any literal may be assigned. -/
def truthful (s : Solver) : Operation → Bool
  | .assign _ none => true
  | op => s.permits op

namespace Founded

/-- A truthful analysis keeps the solver founded. -/
theorem analyse {outcome : Outcome} (h : s.Founded) (hallows : truthful s .analyse = true)
    (hok : s.analyse.result = .ok (next, outcome)) : next.Founded := by
  have hfalse : ∀ c, s.status = .conflict c → s.Falsified c :=
    fun _ hstatus => falsified_of_permits hallows hstatus
  rcases h.of_analyse hfalse hok with rfl | ⟨c, -, hanalyses⟩
  · exact h
  · exact hanalyses.founded h

/-- No operation that the rule allows breaks the foundation. -/
theorem perform (h : s.Founded) {op : Operation} (hallows : truthful s op = true)
    (hok : s.perform op = .ok next) : next.Founded := by
  cases performs_of_perform hok with
  | newVariable => exact h.newVariable
  | addClause _ hadds => exact h.adds hadds
  | decide _ hknown hfree => exact h.decide hknown hfree
  | nextDecision hnext => exact h.congr rfl rfl (h.serves.of_next hnext).1 rfl rfl
  | assign hpushes =>
    refine h.pushes hpushes fun c hc => ?_
    subst hc
    exact Trail.holdsReason_iff.1 (accepts_iff.1 hallows)
  | ignored _ => exact h
  | declared _ _ => exact h.congr rfl rfl h.serves rfl rfl
  | analyse hanalyse => exact h.analyse hallows hanalyse
  | backtrack hundo => exact h.undo hundo
  | @removeFromQueue v _ => exact h.congr rfl rfl (h.serves.remove v).1 rfl rfl
  | iterate => exact h.congr rfl rfl h.serves rfl rfl

end Founded

/-- Along a run under the rule the solver stays founded. -/
theorem Run.founded (h : Run truthful start ops s) (hstart : start.Founded) : s.Founded := by
  induction h with
  | start => exact hstart
  | step _ hallows hok ih => exact ih.perform hallows hok

/-- In every state that truthful operations lead to from a new solver, the reasons form a valid
implication graph without cycles. -/
theorem Run.implications_acyclic {o : Options} {audit : AuditLevel} {proof : ProofLog}
    (hnew : Solver.new o audit proof = .ok start) (hrun : Run truthful start ops s) :
    s.trail.ImplicationGraph s.clauses := by
  obtain rfl := eq_empty_of_new hnew
  have hfounded := hrun.founded (grounded_empty o audit proof).founded
  exact hfounded.justified.implicationGraph hfounded.trail

/-- On the second level a literal is assigned without a reason, and one that it implies leads to a
conflict. The literal is flipped, with the learned clause as its reason; then a level is opened and
undone again. -/
def flippingRun : List Operation :=
  [.newVariable, .newVariable, .newVariable, .newVariable, .addClause [⟨0, false⟩, ⟨1, true⟩],
    .addClause [⟨0, false⟩, ⟨1, false⟩, ⟨2, false⟩], .decide ⟨2, true⟩, .decide ⟨3, true⟩,
    .assign ⟨0, true⟩ none, .assign ⟨1, true⟩ (some 0), .declareConflict 1, .analyse,
    .decide ⟨3, false⟩, .backtrack 1]

/-- After the run the flipped literal has the learned clause as its reason. -/
theorem flippingRun_implications_acyclic : ∃ s,
    runBy truthful (Solver.empty {} .full ⟨none⟩) flippingRun = some s ∧
      s.trail.ImplicationGraph s.clauses ∧ s.trail.entries = [⟨2, true⟩, ⟨0, false⟩] ∧
      s.trail.reason 0 = some 2 := by
  have hnew : Solver.new {} .full ⟨none⟩ = .ok (Solver.empty {} .full ⟨none⟩) := rfl
  have hend : ((runBy truthful (Solver.empty {} .full ⟨none⟩) flippingRun).map fun s =>
      (s.trail.entries, s.trail.reason 0)) =
        some ([⟨2, true⟩, ⟨0, false⟩], some 2) := by decide +kernel
  obtain ⟨s, hrun, hend⟩ := Option.map_eq_some_iff.1 hend
  obtain ⟨hentries, hreason⟩ := Prod.mk.inj hend
  exact ⟨s, hrun, Run.implications_acyclic hnew (Run.start.of_runBy hrun), hentries, hreason⟩

end Solver

end ClauseLearning
