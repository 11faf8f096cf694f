import ClauseLearning.Proofs.Search.Unfolding
import ClauseLearning.Proofs.Solver.Derivation

/-!
# What propagation achieves

Propagation assigns literals that stored clauses imply, on the current level and nothing else. In a
grounded solver each of them keeps the solver grounded and what the proof derives, and lower levels
go on to settle what they settled. It ends with a false clause, or with all stored clauses settled
by the current level.
-/

set_option autoImplicit false

namespace ClauseLearning

namespace Solver

variable {s mid next : Solver}

/-- What a part of the search keeps: the solver stays grounded, variables and queue are those from
before, and the proof derives what the solver knows. -/
structure Follows (s next : Solver) : Prop where
  grounded : next.Grounded
  numVariables_eq : next.numVariables = s.numVariables
  queued : ∀ v, v ∈ next.heuristic.queue.toList ↔ v ∈ s.heuristic.queue.toList
  derives : ∀ (start : ProofLog) (F lines : Formula), Derives start F lines s →
    ∃ lines', Derives start F lines' next

/-- A grounded solver follows itself. -/
theorem Follows.refl (h : s.Grounded) : s.Follows s :=
  ⟨h, rfl, fun _ => Iff.rfl, fun _ _ lines hd => ⟨lines, hd⟩⟩

/-- What follows a state that follows another one follows that one. -/
theorem Follows.trans (h : s.Follows mid) (h' : mid.Follows next) : s.Follows next where
  grounded := h'.grounded
  numVariables_eq := h'.numVariables_eq.trans h.numVariables_eq
  queued := fun v => (h'.queued v).trans (h.queued v)
  derives := by
    intro start F lines hd
    obtain ⟨lines', hd'⟩ := h.derives start F lines hd
    exact h'.derives start F lines' hd'

/-- Undoing levels follows. -/
theorem Follows.of_undo (h : s.Grounded) {level : Nat} (hok : s.undo level = .ok next) :
    s.Follows next := by
  have hgrounded := h.undo hok
  have hderives : ∀ (start : ProofLog) (F lines : Formula), Derives start F lines s →
      ∃ lines', Derives start F lines' next :=
    fun _ _ lines hd => ⟨lines, hd.undo h.toCoherent hok⟩
  obtain ⟨-, rfl⟩ := undo_eq_ok hok
  refine ⟨hgrounded, Trail.numVariables_cut _ _, fun v => ?_, hderives⟩
  rw [(h.serves.release h.trail level).2]

/-- The solver after some implied literals were assigned on the current level. Clauses, levels and
status stay, and lower levels settle what they settled. -/
structure Spreads (s next : Solver) : Prop extends Follows s next where
  clauses_eq : next.clauses = s.clauses
  delimiters_eq : next.trail.delimiters = s.trail.delimiters
  status_eq : next.status = s.status
  length_le : s.trail.length ≤ next.trail.length
  trail_eq : next.trail.length = s.trail.length → next.trail = s.trail
  settles : ∀ level < s.currentLevel, ∀ ls, s.trail.Settles level ls → next.trail.Settles level ls

namespace Spreads

/-- Spreading starts with nothing assigned. -/
theorem refl (h : s.Grounded) : s.Spreads s :=
  ⟨.refl h, rfl, rfl, rfl, Nat.le_refl _, fun _ => rfl, fun _ _ _ hs => hs⟩

/-- Spreading opens no level. -/
theorem currentLevel_eq (h : s.Spreads next) : next.currentLevel = s.currentLevel :=
  congrArg List.length h.delimiters_eq

/-- Spreading goes on from where it stopped. -/
theorem trans (h : s.Spreads mid) (h' : mid.Spreads next) : s.Spreads next where
  toFollows := h.toFollows.trans h'.toFollows
  clauses_eq := h'.clauses_eq.trans h.clauses_eq
  delimiters_eq := h'.delimiters_eq.trans h.delimiters_eq
  status_eq := h'.status_eq.trans h.status_eq
  length_le := Nat.le_trans h.length_le h'.length_le
  trail_eq := by
    intro heq
    have hle := h.length_le
    have hle' := h'.length_le
    exact (h'.trail_eq (by omega)).trans (h.trail_eq (by omega))
  settles := by
    intro level hlt ls hs
    exact h'.settles level (h.currentLevel_eq.symm ▸ hlt) ls (h.settles level hlt ls hs)

/-- Assigning one implied literal. -/
theorem of_pushes (h : s.Grounded) {l : Literal} {c : ClauseId}
    (himplies : s.trail.Implies s.clauses l c) (hp : s.Pushes l (some c) next) :
    s.Spreads next := by
  have hgrounded : next.Grounded :=
    h.pushes hp (fun d hd => Option.some.inj hd ▸ himplies) fun hno => (nomatch hno)
  have hderives : ∀ (start : ProofLog) (F lines : Formula), Derives start F lines s →
      ∃ lines', Derives start F lines' next :=
    fun _ _ _ hd => hd.implied h.toCoherent hp himplies
  have hknown := hp.known
  have hfree := hp.free
  obtain ⟨iterating, counters, rfl⟩ := hp.next_eq
  refine ⟨⟨hgrounded, Trail.numVariables_push _ _ _, fun _ => Iff.rfl, hderives⟩, rfl,
    Trail.delimiters_push _ _ _, rfl, ?_, fun heq => ?_, fun level hlt ls hs => ?_⟩
  · show s.trail.length ≤ (s.trail.push l (some c)).length
    rw [Trail.length_push]
    exact Nat.le_succ _
  · have hlength := Trail.length_push s.trail l (some c)
    exact absurd (hlength.symm.trans heq) (Nat.succ_ne_self _)
  · exact hs.push hknown hfree hlt

/-- Assigning implied literals one after the other. -/
theorem of_unfolds (h : s.Grounded) (hunfolds : s.Unfolds next) : s.Spreads next := by
  induction hunfolds with
  | refl => exact .refl h
  | step _ himplies hpushes ih => exact ih.trans (.of_pushes ih.grounded himplies hpushes)

end Spreads

/-- A grounded solver is tidy. -/
theorem Grounded.tidy (h : s.Grounded) : s.Tidy := ⟨h.trail, h.proper⟩

/-- Propagation assigns implied literals and ends with a false clause, or with all stored clauses
settled. -/
theorem propagate_yields (h : s.Grounded) :
    s.propagate.Yields fun (next, conflict) =>
      s.Spreads next ∧ (∀ c, conflict = some c → next.Falsified c) ∧
        (conflict = none → next.SettledAt next.currentLevel) := by
  refine h.tidy.propagate_yields.mono ?_
  rintro ⟨next, conflict⟩ ⟨hunfolds, hends⟩
  exact ⟨.of_unfolds h hunfolds, hends⟩

end Solver

end ClauseLearning
