import ClauseLearning.Proofs.Solver.Guidance
import ClauseLearning.Proofs.Trail.Evolution

/-!
# The trail along unrestricted runs

Every operation that succeeds lets the trail evolve, whatever it is given. Most make one step or
none; an analysis makes two, the backjump and the assignment of the literal that it learned. So
along every run the trail represents the assignments, the levels are those of the decisions that
the caller made, and the root level is only ever extended.
-/

set_option autoImplicit false

namespace ClauseLearning

namespace Solver

variable {s next start : Solver} {ops : List Operation} {D : Literal → Prop}

/-- An assignment is an evolution of the trail. -/
theorem Pushes.evolves {l : Literal} {r : Option ClauseId} (h : s.Pushes l r next) :
    s.trail.Evolves D next.trail := by
  obtain ⟨iterating, counters, rfl⟩ := h.next_eq
  exact .push r .refl h.known h.free

/-- Undoing levels is an evolution of the trail. -/
theorem evolves_of_undo {level : Nat} (hok : s.undo level = .ok next) :
    s.trail.Evolves D next.trail := by
  obtain ⟨-, rfl⟩ := undo_eq_ok hok
  exact .cut level .refl

/-- Adding a clause at the root is an evolution of the trail. -/
theorem Adds.evolves {ls : List Literal} (h : s.Adds ls next) : s.trail.Evolves D next.trail := by
  cases h with
  | refused _ => exact .refl
  | dropped _ => exact .refl
  | refuted _ => exact .refl
  | unit _ hp => exact hp.evolves
  | stored _ _ => exact .refl

/-- Learning is an evolution of the trail. -/
theorem evolves_of_learn {c : ClauseId} {learned : Learned}
    (hok : (s.learn c).result = .ok (next, learned)) : s.trail.Evolves D next.trail := by
  obtain ⟨prepared, undone, asserted, bumped, ⟨_, _, _, _, heq⟩, hundo, hpushes, hbump, rfl⟩ :=
    (phases_of_learn hok).jumps
  have hprepared : prepared.trail = s.trail := by rw [heq]
  have hbumped : bumped.clearWorkspace.trail = asserted.trail := by
    obtain ⟨_, _, rfl⟩ := next_of_bumpSeen hbump
    rfl
  rw [← hprepared, hbumped]
  exact (evolves_of_undo hundo).trans hpushes.evolves

/-- An analysis is an evolution of the trail. -/
theorem evolves_of_analyse {outcome : Outcome} (hok : s.analyse.result = .ok (next, outcome)) :
    s.trail.Evolves D next.trail := by
  have hcourse := course_of_analyse hok
  cases hcourse with
  | repeated _ => exact .refl
  | refuted _ _ => exact .refl
  | @learned c mid _ _ _ hlearn =>
    have hevolves : s.trail.Evolves D mid.trail := evolves_of_learn (s := s.countConflict) hlearn
    exact hevolves

/-- What an operation does to the trail; it opens a level for a literal that it decides only. -/
theorem evolves_of_perform {op : Operation} (hok : s.perform op = .ok next) :
    s.trail.Evolves (fun l => op = .decide l) next.trail := by
  cases performs_of_perform hok with
  | newVariable => exact .grow .refl
  | addClause _ hadds => exact hadds.evolves
  | decide _ hknown hfree => exact .decide .refl hknown hfree rfl
  | nextDecision _ => exact .refl
  | assign hpushes => exact hpushes.evolves
  | ignored _ => exact .refl
  | declared _ _ => exact .refl
  | analyse hanalyse => exact evolves_of_analyse hanalyse
  | backtrack hundo => exact evolves_of_undo hundo
  | removeFromQueue _ => exact .refl
  | iterate => exact .refl

/-- Along a run the trail evolves by the decisions among the operations. -/
theorem Run.evolves {allows : Solver → Operation → Bool} (h : Run allows start ops s) :
    start.trail.Evolves (fun l => .decide l ∈ ops) s.trail := by
  induction h with
  | start => exact .refl
  | step _ _ hok ih =>
    refine (ih.mono fun l hl => List.mem_append_left _ hl).trans ?_
    refine (evolves_of_perform hok).mono fun l hl => ?_
    rw [← hl]
    exact List.mem_append_right _ (List.mem_singleton_self _)

/-- In every state that operations lead to from a new solver, the trail represents the assignments,
with the levels opened by decisions; and whatever is done from there on, the root entries stay the
first ones, as they are. -/
theorem Run.trail_represents {o : Options} {audit : AuditLevel} {proof : ProofLog}
    (hnew : Solver.new o audit proof = .ok start) (hrun : Run unrestricted start ops s) :
    s.trail.Represents (fun l => .decide l ∈ ops) ∧
      ∀ further s', Run unrestricted s further s' → s.trail.KeepsRoot s'.trail := by
  obtain rfl := eq_empty_of_new hnew
  have hwell := hrun.evolves.wellFormed Trail.wellFormed_empty
  have hdecided := hrun.evolves.decided Trail.wellFormed_empty fun d hd => nomatch hd
  exact ⟨hwell.represents hdecided, fun _ _ h => h.evolves.keepsRoot hwell⟩

/-- A literal is fixed at the root; a conflict on the second level leads back to the first one,
where the second literal decided is flipped, and then all levels are undone. -/
def returningRun : List Operation :=
  [.newVariable, .newVariable, .newVariable, .newVariable, .assign ⟨3, true⟩ none,
    .addClause [⟨0, false⟩, ⟨1, false⟩, ⟨2, true⟩], .addClause [⟨0, false⟩, ⟨1, false⟩, ⟨2, false⟩],
    .decide ⟨0, true⟩, .decide ⟨1, true⟩, .assign ⟨2, true⟩ (some 0), .declareConflict 1]

/-- The trail represents the assignment before and after the jump to the root. -/
theorem returningRun_trail_represents : ∃ s s',
    runBy unrestricted (Solver.empty {} .full ⟨none⟩) returningRun = some s ∧
      runBy unrestricted s [.analyse, .backtrack 0] = some s' ∧
      s.trail.Represents (fun l => .decide l ∈ returningRun) ∧ s.trail.KeepsRoot s'.trail ∧
      s.trail.entries = [⟨3, true⟩, ⟨0, true⟩, ⟨1, true⟩, ⟨2, true⟩] ∧
      s.trail.delimiters = [1, 2] ∧ s'.trail.entries = [⟨3, true⟩] := by
  have hnew : Solver.new {} .full ⟨none⟩ = .ok (Solver.empty {} .full ⟨none⟩) := rfl
  have hend : ((runBy unrestricted (Solver.empty {} .full ⟨none⟩) returningRun).bind fun s =>
      (runBy unrestricted s [.analyse, .backtrack 0]).map fun s' =>
        (s.trail.entries, s.trail.delimiters, s'.trail.entries)) =
      some ([⟨3, true⟩, ⟨0, true⟩, ⟨1, true⟩, ⟨2, true⟩], [1, 2], [⟨3, true⟩]) := by
    decide +kernel
  obtain ⟨s, hrun, hend⟩ := Option.bind_eq_some_iff.1 hend
  obtain ⟨s', hrun', hend⟩ := Option.map_eq_some_iff.1 hend
  obtain ⟨hentries, hend⟩ := Prod.mk.inj hend
  obtain ⟨hdelimiters, hentries'⟩ := Prod.mk.inj hend
  obtain ⟨hrepresents, hkeeps⟩ := Run.trail_represents hnew (Run.start.of_runBy hrun)
  exact ⟨s, s', hrun, hrun', hrepresents, hkeeps _ s' (Run.start.of_runBy hrun'), hentries,
    hdelimiters, hentries'⟩

end Solver

end ClauseLearning
