import ClauseLearning.Proofs.ProofText
import ClauseLearning.Proofs.Solver.Conflict

/-!
# What the proof log derives

Along with the clauses given to a solver goes the list of the clauses that it logged. The literals
fixed at the root are among the latter; every stored clause is, up to literals false at the root, a
clause of the formula or a logged one; and every clause of the formula is a tautology, true at the
root, or contains a stored clause. Each operation adds at most one line to the log, and the line
follows by reverse unit propagation from the clauses given and the lines before it.
-/

set_option autoImplicit false

namespace ClauseLearning

namespace ProofLog

/-- Log clauses one after the other. -/
def logAll (p : ProofLog) (lines : Formula) : ProofLog :=
  lines.foldl (fun p ls => (p.logClause ls).1) p

/-- Lines are logged one after the other. -/
theorem logAll_append (p : ProofLog) (lines lines' : Formula) :
    p.logAll (lines ++ lines') = (p.logAll lines).logAll lines' := List.foldl_append

/-- A writer with unlimited room takes all lines. -/
theorem writer_logAll {p : ProofLog} {w : Writer} (hw : p.writer = some w) (hroom : w.room = none)
    (lines : Formula) :
    (p.logAll lines).writer = some { w with written := w.written ++ lines.flatMap line } := by
  induction lines generalizing p w with
  | nil =>
    rw [List.flatMap_nil, List.append_nil]
    exact hw
  | cons ls lines ih =>
    have hwrite : (p.logClause ls).1.writer = some { w with written := w.written ++ line ls } := by
      unfold logClause
      rw [hw]
      show some (w.write (line ls)) = _
      unfold Writer.write Writer.fitting
      rw [hroom]
      rfl
    have hrest := ih hwrite hroom
    rw [List.flatMap_cons, ← List.append_assoc]
    exact hrest

/-- A writer with unlimited room takes every line. -/
theorem text_logAll {w : Writer} (hroom : w.room = none) (lines : Formula) :
    ((⟨some w⟩ : ProofLog).logAll lines).text =
      some (String.ofList (w.written ++ lines.flatMap line)) := by
  unfold text
  rw [writer_logAll rfl hroom]
  rfl

/-- The lines that were logged are read off the text. -/
theorem lines_of_text {w : Writer} (hroom : w.room = none) {lines lines' : Formula}
    (htext : ((⟨some w⟩ : ProofLog).logAll lines).text =
      some (String.ofList (w.written ++ lines'.flatMap line))) : lines' = lines := by
  rw [text_logAll hroom] at htext
  have hchars := String.ofList_injective (Option.some.inj htext)
  exact lines_injective (List.append_cancel_left hchars).symm

end ProofLog

namespace Trail

/-- Whether a literal is true at the root level. -/
def IsRootTrue (t : Trail) (l : Literal) : Prop := t.isTrue l = true ∧ t.level l.var = 0

/-- A negation is true at the root exactly if the literal is false there. -/
theorem isRootTrue_negate {t : Trail} {l : Literal} :
    t.IsRootTrue l.negate ↔ t.IsRootFalse l := by
  unfold IsRootTrue IsRootFalse
  rw [isTrue_negate, Literal.negate_var]

/-- A literal put on the trail is true at the root if no level was opened. -/
theorem isRootTrue_push {t : Trail} {l : Literal} {r : Option ClauseId}
    (hl : l.var < t.numVariables) (hfree : t.isAssigned l.var = false) (k : Literal) :
    (t.push l r).IsRootTrue k ↔ (k = l ∧ t.currentLevel = 0) ∨ t.IsRootTrue k := by
  unfold IsRootTrue
  rw [isTrue_push hl hfree, level_push hl]
  by_cases hvar : l.var = k.var
  · have hnot : t.isTrue k = true ↔ False := by
      rw [iff_false]
      intro hk
      rw [hvar, isAssigned_of_isTrue hk] at hfree
      cases hfree
    simp [hvar, hnot]
  · have hne : k ≠ l := fun heq => hvar (heq ▸ rfl)
    simp [hvar, hne]

/-- Backtracking keeps the literals of the root level. -/
theorem WellFormed.isRootTrue_cut {t : Trail} (ht : t.WellFormed) (level : Nat) (l : Literal) :
    (t.cut level).IsRootTrue l ↔ t.IsRootTrue l := by
  unfold IsRootTrue
  rw [ht.isTrue_cut, ht.level_cut]
  constructor
  · rintro ⟨⟨htrue, hle⟩, hzero⟩
    rw [if_pos hle] at hzero
    exact ⟨htrue, hzero⟩
  · rintro ⟨htrue, hzero⟩
    have hle : t.level l.var ≤ level := hzero ▸ Nat.zero_le _
    rw [if_pos hle]
    exact ⟨⟨htrue, hle⟩, hzero⟩

end Trail

/-- A formula with more clauses backs the same assignments and clauses, and also further ones that
it contains. -/
theorem Formula.Backs.extend {G G' : Formula} {t t' : Trail} {s s' : ClauseStore}
    (h : G.Backs t s) (hsub : G ⊆ G')
    (hkept : ∀ l, t.IsRootTrue l → t'.IsRootTrue l)
    (hunit : ∀ l, t'.IsRootTrue l → t.IsRootTrue l ∨ [l] ∈ G')
    (hclause : ∀ c clause, s'.get? c = some clause →
      (∃ old, s.get? c = some old ∧ old.literals = clause.literals) ∨
        ∃ ls ∈ G', clause.literals ⊆ ls ∧ ∀ k ∈ ls, k ∈ clause.literals ∨ t'.IsRootFalse k) :
    G'.Backs t' s' where
  unit := by
    intro l hl hlevel
    rcases hunit l ⟨hl, hlevel⟩ with hold | hnew
    · exact hsub (h.unit l hold.1 hold.2)
    · exact hnew
  clause := by
    intro c clause hc
    rcases hclause c clause hc with ⟨old, hold, heq⟩ | hnew
    · obtain ⟨ls, hls, hsubset, hcover⟩ := h.clause c old hold
      refine ⟨ls, hsub hls, heq ▸ hsubset, fun k hk => ?_⟩
      rw [← heq]
      refine (hcover k hk).imp_right fun hroot => ?_
      exact Trail.isRootTrue_negate.1 (hkept _ (Trail.isRootTrue_negate.2 hroot))
    · exact hnew

/-- More clauses back as much. -/
theorem Formula.Backs.mono {F F' lines : Formula} {t : Trail} {s : ClauseStore}
    (h : (F ++ lines).Backs t s) (hsub : F ⊆ F') : (F' ++ lines).Backs t s := by
  refine h.extend (fun x hx => ?_) (fun _ hl => hl) (fun _ hl => Or.inl hl)
    fun c clause hc => Or.inl ⟨clause, hc, rfl⟩
  rcases List.mem_append.1 hx with hx | hx
  · exact List.mem_append_left _ (hsub hx)
  · exact List.mem_append_right _ hx

namespace Solver

/-- What the solver keeps of a clause of the formula: it is a tautology, true at the root, or
contains a stored clause. -/
def Retains (s : Solver) (ls : List Literal) : Prop :=
  (∃ l ∈ ls, l.negate ∈ ls) ∨ (∃ l ∈ ls, s.trail.IsRootTrue l) ∨
    ∃ c clause, s.clauses.get? c = some clause ∧ clause.literals ⊆ ls

/-- What is retained stays so while the root grows and clauses are kept. -/
theorem Retains.mono {s s' : Solver} {ls : List Literal} (h : s.Retains ls)
    (hroot : ∀ l, s.trail.IsRootTrue l → s'.trail.IsRootTrue l)
    (hclauses : s.clauses.KeptIn s'.clauses) : s'.Retains ls := by
  rcases h with htautology | ⟨l, hl, htrue⟩ | ⟨c, clause, hc, hsub⟩
  · exact Or.inl htautology
  · exact Or.inr (Or.inl ⟨l, hl, hroot l htrue⟩)
  · obtain ⟨clause', hc', heq⟩ := hclauses c clause hc
    exact Or.inr (Or.inr ⟨c, clause', hc', heq ▸ hsub⟩)

/-- The lines logged after a proof was started derive from the formula what the solver knows: they
back its assignments and clauses, and the empty clause is among them once there is no model. Until
then nothing of the formula is lost. -/
structure Derives (start : ProofLog) (F lines : Formula) (s : Solver) : Prop where
  derivation : Derivation F lines
  backs : (F ++ lines).Backs s.trail s.clauses
  refuted : s.status = .unsatisfiable → [] ∈ lines
  retains : s.status ≠ .unsatisfiable → ∀ ls ∈ F, s.Retains ls
  logged : s.proof = start.logAll lines

namespace Derives

variable {start : ProofLog} {F lines : Formula} {s next : Solver}

/-- A new solver has derived nothing and knows nothing. -/
theorem empty (o : Options) (audit : AuditLevel) (proof : ProofLog) :
    Derives proof [] [] (Solver.empty o audit proof) where
  derivation := Derivation.nil _
  backs := by
    refine ⟨fun l hl => ?_, fun c clause hc => ?_⟩
    · cases hl
    · rw [get?_clauses_empty] at hc
      cases hc
  refuted := fun h => nomatch h
  retains := fun _ ls hls => absurd hls List.not_mem_nil
  logged := rfl

/-- The formula may grow, and lines may be logged that follow by reverse unit propagation, if they
account for what is fixed at the root and stored from now on. -/
theorem advance (h : Derives start F lines s) {F' new : Formula} (hF : F ⊆ F')
    (hderivation : Derivation F' (lines ++ new))
    (hkept : ∀ l, s.trail.IsRootTrue l → next.trail.IsRootTrue l)
    (hunit : ∀ l, next.trail.IsRootTrue l → s.trail.IsRootTrue l ∨ [l] ∈ new)
    (hclauses : s.clauses.KeptIn next.clauses)
    (hclause : ∀ c clause, next.clauses.get? c = some clause →
      (∃ old, s.clauses.get? c = some old ∧ old.literals = clause.literals) ∨
        ∃ ls ∈ F' ++ (lines ++ new), clause.literals ⊆ ls ∧
          ∀ k ∈ ls, k ∈ clause.literals ∨ next.trail.IsRootFalse k)
    (hstatus : next.status = .unsatisfiable → s.status = .unsatisfiable ∨ [] ∈ new)
    (hready : next.status ≠ .unsatisfiable → s.status ≠ .unsatisfiable ∧
      ∀ ls ∈ F', ls ∈ F ∨ next.Retains ls)
    (hproof : next.proof = s.proof.logAll new) : Derives start F' (lines ++ new) next where
  derivation := hderivation
  backs := by
    refine h.backs.extend (fun x hx => ?_) hkept (fun l hl => ?_) hclause
    · rcases List.mem_append.1 hx with hx | hx
      · exact List.mem_append_left _ (hF hx)
      · exact List.mem_append_right _ (List.mem_append_left _ hx)
    · exact (hunit l hl).imp_right fun hmem =>
        List.mem_append_right _ (List.mem_append_right _ hmem)
  refuted := by
    intro hunsat
    rcases hstatus hunsat with hold | hnew
    · exact List.mem_append_left _ (h.refuted hold)
    · exact List.mem_append_right _ hnew
  retains := by
    intro hnext ls hls
    obtain ⟨hready, hcover⟩ := hready hnext
    rcases hcover ls hls with hold | hnew
    · exact (h.retains hready ls hold).mono hkept hclauses
    · exact hnew
  logged := by
    rw [hproof, h.logged, ProofLog.logAll_append]

/-- What an operation does above the root level changes nothing of the derivation. -/
theorem keep (h : Derives start F lines s)
    (hroot : ∀ l, next.trail.IsRootTrue l ↔ s.trail.IsRootTrue l)
    (hclauses : next.clauses = s.clauses) (hproof : next.proof = s.proof)
    (hstatus : next.status = .unsatisfiable ↔ s.status = .unsatisfiable) :
    Derives start F lines next := by
  have hnil : lines ++ [] = lines := List.append_nil _
  rw [← hnil]
  refine h.advance (fun _ hx => hx) (hnil.symm ▸ h.derivation) (fun l => (hroot l).2)
    (fun l hl => Or.inl ((hroot l).1 hl)) ?_ (fun c clause hc => Or.inl ⟨clause, ?_, rfl⟩)
    (fun hunsat => Or.inl (hstatus.1 hunsat)) (fun hready => ⟨fun hunsat => ?_, fun ls => Or.inl⟩)
    hproof
  · rw [hclauses]
    exact ClauseStore.KeptIn.refl _
  · rw [← hclauses]
    exact hc
  · exact hready (hstatus.2 hunsat)

/-- A clause is added to the formula, of which nothing is lost. -/
theorem axiomatise (h : Derives start F lines s) {ls : List Literal}
    (hls : s.status ≠ .unsatisfiable → s.Retains ls) : Derives start (F ++ [ls]) lines s := by
  have hnil : lines ++ [] = lines := List.append_nil _
  have hsub : F ⊆ F ++ [ls] := List.subset_append_left _ _
  rw [← hnil]
  refine h.advance hsub (hnil.symm ▸ h.derivation.mono hsub) (fun _ hl => hl)
    (fun _ hl => Or.inl hl) (ClauseStore.KeptIn.refl _)
    (fun c clause hc => Or.inl ⟨clause, hc, rfl⟩) Or.inl (fun hready => ⟨hready, fun x hx => ?_⟩)
    rfl
  refine (List.mem_append.1 hx).imp_right fun hx => ?_
  exact List.mem_singleton.1 hx ▸ hls hready

/-- A literal is fixed at the root and logged, if it follows by reverse unit propagation. -/
theorem fix (h : Derives start F lines s) (hlevel : s.currentLevel = 0)
    {l : Literal} {r : Option ClauseId} (hp : s.Pushes l r next) {F' : Formula} (hF : F ⊆ F')
    (hnew : ∀ ls ∈ F', ls ∈ F ∨ l ∈ ls) (hrup : Rup (F' ++ lines) [l]) :
    Derives start F' (lines ++ [[l]]) next := by
  obtain ⟨iterating, counters, rfl⟩ := hp.next_eq
  have hcurrent : s.trail.currentLevel = 0 := hlevel
  have hroot : ∀ k, (s.trail.push l r).IsRootTrue k ↔ k = l ∨ s.trail.IsRootTrue k := by
    intro k
    rw [Trail.isRootTrue_push hp.known hp.free, and_iff_left hcurrent]
  refine h.advance hF ((h.derivation.mono hF).snoc hrup) (fun k hk => (hroot k).2 (Or.inr hk))
    (fun k hk => ?_) (ClauseStore.KeptIn.refl _) (fun c clause hc => Or.inl ⟨clause, hc, rfl⟩)
    Or.inl (fun hready => ⟨hready, fun ls hls => ?_⟩) ?_
  · refine ((hroot k).1 hk).symm.imp_right ?_
    rintro rfl
    exact List.mem_singleton_self _
  · refine (hnew ls hls).imp_right fun hl => ?_
    exact Or.inr (Or.inl ⟨l, hl, (hroot l).2 (Or.inl rfl)⟩)
  · show (if s.currentLevel = 0 then _ else _) = _
    rw [if_pos hlevel]
    rfl

/-- At the root level all assignments are of the root. -/
theorem isRootFalse (hs : s.Coherent) (hlevel : s.currentLevel = 0) {l : Literal}
    (hl : s.trail.isFalse l = true) : s.trail.IsRootFalse l := ⟨hl, hs.level_eq_zero hlevel l.var⟩

/-- A false clause at the root level refutes the formula. -/
theorem refute (h : Derives start F lines s) (hs : s.Coherent) (hlevel : s.currentLevel = 0)
    {F' : Formula} (hF : F ⊆ F') {ls : List Literal} (hls : ls ∈ F' ++ lines)
    (hfalse : ∀ l ∈ ls, s.trail.isFalse l = true) {counters : Counters} :
    Derives start F' (lines ++ [[]])
      { s with
        proof := (s.proof.logClause []).1, status := .unsatisfiable, counters := counters } := by
  have hrup : Rup (F' ++ lines) [] :=
    (h.backs.mono hF).rup_of_root hls fun k hk => Or.inr (isRootFalse hs hlevel (hfalse k hk))
  exact h.advance hF ((h.derivation.mono hF).snoc hrup) (fun _ hl => hl) (fun _ hl => Or.inl hl)
    (ClauseStore.KeptIn.refl _) (fun c clause hc => Or.inl ⟨clause, hc, rfl⟩)
    (fun _ => Or.inr (List.mem_singleton_self _)) (fun hready => absurd rfl hready) rfl

/-- A new variable changes nothing that is known. -/
theorem newVariable (h : Derives start F lines s) : Derives start F lines s.newVariable := by
  refine h.keep (fun l => ?_) rfl rfl Iff.rfl
  show s.trail.grow.IsRootTrue l ↔ _
  unfold Trail.IsRootTrue
  rw [Trail.isTrue_grow, Trail.level_grow]

/-- A decision is not logged. -/
theorem decide (h : Derives start F lines s) {l : Literal} (hknown : l.var < s.numVariables)
    (hfree : s.trail.isAssigned l.var = false) :
    Derives start F lines (s.withTrail (s.trail.openLevel.push l none)) := by
  refine h.keep (fun k => ?_) rfl rfl Iff.rfl
  show (s.trail.openLevel.push l none).IsRootTrue k ↔ _
  rw [Trail.isRootTrue_push (t := s.trail.openLevel) hknown hfree, Trail.currentLevel_openLevel]
  simp only [Nat.add_eq_zero_iff, Nat.one_ne_zero, and_false, false_or]
  exact Iff.rfl

/-- Undoing levels loses nothing that was derived. -/
theorem undo (h : Derives start F lines s) (hs : s.Coherent) {level : Nat}
    (hok : s.undo level = .ok next) : Derives start F lines next := by
  obtain ⟨-, rfl⟩ := undo_eq_ok hok
  exact h.keep (hs.trail.isRootTrue_cut level) rfl rfl Iff.rfl

/-- A literal that a stored clause implies is logged if it is fixed at the root. -/
theorem implied (h : Derives start F lines s) (hs : s.Coherent) {l : Literal} {c : ClauseId}
    (hp : s.Pushes l (some c) next) (himplies : s.trail.Implies s.clauses l c) :
    ∃ lines', Derives start F lines' next := by
  by_cases hlevel : s.currentLevel = 0
  · obtain ⟨clause, hc, -, hrest⟩ := himplies
    obtain ⟨ls, hls, -, hcover⟩ := h.backs.clause c clause hc
    refine ⟨_, h.fix hlevel hp (fun _ hx => hx) (fun ls hls => Or.inl hls) ?_⟩
    refine h.backs.rup_of_root hls fun k hk => ?_
    rcases hcover k hk with hk | hroot
    · by_cases hkl : k = l
      · exact Or.inl (hkl ▸ List.mem_singleton_self k)
      · exact Or.inr (isRootFalse hs hlevel (hrest k hk hkl))
    · exact Or.inr hroot
  · obtain ⟨iterating, counters, rfl⟩ := hp.next_eq
    refine ⟨lines, h.keep (fun k => ?_) rfl (if_neg hlevel) Iff.rfl⟩
    show (s.trail.push l (some c)).IsRootTrue k ↔ _
    have hcurrent : ¬ s.trail.currentLevel = 0 := hlevel
    rw [Trail.isRootTrue_push hp.known hp.free]
    simp only [hcurrent, and_false, false_or]

/-- An axiom that is fixed at the root is logged. -/
theorem assumed (h : Derives start F lines s) (hlevel : s.currentLevel = 0)
    {l : Literal} (hp : s.Pushes l none next) :
    Derives start (F ++ [[l]]) (lines ++ [[l]]) next := by
  refine h.fix hlevel hp (List.subset_append_left _ _) (fun ls hls => ?_) ?_
  · refine (List.mem_append.1 hls).imp_right fun hls => ?_
    exact List.mem_singleton.1 hls ▸ List.mem_singleton_self l
  · refine ⟨[l], ?_, fun k hk => .assumption (List.mem_map_of_mem hk)⟩
    exact List.mem_append_left _ (List.mem_append_right _ (List.mem_singleton_self _))

/-- A clause is added to the formula, whatever becomes of it. -/
theorem adds (h : Derives start F lines s) (hs : s.Coherent) (hlevel : s.currentLevel = 0)
    {ls : List Literal} (ha : s.Adds ls next) :
    ∃ lines', Derives start (F ++ [ls]) lines' next := by
  have hsub : F ⊆ F ++ [ls] := List.subset_append_left _ _
  have hmem : ls ∈ F ++ [ls] := List.mem_append_right _ (List.mem_singleton_self ls)
  cases ha with
  | refused hunsat => exact ⟨lines, h.axiomatise fun hready => absurd hunsat hready⟩
  | dropped hdrop =>
    refine ⟨lines, h.axiomatise fun _ => hdrop.imp_right fun ⟨l, hl, htrue⟩ => Or.inl ?_⟩
    exact ⟨l, hl, htrue, hs.level_eq_zero hlevel l.var⟩
  | refuted hrest =>
    refine ⟨_, h.refute hs hlevel hsub (List.mem_append_left _ hmem) fun l hl => ?_⟩
    exact (hrest.covers l hl).resolve_left List.not_mem_nil
  | @unit l _ hrest hp =>
    refine ⟨_, h.fix hlevel hp hsub (fun x hx => ?_) ?_⟩
    · refine (List.mem_append.1 hx).imp_right fun hx => ?_
      exact List.mem_singleton.1 hx ▸ hrest.subset (List.mem_singleton_self l)
    · refine (h.backs.mono hsub).rup_of_root (List.mem_append_left _ hmem) fun k hk => ?_
      exact (hrest.covers k hk).imp_right (isRootFalse hs hlevel)
  | @stored rest hrest htwo =>
    have hnil : lines ++ [] = lines := List.append_nil _
    refine ⟨lines ++ [], h.advance hsub (hnil.symm ▸ h.derivation.mono hsub) (fun _ hl => hl)
      (fun _ hl => Or.inl hl) (ClauseStore.keptIn_insert _ _) (fun c clause hc => ?_) Or.inl
      (fun hready => ⟨hready, fun x hx => ?_⟩) rfl⟩
    · rw [ClauseStore.get?_insert] at hc
      split at hc
      · obtain rfl := Option.some.inj hc
        refine Or.inr ⟨ls, List.mem_append_left _ hmem, hrest.subset, fun k hk => ?_⟩
        exact (hrest.covers k hk).imp_right (isRootFalse hs hlevel)
      · exact Or.inl ⟨clause, hc, rfl⟩
    · refine (List.mem_append.1 hx).imp_right fun hx => Or.inr (Or.inr ?_)
      refine ⟨s.clauses.nextId, .ofFormula rest, ?_, List.mem_singleton.1 hx ▸ hrest.subset⟩
      rw [ClauseStore.get?_insert, if_pos rfl]

/-- The clause learned by an analysis is logged. -/
theorem learns (h : Derives start F lines s) (hs : s.Grounded) {clause : List Literal}
    {learned : Learned} (hl : s.Learns clause learned next) :
    Derives start F (lines ++ [clause]) next := by
  obtain ⟨hknown, hfree⟩ := hl.asserting_free hs.toCoherent
  have hcurrent : (s.trail.cut learned.jump).currentLevel = learned.jump := by
    rw [Trail.currentLevel_cut]
    exact Nat.min_eq_left (Nat.le_of_lt hl.jump_lt)
  have hroot : ∀ k, next.trail.IsRootTrue k ↔
      (k = learned.asserting ∧ learned.jump = 0) ∨ s.trail.IsRootTrue k := by
    intro k
    rw [hl.trail_eq, Trail.isRootTrue_push hknown hfree, hcurrent,
      hs.trail.isRootTrue_cut learned.jump]
  refine h.advance (fun _ hx => hx) (h.derivation.snoc (hl.rup _ h.backs))
    (fun k hk => (hroot k).2 (Or.inr hk)) (fun k hk => ?_) hl.keptIn (fun c found hc => ?_)
    (fun hunsat => Or.inl (hl.status_eq ▸ hunsat))
    (fun hready => ⟨hl.status_eq ▸ hready, fun ls => Or.inl⟩) hl.proof_eq
  · refine ((hroot k).1 hk).symm.imp_right ?_
    rintro ⟨rfl, hjump⟩
    rcases hl.stored with ⟨heq, -⟩ | ⟨⟨x, hx, hne, hxjump⟩, -⟩
    · rw [heq]
      exact List.mem_singleton_self _
    · have := (hl.asserting.lower x hx hne).1
      omega
  · rcases hl.get?_cases hc with ⟨old, stamp, hold, rfl⟩ | ⟨-, rfl, -⟩
    · exact Or.inl ⟨old, hold, rfl⟩
    · refine Or.inr ⟨clause, ?_, fun _ hx => hx, fun k hk => Or.inl hk⟩
      exact List.mem_append_right _ (List.mem_append_right _ (List.mem_singleton_self _))

/-- What an analysis derives is logged. -/
theorem analyses (h : Derives start F lines s) (hs : s.Grounded) {c : ClauseId}
    (hstatus : s.status = .conflict c) (hfalse : s.Falsified c) (ha : s.Analyses c next) :
    ∃ lines', Derives start F lines' next := by
  cases ha with
  | refuted hlevel heq =>
    obtain ⟨counters, rfl⟩ := heq
    obtain ⟨conflict, hc, hfalse⟩ := hfalse
    obtain ⟨ls, hls, -, hcover⟩ := h.backs.clause c conflict hc
    refine ⟨_, h.refute hs.toCoherent hlevel (fun _ hx => hx) hls fun k hk => ?_⟩
    exact (hcover k hk).elim (hfalse k) And.left
  | @learned clause _ mid _ hl =>
    refine ⟨_, (h.learns hs hl).keep (fun _ => Iff.rfl) rfl rfl ⟨fun h => (nomatch h), fun h => ?_⟩⟩
    rw [hl.status_eq, hstatus] at h
    cases h

end Derives

end Solver

end ClauseLearning
