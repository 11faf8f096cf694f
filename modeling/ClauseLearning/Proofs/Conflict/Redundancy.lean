import ClauseLearning.Conflict.Minimisation
import ClauseLearning.Proofs.Conflict.Tracking
import ClauseLearning.Proofs.Trail.Reasons
import ClauseLearning.Proofs.Yields

/-!
# What minimisation removes

Minimisation marks variables as removable. Every variable marked so has a reason whose other
literals are fixed at the root, were met by the analysis, or are marked as well, and it does not
belong to the current level. A literal is removed only if its variable is marked or fixed at the
root; afterwards all verdicts are forgotten, so that the workspace is the one that minimisation was
given.
-/

set_option autoImplicit false

namespace ClauseLearning

namespace Workspace

variable {v : View} {w₀ w next : Workspace}

/-- Whether a variable was found to be implied. -/
def isRemoved (w : Workspace) (x : Variable) : Bool := (w.marksOf x).removable

/-- The reason of a variable rests on root literals, on literals met, and on variables found to be
implied. -/
def Supported (v : View) (w : Workspace) (x : Variable) : Prop :=
  v.trail.level x ≠ v.trail.currentLevel ∧
    ∃ c clause, v.trail.reason x = some c ∧ v.clauses.get? c = some clause ∧
      ∀ k ∈ clause.literals, k.var ≠ x →
        v.trail.level k.var = 0 ∨ w.isSeen k.var = true ∨ w.isRemoved k.var = true

/-- The verdicts reached since minimisation was started on a workspace: they are listed, only they
are new, and every literal found to be removable is supported. -/
structure Judges (v : View) (w₀ w : Workspace) : Prop where
  rest_eq : w = { w₀ with marks := w.marks, minimised := w.minimised }
  size_eq : w.marks.size = w₀.marks.size
  seen_eq : ∀ x, w.isSeen x = w₀.isSeen x
  listed : ∀ x, (w.marksOf x).poison = true ∨ w.isRemoved x = true → x ∈ w.minimised
  placed : ∀ x ∈ w.minimised, x < w.marks.size
  supported : ∀ x, w.isRemoved x = true → Supported v w x

/-- Verdicts were noted in a workspace since minimisation was started on it: they are listed, and
nothing else is new. -/
structure Annotates (w₀ w : Workspace) : Prop where
  rest_eq : w = { w₀ with marks := w.marks, minimised := w.minimised }
  size_eq : w.marks.size = w₀.marks.size
  seen_eq : ∀ x, w.isSeen x = w₀.isSeen x
  listed : ∀ x, (w.marksOf x).poison = true ∨ w.isRemoved x = true → x ∈ w.minimised
  placed : ∀ x ∈ w.minimised, x < w.marks.size

/-- A workspace with right verdicts differs from the one before in verdicts only. -/
theorem Judges.annotates (h : Judges v w₀ w) : w₀.Annotates w :=
  ⟨h.rest_eq, h.size_eq, h.seen_eq, h.listed, h.placed⟩

/-- No verdict is withdrawn. -/
def Extends (w next : Workspace) : Prop := ∀ x, w.isRemoved x = true → next.isRemoved x = true

/-- A workspace extends itself. -/
theorem Extends.refl (w : Workspace) : w.Extends w := fun _ h => h

/-- Extensions add up. -/
theorem Extends.trans {w' : Workspace} (h : w.Extends w') (h' : w'.Extends next) :
    w.Extends next := fun x hx => h' x (h x hx)

/-- Before the first verdict nothing is annotated. -/
theorem Annotates.start {w : Workspace}
    (h : ∀ x, (w.marksOf x).poison = false ∧ (w.marksOf x).removable = false)
    (hminimised : w.minimised = []) : w.Annotates w where
  rest_eq := rfl
  size_eq := rfl
  seen_eq := fun _ => rfl
  listed := by
    intro x hx
    unfold isRemoved at hx
    rw [(h x).1, (h x).2] at hx
    simp at hx
  placed := by
    rw [hminimised]
    exact fun x hx => absurd hx List.not_mem_nil

/-- Without verdicts there is nothing to support. -/
theorem Judges.start (v : View) {w : Workspace}
    (h : ∀ x, (w.marksOf x).poison = false ∧ (w.marksOf x).removable = false)
    (hminimised : w.minimised = []) : Judges v w w := by
  have hannotates := Annotates.start h hminimised
  refine ⟨hannotates.rest_eq, hannotates.size_eq, hannotates.seen_eq, hannotates.listed,
    hannotates.placed, ?_⟩
  intro x hx
  unfold isRemoved at hx
  rw [(h x).2] at hx
  cases hx

/-- A verdict is written to the marks of one variable only. -/
theorem marksOf_conclude {x : Variable} (hx : x < w.marks.size) (removable : Bool) (y : Variable) :
    (w.conclude x removable).marksOf y =
      if x = y then
        if removable then { w.marksOf y with removable := true }
        else { w.marksOf y with poison := true }
      else w.marksOf y :=
  marksOf_modify hx _ y

/-- One more verdict extends a workspace. -/
theorem extends_conclude {x : Variable} (hx : x < w.marks.size) (removable : Bool) :
    w.Extends (w.conclude x removable) := by
  intro y hy
  unfold isRemoved at hy ⊢
  rw [marksOf_conclude hx]
  split
  · cases removable
    · exact hy
    · rfl
  · exact hy

/-- A verdict does not change what was met. -/
theorem isSeen_conclude {x : Variable} (hx : x < w.marks.size) (removable : Bool) (y : Variable) :
    (w.conclude x removable).isSeen y = w.isSeen y := by
  unfold isSeen
  rw [marksOf_conclude hx]
  split
  · cases removable <;> rfl
  · rfl

/-- A workspace with one more verdict still differs in verdicts only. -/
theorem Annotates.conclude (h : w₀.Annotates w) {x : Variable} (hx : x < w.marks.size)
    (removable : Bool) : w₀.Annotates (w.conclude x removable) := by
  refine ⟨?_, ?_, fun y => (isSeen_conclude hx removable y).trans (h.seen_eq y), ?_, ?_⟩
  · have hrest := h.rest_eq
    unfold Workspace.conclude
    rw [hrest]
  · show (w.marks.modify x _).size = _
    rw [Arena.size_modify, h.size_eq]
  · intro y hy
    show y ∈ w.minimised ++ [x]
    unfold isRemoved at hy
    rw [marksOf_conclude hx] at hy
    by_cases hxy : x = y
    · simp [hxy]
    · rw [if_neg hxy] at hy
      exact List.mem_append_left _ (h.listed y hy)
  · intro y hy
    show y < (w.marks.modify x _).size
    rw [Arena.size_modify]
    rcases List.mem_append.1 hy with hy | hy
    · exact h.placed y hy
    · exact List.mem_singleton.1 hy ▸ hx

/-- A verdict is kept; a positive one needs support. -/
theorem Judges.conclude (h : Judges v w₀ w) {x : Variable} (hx : x < w.marks.size)
    {removable : Bool} (hsupport : removable = true → Supported v w x) :
    Judges v w₀ (w.conclude x removable) := by
  have hannotates := h.annotates.conclude hx removable
  have hextends := extends_conclude hx removable
  have hkeep : ∀ y, Supported v w y → Supported v (w.conclude x removable) y := by
    rintro y ⟨hlevel, c, clause, hr, hc, hrest⟩
    refine ⟨hlevel, c, clause, hr, hc, fun k hk hkx => ?_⟩
    rw [isSeen_conclude hx]
    exact (hrest k hk hkx).imp_right (Or.imp_right (hextends k.var))
  refine ⟨hannotates.rest_eq, hannotates.size_eq, hannotates.seen_eq, hannotates.listed,
    hannotates.placed, ?_⟩
  intro y hy
  apply hkeep
  unfold isRemoved at hy
  rw [marksOf_conclude hx] at hy
  by_cases hxy : x = y
  · subst hxy
    cases removable with
    | true => exact hsupport rfl
    | false =>
      rw [if_pos rfl, if_neg Bool.false_ne_true] at hy
      exact h.supported x hy
  · rw [if_neg hxy] at hy
    exact h.supported y hy

/-- What a positive answer means at a depth of the search. -/
def Passes (v : View) (w : Workspace) (depth : Nat) (x : Variable) : Prop :=
  v.trail.level x = 0 ∨ w.isRemoved x = true ∨ (0 < depth ∧ w.isSeen x = true)

/-- What passes still passes after further verdicts. -/
theorem Passes.mono {depth : Nat} {x : Variable} (h : Passes v w depth x)
    (hextends : w.Extends next) (hseen : next.isSeen x = w.isSeen x) : Passes v next depth x := by
  unfold Passes
  rw [hseen]
  exact h.imp_right (Or.imp_left (hextends x))

/-- A variable is known to be implied if it is fixed at the root, was removed, or belongs to the
clause. -/
theorem isImplied_iff {t : Trail} {depth : Nat} {x : Variable} :
    w.isImplied t depth x = true ↔
      t.level x = 0 ∨ w.isRemoved x = true ∨ (0 < depth ∧ w.isSeen x = true) := by
  unfold isImplied isRemoved isSeen
  simp only [Bool.or_eq_true, Bool.and_eq_true, beq_iff_eq, decide_eq_true_eq, or_assoc]

/-- The verdict that can be given at once is sound, and it can be given about existing
variables. -/
theorem exists_verdict (he : v.trail.Justified v.clauses) (ht : v.trail.WellFormed)
    (hsize : w.marks.size = v.trail.numVariables) (depth : Nat) {l : Literal}
    (hl : l.var < v.trail.numVariables) :
    (∃ removable, w.verdict v depth l = .ok (.settled removable) ∧
        (removable = true → Passes v w depth l.var)) ∨
      ∃ c clause, w.verdict v depth l = .ok (.undecided clause) ∧
        v.trail.reason l.var = some c ∧ v.clauses.get? c = some clause ∧
        v.trail.level l.var ≠ v.trail.currentLevel := by
  rw [verdict_eq_assess hl (hsize.symm ▸ hl)]
  unfold assess
  split
  next himplied => exact Or.inl ⟨true, rfl, fun _ => isImplied_iff.1 himplied⟩
  next =>
    cases hr : v.trail.reason l.var with
    | none => exact Or.inl ⟨false, rfl, fun h => nomatch h⟩
    | some c =>
      obtain ⟨k, hkl, hk⟩ := Trail.WellFormed.exists_isTrue (ht.isAssigned_of_reason hr)
      obtain ⟨clause, hc, -⟩ := he k c hk (hkl ▸ hr)
      have hget : v.clauses.get c = .ok clause := ClauseStore.get_eq_ok_iff.2 hc
      simp only [hget, bind, Except.bind]
      cases hneeded : w.isNeeded v.trail depth l.var with
      | true => exact Or.inl ⟨false, rfl, fun h => nomatch h⟩
      | false =>
        refine Or.inr ⟨c, clause, rfl, rfl, hc, fun hlevel => ?_⟩
        unfold isNeeded at hneeded
        simp only [Bool.or_eq_false_iff, beq_eq_false_iff_ne] at hneeded
        exact hneeded.1.1.2 hlevel

/-- A list passes if every literal of it does. -/
theorem allPass_yields {test : Workspace → Literal → Traced (Workspace × Bool)} {depth : Nat}
    {ls : List Literal}
    (htest : ∀ w, ∀ l ∈ ls, Judges v w₀ w → (test w l).Yields fun (next, passes) =>
      Judges v w₀ next ∧ w.Extends next ∧ (passes = true → Passes v next depth l.var))
    (h : Judges v w₀ w) :
    (allPass test w ls).Yields fun (next, passes) =>
      Judges v w₀ next ∧ w.Extends next ∧
        (passes = true → ∀ l ∈ ls, Passes v next depth l.var) := by
  induction ls generalizing w with
  | nil => exact .pure ⟨h, .refl w, fun _ l hl => absurd hl List.not_mem_nil⟩
  | cons l ls ih =>
    rw [allPass]
    refine .bind (htest w l List.mem_cons_self h) ?_
    rintro ⟨w₁, passes⟩ ⟨h₁, hextends₁, hpasses⟩
    cases passes with
    | false => exact .pure ⟨h₁, hextends₁, fun hno => nomatch hno⟩
    | true =>
      refine (ih (fun w k hk => htest w k (List.mem_cons_of_mem _ hk)) h₁).mono ?_
      rintro ⟨next, rest⟩ ⟨hnext, hextends, hrest⟩
      refine ⟨hnext, hextends₁.trans hextends, fun hok k hk => ?_⟩
      rcases List.mem_cons.1 hk with rfl | hk
      · refine (hpasses rfl).mono hextends ?_
        rw [hnext.seen_eq, h₁.seen_eq]
      · exact hrest hok k hk

/-- The premises of a reason are about existing variables, since they became false. -/
theorem lt_numVariables_of_premise (he : v.trail.Justified v.clauses) (ht : v.trail.WellFormed)
    {l k : Literal} {c : ClauseId} {clause : Clause} (hr : v.trail.reason l.var = some c)
    (hc : v.clauses.get? c = some clause) (hk : k ∈ premises clause l) :
    k.var < v.trail.numVariables := by
  obtain ⟨x, hx, rfl⟩ := List.mem_map.1 hk
  have hassigned := ht.isAssigned_of_reason hr
  obtain ⟨y, hyl, hy⟩ := Trail.WellFormed.exists_isTrue hassigned
  obtain ⟨clause', hc', -, hfalse⟩ := he y c hy (hyl.symm ▸ hr)
  obtain rfl := Option.some.inj (hc'.symm.trans hc)
  by_cases hxy : x = y
  · subst hxy
    exact Trail.lt_numVariables_of_isAssigned (v := x.var) (Trail.isAssigned_of_isTrue hy)
  · have hxf := (hfalse x (List.mem_filter.1 hx).1 hxy).1
    exact Trail.lt_numVariables_of_isAssigned (v := x.var) (Trail.isAssigned_of_isFalse hxf)

/-- A verdict that is given at once is the answer. -/
theorem isRemovable_of_settled {depth : Nat} {l : Literal} {removable : Bool}
    (h : w.verdict v depth l = .ok (.settled removable)) {budget : Nat} :
    isRemovable v budget depth w l = return (w, removable) := by
  unfold isRemovable
  rw [h]
  rfl

/-- The recursive search ends with a sound verdict. -/
theorem isRemovable_yields (ht : v.trail.WellFormed) (he : v.trail.Justified v.clauses)
    (hsize : w₀.marks.size = v.trail.numVariables) (budget depth : Nat) {l : Literal}
    (hl : l.var < v.trail.numVariables) (h : Judges v w₀ w) :
    (isRemovable v budget depth w l).Yields fun (next, removable) =>
      Judges v w₀ next ∧ w.Extends next ∧ (removable = true → Passes v next depth l.var) := by
  have hmarks : ∀ {w : Workspace}, Judges v w₀ w → w.marks.size = v.trail.numVariables :=
    fun hw => hw.size_eq.trans hsize
  induction budget generalizing depth w l with
  | zero =>
    rcases exists_verdict he ht (hmarks h) depth hl with
      ⟨removable, hv, hpasses⟩ | ⟨c, clause, hv, -⟩
    · rw [isRemovable_of_settled hv]
      exact .pure ⟨h, .refl w, hpasses⟩
    · unfold isRemovable
      exact .bind (.lift hv (P := (· = .undecided clause)) rfl) fun _ heq =>
        heq ▸ .pure ⟨h, .refl w, fun hno => nomatch hno⟩
  | succ budget ih =>
    rcases exists_verdict he ht (hmarks h) depth hl with
      ⟨removable, hv, hpasses⟩ | ⟨c, clause, hv, hr, hc, hlevel⟩
    · rw [isRemovable_of_settled hv]
      exact .pure ⟨h, .refl w, hpasses⟩
    · unfold isRemovable
      refine .bind (.lift hv (P := (· = .undecided clause)) rfl) ?_
      rintro _ rfl
      -- each premise is the question one level deeper, with one reason less to go
      have hall := allPass_yields (fun w' k hk hw' =>
        ih (depth + 1) (lt_numVariables_of_premise he ht hr hc hk) hw') h
      refine .bind hall ?_
      rintro ⟨next, removable⟩ ⟨hnext, hextends, hall⟩
      refine .bind (.tell _) fun _ _ => .pure ?_
      have hx : l.var < next.marks.size := by
        rw [hnext.size_eq, hsize]
        exact Trail.lt_numVariables_of_isAssigned (ht.isAssigned_of_reason hr)
      refine ⟨hnext.conclude hx fun hok => ?_, hextends.trans (extends_conclude hx _), ?_⟩
      · refine ⟨hlevel, c, clause, hr, hc, fun k hk hkx => ?_⟩
        have hpremise : k.negate ∈ premises clause l := by
          refine List.mem_map_of_mem (List.mem_filter.2 ⟨hk, ?_⟩)
          simp only [bne_iff_ne, ne_eq]
          rintro rfl
          exact hkx rfl
        rcases hall hok _ hpremise with hroot | hremoved | ⟨-, hseen⟩
        · exact Or.inl hroot
        · exact Or.inr (Or.inr hremoved)
        · exact Or.inr (Or.inl hseen)
      · rintro rfl
        refine Or.inr (Or.inl ?_)
        unfold isRemoved
        rw [marksOf_conclude hx, if_pos rfl, if_pos rfl]

/-- The literals kept are in order, and each literal left out is implied. -/
theorem keepNeeded_yields (ht : v.trail.WellFormed) (he : v.trail.Justified v.clauses)
    (hsize : w₀.marks.size = v.trail.numVariables) (maxDepth : Nat) {ls : List Literal}
    (hls : ∀ l ∈ ls, l.var < v.trail.numVariables) (h : Judges v w₀ w) :
    (keepNeeded v maxDepth w ls).Yields fun (next, kept) =>
      Judges v w₀ next ∧ w.Extends next ∧ kept.Sublist ls ∧
        ∀ l ∈ ls, l ∈ kept ∨ Passes v next 0 l.var := by
  induction ls generalizing w with
  | nil => exact .pure ⟨h, .refl w, List.Sublist.refl _, fun l hl => absurd hl List.not_mem_nil⟩
  | cons l ls ih =>
    rw [keepNeeded]
    have hknown : l.negate.var < v.trail.numVariables := hls l List.mem_cons_self
    refine .bind (isRemovable_yields ht he hsize (maxDepth + 1) 0 hknown h) ?_
    rintro ⟨w₁, removable⟩ ⟨h₁, hextends₁, hpasses⟩
    refine .bind (ih (fun k hk => hls k (List.mem_cons_of_mem _ hk)) h₁) ?_
    rintro ⟨next, rest⟩ ⟨hnext, hextends, hsublist, hrest⟩
    refine .pure ⟨hnext, hextends₁.trans hextends, ?_, fun k hk => ?_⟩
    · cases removable
      · exact hsublist.cons_cons l
      · exact hsublist.cons l
    · rcases List.mem_cons.1 hk with rfl | hk
      · cases removable with
        | false => exact Or.inl (by simp)
        | true =>
          have hseen : next.isSeen k.negate.var = w₁.isSeen k.negate.var := by
            rw [hnext.seen_eq, h₁.seen_eq]
          exact Or.inr ((hpasses rfl).mono hextends hseen)
      · refine (hrest k hk).imp_left fun hmem => ?_
        cases removable
        · exact List.mem_cons_of_mem _ hmem
        · exact hmem

/-- Forgetting the verdicts gives the marks of a list of variables their start values back. -/
theorem marks_foldl_clear (xs : List Variable) (marks : Arena Marks) (y : Variable) :
    (xs.foldl (fun marks x =>
      marks.modify x fun m => { m with poison := false, removable := false }) marks).get? y =
      if y ∈ xs then (marks.get? y).map fun m => { m with poison := false, removable := false }
      else marks.get? y := by
  induction xs generalizing marks with
  | nil => simp
  | cons x xs ih =>
    rw [List.foldl_cons, ih, Arena.get?_modify]
    by_cases hx : x = y
    · subst hx
      cases marks.get? x <;> simp
    · have hne : y ≠ x := fun heq => hx heq.symm
      simp [hx, hne]

/-- Forgetting the verdicts leads back to the workspace that minimisation was given. -/
theorem Annotates.clearVerdicts_eq (h : w₀.Annotates w)
    (hclean : ∀ x, (w₀.marksOf x).poison = false ∧ (w₀.marksOf x).removable = false)
    (hminimised : w₀.minimised = []) : w.clearVerdicts = w₀ := by
  have hmarks : (w.minimised.foldl (fun marks x => marks.modify x fun m =>
      { m with poison := false, removable := false }) w.marks) = w₀.marks := by
    apply Arena.ext_get?
    intro y
    rw [marks_foldl_clear]
    cases hy : w.marks.get? y with
    | none =>
      have hge : w₀.marks.size ≤ y := h.size_eq ▸ (Arena.get?_eq_none_iff _ _).1 hy
      rw [(Arena.get?_eq_none_iff _ _).2 hge]
      split <;> rfl
    | some m =>
      have hlt : ¬ w₀.marks.size ≤ y := by
        rw [← h.size_eq, ← Arena.get?_eq_none_iff, hy]
        exact Option.some_ne_none m
      obtain ⟨m₀, hm₀⟩ : ∃ m₀, w₀.marks.get? y = some m₀ := by
        rw [← Option.ne_none_iff_exists', ne_eq, Arena.get?_eq_none_iff]
        exact hlt
      have hseen := h.seen_eq y
      have hclean := hclean y
      have hlisted := h.listed y
      unfold isRemoved at hlisted
      unfold isSeen marksOf at hseen
      unfold marksOf at hclean hlisted
      rw [hy, hm₀, Option.getD_some, Option.getD_some] at hseen
      rw [hm₀, Option.getD_some] at hclean
      rw [hy, Option.getD_some] at hlisted
      rw [hm₀]
      -- the marks differ in verdicts, and a variable with a verdict is listed
      obtain ⟨seen, poison, removable⟩ := m
      obtain ⟨seen₀, poison₀, removable₀⟩ := m₀
      obtain ⟨rfl, rfl⟩ := hclean
      obtain rfl : seen = seen₀ := hseen
      split
      next => rfl
      next hno =>
        have hverdict : poison = false ∧ removable = false := by
          cases poison <;> cases removable <;> simp_all
        obtain ⟨rfl, rfl⟩ := hverdict
        rfl
  unfold clearVerdicts
  rw [hmarks, h.rest_eq, ← hminimised]

/-- Minimisation keeps a part of the clause; what it leaves out is supported, and the workspace is
left as it was. -/
theorem minimise_yields (ht : v.trail.WellFormed) (he : v.trail.Justified v.clauses)
    (hsize : w.marks.size = v.trail.numVariables)
    (hclean : ∀ x, (w.marksOf x).poison = false ∧ (w.marksOf x).removable = false)
    (hminimised : w.minimised = []) (maxDepth : Nat) {ls : List Literal}
    (hls : ∀ l ∈ ls, l.var < v.trail.numVariables) :
    (w.minimise v maxDepth ls).Yields fun (next, kept) =>
      next = w ∧ kept.Sublist ls ∧
        ∃ judged, Judges v w judged ∧ ∀ l ∈ ls, l ∈ kept ∨ Passes v judged 0 l.var := by
  unfold minimise
  refine .bind (keepNeeded_yields ht he hsize maxDepth hls (Judges.start v hclean hminimised)) ?_
  rintro ⟨judged, kept⟩ ⟨hjudged, -, hsublist, hkept⟩
  have hplaced : judged.requireAll judged.minimised = .ok () :=
    requireAll_eq_ok_iff.2 hjudged.placed
  exact .bind (.lift (P := fun _ => True) hplaced trivial) fun _ _ => .bind (.tell _) fun _ _ =>
    .pure ⟨hjudged.annotates.clearVerdicts_eq hclean hminimised, hsublist, judged, hjudged, hkept⟩

/-! ## Whatever the reasons are

Without any assumption on the reasons minimisation may fault and its verdicts mean nothing, but if
it ends, it still leaves the workspace as it was. -/

/-- What every test keeps up, testing a list keeps up. -/
theorem allPass_ensures {test : Workspace → Literal → Traced (Workspace × Bool)}
    {I : Workspace → Prop} (htest : ∀ w l, I w → (test w l).Ensures fun (next, _) => I next)
    (ls : List Literal) (h : I w) : (allPass test w ls).Ensures fun (next, _) => I next := by
  induction ls generalizing w with
  | nil => exact .pure h
  | cons l ls ih =>
    rw [allPass]
    refine .bind (htest w l h) ?_
    rintro ⟨w₁, passes⟩ h₁
    cases passes with
    | false => exact .pure h₁
    | true => exact ih h₁

/-- Only an assigned variable has a reason that can be looked through. -/
theorem isAssigned_of_verdict {depth : Nat} {l : Literal} {reason : Clause}
    (ht : v.trail.WellFormed) (hok : w.verdict v depth l = .ok (.undecided reason)) :
    v.trail.isAssigned l.var = true := by
  obtain ⟨-, -, hok⟩ := assess_of_verdict hok
  unfold assess at hok
  split at hok
  · cases hok
  · cases hr : v.trail.reason l.var with
    | none =>
      rw [hr] at hok
      cases hok
    | some c => exact ht.isAssigned_of_reason hr

/-- A question keeps whatever is kept by the verdicts that are reached on the way to its answer. -/
theorem isRemovable_keeps {I : Workspace → Prop}
    (hconclude : ∀ {w next : Workspace} {depth : Nat} {l : Literal} {reason : Clause}, I w →
      w.verdict v depth l = .ok (.undecided reason) → I next →
      ∀ removable, I (next.conclude l.var removable))
    (budget depth : Nat) (l : Literal) (h : I w) :
    (isRemovable v budget depth w l).Ensures fun (next, _) => I next := by
  induction budget generalizing depth w l with
  | zero =>
    unfold isRemovable
    refine .bind .any fun verdict _ => ?_
    cases verdict with
    | settled removable => exact .pure h
    | undecided reason => exact .pure h
  | succ budget ih =>
    unfold isRemovable
    refine .bind (P := fun verdict => w.verdict v depth l = .ok verdict) (.lift fun _ hok => hok) ?_
    intro verdict hverdict
    cases verdict with
    | settled removable => exact .pure h
    | undecided reason =>
      refine .bind (allPass_ensures (fun w' k hw' => ih (depth + 1) k hw') (premises reason l) h) ?_
      rintro ⟨next, removable⟩ hnext
      exact .bind .any fun _ _ => .pure (hconclude h hverdict hnext removable)

/-- Before a question is answered a verdict was looked for, and one that was given at once is the
answer. -/
theorem exists_verdict_of_isRemovable {budget depth : Nat} {l : Literal} {removable : Bool}
    (hok : (isRemovable v budget depth w l).result = .ok (next, removable)) :
    ∃ verdict, w.verdict v depth l = .ok verdict ∧
      ∀ settled, verdict = .settled settled → removable = settled := by
  unfold isRemovable at hok
  obtain ⟨verdict, hverdict, hok⟩ := Traced.result_bind_eq_ok_iff.1 hok
  refine ⟨verdict, hverdict, ?_⟩
  rintro settled rfl
  exact (Prod.mk.inj (Except.ok.inj hok)).2.symm

/-- Whatever a question leads to, it writes verdicts only. -/
theorem isRemovable_ensures (ht : v.trail.WellFormed) (hsize : w₀.marks.size = v.trail.numVariables)
    (budget depth : Nat) (l : Literal) (h : w₀.Annotates w) :
    (isRemovable v budget depth w l).Ensures fun (next, _) => w₀.Annotates next := by
  refine isRemovable_keeps (fun {_ next _ l _} _ hverdict hnext removable => ?_) budget depth l h
  have hx : l.var < next.marks.size := by
    rw [hnext.size_eq, hsize]
    exact Trail.lt_numVariables_of_isAssigned (isAssigned_of_verdict ht hverdict)
  exact hnext.conclude hx removable

/-- Whatever becomes of a clause, the questions about its literals write verdicts only. -/
theorem keepNeeded_ensures (ht : v.trail.WellFormed)
    (hsize : w₀.marks.size = v.trail.numVariables) (maxDepth : Nat) (ls : List Literal)
    (h : w₀.Annotates w) :
    (keepNeeded v maxDepth w ls).Ensures fun (next, _) => w₀.Annotates next := by
  induction ls generalizing w with
  | nil => exact .pure h
  | cons l ls ih =>
    rw [keepNeeded]
    refine .bind (isRemovable_ensures ht hsize _ _ _ h) ?_
    rintro ⟨w₁, removable⟩ h₁
    refine .bind (ih h₁) ?_
    rintro ⟨next, rest⟩ hnext
    exact .pure hnext

/-- Minimisation leaves the workspace as it found it. -/
theorem minimise_ensures (ht : v.trail.WellFormed) (hsize : w.marks.size = v.trail.numVariables)
    (hclean : ∀ x, (w.marksOf x).poison = false ∧ (w.marksOf x).removable = false)
    (hminimised : w.minimised = []) (maxDepth : Nat) (ls : List Literal) :
    (w.minimise v maxDepth ls).Ensures fun (next, _) => next = w := by
  unfold minimise
  refine .bind (keepNeeded_ensures ht hsize maxDepth ls (.start hclean hminimised)) ?_
  rintro ⟨annotated, kept⟩ hannotated
  exact .bind .any fun _ _ => .bind .any fun _ _ =>
    .pure (hannotated.clearVerdicts_eq hclean hminimised)

end Workspace

end ClauseLearning
