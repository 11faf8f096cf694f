import ClauseLearning.Proofs.Conflict.Redundancy
import ClauseLearning.Proofs.Conflict.Resolution
import Mathlib.Data.List.Nodup

/-!
# Asserting clauses

A clause is *asserting* if its literals are false and stand on different variables, one of them
belongs to the current level, and the others belong to levels below it and above the root. The
clause of the first unique implication point is asserting and passes its audit, the count of its
levels is right, and minimisation does not remove its asserting literal.
-/

set_option autoImplicit false

namespace ClauseLearning

/-- First mentions do not repeat. -/
theorem nodup_eraseDups {α : Type} [DecidableEq α] (as : List α) : as.eraseDups.Nodup := by
  match as with
  | [] => simp
  | a :: as =>
    have hlt : (as.filter fun b => !b == a).length < as.length + 1 :=
      Nat.lt_succ_of_le (List.length_filter_le _ as)
    rw [List.eraseDups_cons, List.nodup_cons]
    exact ⟨by simp, nodup_eraseDups _⟩
termination_by as.length

/-- The number of distinct elements is the length of any list that holds each of them once. -/
theorem length_eraseDups_eq {α : Type} [DecidableEq α] {as bs : List α} (hbs : bs.Nodup)
    (h : ∀ a, a ∈ bs ↔ a ∈ as) : as.eraseDups.length = bs.length := by
  refine ((List.perm_ext_iff_of_nodup (nodup_eraseDups as) hbs).2 fun a => ?_).length_eq
  rw [List.mem_eraseDups, h]

namespace Trail

/-- The literals are false, and all but one belong to lower levels above the root. -/
structure Asserting (t : Trail) (ls : List Literal) (asserting : Literal) : Prop where
  mem : asserting ∈ ls
  distinct : (ls.map Literal.var).Nodup
  falsified : ∀ l ∈ ls, t.isFalse l = true
  current : t.level asserting.var = t.currentLevel
  lower : ∀ l ∈ ls, l ≠ asserting → 0 < t.level l.var ∧ t.level l.var < t.currentLevel

/-- Sorting by positions puts the latest assigned first. -/
theorem pairwise_latest_first (t : Trail) (ls : List Literal) :
    (stableSort (fun a b => Nat.ble (t.position b.var) (t.position a.var)) ls).Pairwise
      fun a b => t.position b.var ≤ t.position a.var := by
  have hsorted := pairwise_stableSort
    (fun a b : Literal => Nat.ble (t.position b.var) (t.position a.var))
    (fun x y => by simp only [Bool.or_eq_true, Nat.ble_eq]; omega)
    (fun x y z => by simp only [Nat.ble_eq]; omega) ls
  exact hsorted.imp Nat.le_of_ble_eq_true

namespace Asserting

variable {t : Trail} {ls kept : List Literal} {a : Literal}

/-- The literals are false, so their variables exist. -/
theorem lt_numVariables (h : t.Asserting ls a) {l : Literal} (hl : l ∈ ls) :
    l.var < t.numVariables :=
  lt_numVariables_of_isAssigned (isAssigned_of_isFalse (h.falsified l hl))

/-- A part of the clause with the asserting literal is asserting, too. -/
theorem sublist (h : t.Asserting ls a) (hsub : kept.Sublist ls) (ha : a ∈ kept) :
    t.Asserting kept a where
  mem := ha
  distinct := h.distinct.sublist (hsub.map _)
  falsified := fun l hl => h.falsified l (hsub.subset hl)
  current := h.current
  lower := fun l hl => h.lower l (hsub.subset hl)

/-- Whether a clause is asserting does not depend on the order of its literals. -/
theorem perm (h : t.Asserting ls a) (hperm : kept.Perm ls) : t.Asserting kept a where
  mem := hperm.mem_iff.2 h.mem
  distinct := (hperm.map _).nodup_iff.2 h.distinct
  falsified := fun l hl => h.falsified l (hperm.mem_iff.1 hl)
  current := h.current
  lower := fun l hl => h.lower l (hperm.mem_iff.1 hl)

/-- All levels of an asserting clause are above the root. -/
theorem above_root (h : t.Asserting ls a) (hpos : 0 < t.currentLevel) {l : Literal} (hl : l ∈ ls) :
    0 < t.level l.var := by
  by_cases hla : l = a
  · rw [hla, h.current]
    exact hpos
  · exact (h.lower l hl hla).1

/-- The asserting literal is the only one of the current level. -/
theorem level_eq_iff (h : t.Asserting ls a) {l : Literal} (hl : l ∈ ls) :
    t.level l.var = t.currentLevel ↔ l = a := by
  constructor
  · intro hlevel
    by_contra hla
    exact Nat.ne_of_lt (h.lower l hl hla).2 hlevel
  · rintro rfl
    exact h.current

/-- The other literals of a clause that starts with its asserting literal. -/
theorem ne_of_mem_tail {rest : List Literal} (h : t.Asserting (a :: rest) a) {l : Literal}
    (hl : l ∈ rest) : l ≠ a := by
  rintro rfl
  have hdistinct := h.distinct
  rw [List.map_cons, List.nodup_cons] at hdistinct
  exact hdistinct.1 (List.mem_map_of_mem hl)

/-- An asserting clause has one literal of the current level. -/
theorem countCurrent_eq (h : t.Asserting ls a) : t.countCurrent ls = 1 := by
  have hcount : t.countCurrent ls = ls.count a := by
    unfold countCurrent
    rw [List.count]
    refine List.countP_congr fun l hl => ?_
    rw [beq_iff_eq, beq_iff_eq]
    exact h.level_eq_iff hl
  have hnodup : ls.Nodup := List.Nodup.of_map _ h.distinct
  rw [hcount, hnodup.count, if_pos h.mem]

/-- The audit of learned clauses accepts asserting clauses. -/
theorem holdsLearned_eq (h : t.Asserting ls a) : (t.holdsLearned ls).result = .ok true := by
  have hdistinct : (ls.map Literal.var).eraseDups.length = ls.length := by
    rw [length_eraseDups_eq h.distinct fun _ => Iff.rfl, List.length_map]
  unfold holdsLearned
  rw [if_pos hdistinct, Traced.result_bind_eq_ok_iff]
  refine ⟨none, findUnfalsified_eq_none_iff.2 h.falsified, ?_⟩
  dsimp only
  rw [if_pos h.countCurrent_eq]
  rfl

/-- With the latest assigned first, the asserting literal comes before the others, and the next one
has the highest level among these. -/
theorem exists_latest_first (ht : t.WellFormed) (h : t.Asserting ls a) :
    ∃ rest, stableSort (fun a b => Nat.ble (t.position b.var) (t.position a.var)) ls = a :: rest ∧
      ∀ second after, rest = second :: after →
        ∀ l ∈ rest, t.level l.var ≤ t.level second.var := by
  have hsorted := pairwise_latest_first t ls
  have hperm := stableSort_perm
    (fun a b : Literal => Nat.ble (t.position b.var) (t.position a.var)) ls
  have h' := h.perm hperm
  generalize stableSort (fun a b : Literal => Nat.ble (t.position b.var) (t.position a.var)) ls =
    sorted at hsorted h'
  have hassigned : ∀ l ∈ sorted, t.isAssigned l.var = true :=
    fun l hl => isAssigned_of_isFalse (h'.falsified l hl)
  cases sorted with
  | nil => exact absurd h'.mem List.not_mem_nil
  | cons first rest =>
    rw [List.pairwise_cons] at hsorted
    obtain ⟨hfirst, hrest⟩ := hsorted
    have hfirst_eq : first = a := by
      by_contra hne
      have hmem : a ∈ rest := (List.mem_cons.1 h'.mem).resolve_left fun heq => hne heq.symm
      have hle := hfirst a hmem
      have hlt := ht.position_lt_of_level_lt (hassigned first List.mem_cons_self)
        (hassigned a h'.mem) (h'.current ▸ (h'.lower first List.mem_cons_self hne).2)
      omega
    refine ⟨rest, by rw [hfirst_eq], fun second after heq l hl => ?_⟩
    subst heq
    rw [List.pairwise_cons] at hrest
    rcases List.mem_cons.1 hl with rfl | hafter
    · exact Nat.le_refl _
    · have hle := hrest.1 l hafter
      exact ht.level_mono (hassigned l (List.mem_cons_of_mem _ hl))
        (hassigned second (List.mem_cons_of_mem _ List.mem_cons_self)) hle

end Asserting

end Trail

namespace Workspace

variable {v : View} {conflict : Clause} {w : Workspace} {uip : Literal}

/-- The clause under construction has the literals met of lower levels. -/
theorem Tracks.mem_learned_iff (h : Tracks v.trail w) {l : Literal} :
    l ∈ w.learned ↔ l ∈ w.seen ∧ v.trail.level l.var < v.trail.currentLevel := by
  rw [h.learned_eq, List.mem_filter, decide_eq_true_iff]

namespace FindsUip

/-- The implication point was met as a false literal. -/
theorem negate_mem_seen (h : FindsUip v conflict w uip) : uip.negate ∈ w.seen :=
  h.tracks.negate_mem_seen h.falsified h.uip_true h.uip_seen

/-- The clause of the first unique implication point is asserting. -/
theorem asserting (h : FindsUip v conflict w uip) :
    v.trail.Asserting (w.learned ++ [uip.negate]) uip.negate := by
  have hlearned : ∀ l ∈ w.learned ++ [uip.negate], l ∈ w.seen := by
    intro l hl
    rcases List.mem_append.1 hl with hl | hl
    · exact (h.tracks.mem_learned_iff.1 hl).1
    · exact List.mem_singleton.1 hl ▸ h.negate_mem_seen
  refine ⟨by simp, ?_, fun l hl => h.falsified l (hlearned l hl), h.uip_level, ?_⟩
  · rw [List.map_append, List.nodup_append]
    refine ⟨?_, by simp, ?_⟩
    · rw [h.tracks.learned_eq]
      exact h.tracks.distinct.sublist (List.filter_sublist.map _)
    · rintro x hx y hy rfl
      obtain ⟨l, hl, rfl⟩ := List.mem_map.1 hx
      have hlt := (h.tracks.mem_learned_iff.1 hl).2
      rw [List.map_singleton, List.mem_singleton, Literal.negate_var] at hy
      rw [hy, h.uip_level] at hlt
      exact Nat.lt_irrefl _ hlt
  · intro l hl hne
    refine ⟨h.tracks.above_root l (hlearned l hl), ?_⟩
    rcases List.mem_append.1 hl with hl | hl
    · exact (h.tracks.mem_learned_iff.1 hl).2
    · exact absurd (List.mem_singleton.1 hl) hne

/-- The levels listed are the levels of the clause. -/
theorem length_levels_eq (ht : v.trail.WellFormed) (h : FindsUip v conflict w uip) :
    w.levels.length = v.trail.glue (w.learned ++ [uip.negate]) := by
  unfold Trail.glue
  rw [length_eraseDups_eq h.tracks.levels_nodup]
  intro k
  simp only [List.mem_filter, List.mem_map, decide_eq_true_eq]
  rw [h.tracks.mem_levels_iff]
  constructor
  · rintro ⟨l, hl, rfl⟩
    have hpos := h.tracks.above_root l hl
    refine ⟨?_, hpos⟩
    by_cases hlt : v.trail.level l.var < v.trail.currentLevel
    · refine ⟨l, ⟨List.mem_append_left _ (h.tracks.mem_learned_iff.2 ⟨hl, hlt⟩), ?_⟩, rfl⟩
      exact Trail.isAssigned_of_isFalse (h.falsified l hl)
    · refine ⟨uip.negate, ⟨by simp, ?_⟩, ?_⟩
      · exact Trail.isAssigned_of_isFalse (h.falsified _ h.negate_mem_seen)
      · rw [Literal.negate_var, h.uip_level]
        exact Nat.le_antisymm (Nat.le_of_not_lt hlt) (ht.level_le _)
  · rintro ⟨⟨l, ⟨hl, -⟩, rfl⟩, -⟩
    rcases List.mem_append.1 hl with hl | hl
    · exact ⟨l, (h.tracks.mem_learned_iff.1 hl).1, rfl⟩
    · exact ⟨uip.negate, h.negate_mem_seen, List.mem_singleton.1 hl ▸ rfl⟩

/-- Minimisation keeps the asserting literal, as a literal of the current level is never removed. -/
theorem asserting_kept {w₀ judged : Workspace} {kept : List Literal}
    (h : FindsUip v conflict w uip) (hjudged : Judges v w₀ judged)
    (hkept : ∀ l ∈ w.learned ++ [uip.negate], l ∈ kept ∨ Passes v judged 0 l.var) :
    uip.negate ∈ kept := by
  refine (hkept uip.negate (by simp)).resolve_right ?_
  rintro (hroot | hremoved | ⟨hdepth, -⟩)
  · have hpos := h.tracks.above_root _ h.negate_mem_seen
    omega
  · exact (hjudged.supported _ hremoved).1 h.uip_level
  · exact Nat.lt_irrefl _ hdepth

end FindsUip

end Workspace

end ClauseLearning
