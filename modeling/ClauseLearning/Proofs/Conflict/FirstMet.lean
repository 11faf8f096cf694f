import ClauseLearning.Proofs.Conflict.Asserting

/-!
# The order in which variables are met

Clauses that are resolved one after the other mention their variables more than once. Met are those
above the root, each where it is mentioned first, so the literals met are known from the clauses
alone: of all variables mentioned, root variables are left out, and later mentions are erased.
-/

set_option autoImplicit false

namespace ClauseLearning

section

variable {α : Type} [DecidableEq α]

/-- In a list without repetitions every mention is a first one. -/
theorem eraseDups_eq_self {as : List α} (h : as.Nodup) : as.eraseDups = as := by
  induction as with
  | nil => rfl
  | cons a as ih =>
    obtain ⟨hfresh, hnodup⟩ := List.nodup_cons.1 h
    have hfilter : (as.filter fun b => !b == a) = as := by
      refine List.filter_eq_self.2 fun b hb => ?_
      simpa using fun heq : b = a => hfresh (heq ▸ hb)
    rw [List.eraseDups_cons, hfilter, ih hnodup]

/-- A later mention is erased. -/
theorem eraseDups_append_cons_of_mem {as : List α} {a : α} (h : a ∈ as) (bs : List α) :
    (as ++ a :: bs).eraseDups = (as ++ bs).eraseDups := by
  rw [List.eraseDups_append, List.eraseDups_append]
  simp [List.removeAll, h]

/-- What is erased from the front may be erased before. -/
theorem eraseDups_eraseDups_append (as bs : List α) :
    (as.eraseDups ++ bs).eraseDups = (as ++ bs).eraseDups := by
  rw [List.eraseDups_append, List.eraseDups_append, eraseDups_eq_self (nodup_eraseDups as)]
  simp [List.removeAll]

end

/-- The variables above the root of some literals. -/
def Trail.aboveRoot (t : Trail) (ls : List Literal) : List Variable :=
  (ls.filter fun l => decide (0 < t.level l.var)).map Literal.var

/-- A literal contributes its variable, unless that is fixed at the root. -/
theorem Trail.aboveRoot_cons (t : Trail) (l : Literal) (ls : List Literal) :
    t.aboveRoot (l :: ls) =
      if 0 < t.level l.var then l.var :: t.aboveRoot ls else t.aboveRoot ls := by
  unfold aboveRoot
  rw [List.filter_cons]
  by_cases h : 0 < t.level l.var <;> simp [h]

/-- The variables above the root of some clauses, in the order in which they are met first. -/
def View.met (v : View) (cs : List ClauseId) : List Variable :=
  (cs.flatMap fun c => v.trail.aboveRoot ((v.clauses.get? c).elim [] Clause.literals)).eraseDups

/-- One clause more adds the variables that it mentions first. -/
theorem View.met_concat {v : View} {c : ClauseId} {clause : Clause}
    (hc : v.clauses.get? c = some clause) (cs : List ClauseId) :
    v.met (cs ++ [c]) = (v.met cs ++ v.trail.aboveRoot clause.literals).eraseDups := by
  unfold met
  rw [eraseDups_eraseDups_append, List.flatMap_append, List.flatMap_singleton, hc]
  rfl

namespace Workspace

variable {v : View} {w next : Workspace}

/-- The literals of a clause are met one after the other: those of the root and those whose
variables were met before are passed over. -/
theorem vars_of_meetAll (ht : v.trail.WellFormed) (h : Tracks v.trail w) {ls : List Literal}
    {n : Nat} (hok : (meetAll v w ls).result = .ok (next, n)) :
    next.seen.map Literal.var = (w.seen.map Literal.var ++ v.trail.aboveRoot ls).eraseDups := by
  induction ls generalizing w n with
  | nil =>
    obtain ⟨rfl, -⟩ := Prod.mk.inj (Except.ok.inj hok)
    rw [Trail.aboveRoot, List.filter_nil, List.map_nil, List.append_nil,
      eraseDups_eq_self h.distinct]
  | cons l ls ih =>
    rcases cases_of_meetAll_cons hok with ⟨hpass, hrest⟩ | ⟨hpass, count, hrest, rfl⟩
    · rw [ih h hrest]
      rcases Nat.eq_zero_or_pos (v.trail.level l.var) with hroot | hpos
      · rw [Trail.aboveRoot_cons, if_neg (Nat.not_lt.2 (Nat.le_of_eq hroot))]
      · -- above the root only a variable that was met before is passed over
        unfold passesOver at hpass
        rw [Bool.or_eq_true, beq_iff_eq] at hpass
        have hseen := hpass.resolve_right (Nat.ne_of_gt hpos)
        obtain ⟨k, hk, hkl⟩ := (h.isSeen_iff l.var).1 hseen
        have hmem : l.var ∈ w.seen.map Literal.var := List.mem_map.2 ⟨k, hk, hkl⟩
        rw [Trail.aboveRoot_cons, if_pos hpos, eraseDups_append_cons_of_mem hmem]
    · have hseen : (w.absorb v.trail l).seen.map Literal.var =
          w.seen.map Literal.var ++ [l.var] := List.map_append
      rw [ih (h.absorb ht hpass) hrest, hseen, Trail.aboveRoot_cons,
        if_pos (h.of_passesOver hpass).2, List.append_assoc]
      rfl

end Workspace

end ClauseLearning
