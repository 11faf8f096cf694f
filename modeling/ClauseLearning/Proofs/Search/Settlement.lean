import ClauseLearning.Proofs.Solver.Conflict
import ClauseLearning.Solver.Propagation

/-!
# Settled clauses

A level of the trail *settles* a clause if, by the assignments up to that level, the clause has a
true literal or two literals that are not false: it asks for nothing there. What happens above a
level does not change which clauses the level settles.

If all lower levels settle a clause and the clause is false, it has a literal of the current level.
This is what the analysis of a conflict needs.
-/

set_option autoImplicit false

namespace ClauseLearning

namespace Trail

/-- Up to a level a clause has a true literal or two literals that are not false. -/
def Settles (t : Trail) (level : Nat) (ls : List Literal) : Prop :=
  (∃ l ∈ ls, t.isTrue l = true ∧ t.level l.var ≤ level) ∨
    ∃ k ∈ ls, ∃ l ∈ ls, k ≠ l ∧ ¬ (t.isFalse k = true ∧ t.level k.var ≤ level) ∧
      ¬ (t.isFalse l = true ∧ t.level l.var ≤ level)

variable {t : Trail} {level : Nat} {ls : List Literal}

/-- Which clauses are settled depends on the literals that are true up to the level. -/
theorem Settles.congr (h : t.Settles level ls) {u : Trail}
    (htrue : ∀ l, (u.isTrue l = true ∧ u.level l.var ≤ level) ↔
      (t.isTrue l = true ∧ t.level l.var ≤ level)) : u.Settles level ls := by
  have hfalse : ∀ l, (u.isFalse l = true ∧ u.level l.var ≤ level) ↔
      (t.isFalse l = true ∧ t.level l.var ≤ level) := by
    intro l
    have hnegate := htrue l.negate
    rw [isTrue_negate, isTrue_negate, Literal.negate_var] at hnegate
    exact hnegate
  rcases h with ⟨l, hl, hup⟩ | ⟨k, hk, l, hl, hne, hkup, hlup⟩
  · exact Or.inl ⟨l, hl, (htrue l).2 hup⟩
  · exact Or.inr ⟨k, hk, l, hl, hne, fun h => hkup ((hfalse k).1 h), fun h => hlup ((hfalse l).1 h)⟩

/-- A new variable leaves what a level settles. -/
theorem Settles.grow (h : t.Settles level ls) : t.grow.Settles level ls := by
  refine h.congr fun l => ?_
  rw [isTrue_grow, level_grow]

/-- An assignment above a level leaves what the level settles. -/
theorem Settles.push (h : t.Settles level ls) {l : Literal} {r : Option ClauseId}
    (hl : l.var < t.numVariables) (hfree : t.isAssigned l.var = false)
    (hlt : level < t.currentLevel) : (t.push l r).Settles level ls := by
  refine h.congr fun k => ?_
  rw [isTrue_push hl hfree, level_push hl]
  by_cases hvar : l.var = k.var
  · have hno : ¬ t.isTrue k = true := by
      intro hk
      rw [hvar, isAssigned_of_isTrue hk] at hfree
      cases hfree
    rw [if_pos hvar]
    constructor
    · rintro ⟨-, hle⟩
      omega
    · rintro ⟨hk, -⟩
      exact absurd hk hno
  · have hne : k ≠ l := fun heq => hvar (heq ▸ rfl)
    rw [if_neg hvar]
    simp only [hne, false_or]

/-- A decision leaves what the levels before it settle. -/
theorem Settles.push_openLevel (h : t.Settles level ls) {l : Literal} {r : Option ClauseId}
    (hl : l.var < t.numVariables) (hfree : t.isAssigned l.var = false)
    (hle : level ≤ t.currentLevel) : (t.openLevel.push l r).Settles level ls := by
  have hopen : t.openLevel.Settles level ls := h
  refine hopen.push hl hfree ?_
  rw [currentLevel_openLevel]
  omega

/-- Undoing the levels above a level leaves what the level settles. -/
theorem Settles.cut (h : t.Settles level ls) (ht : t.WellFormed) {bound : Nat}
    (hle : level ≤ bound) : (t.cut bound).Settles level ls := by
  refine h.congr fun l => ?_
  rw [ht.isTrue_cut, ht.level_cut]
  constructor
  · rintro ⟨⟨hl, hbound⟩, hlevel⟩
    rw [if_pos hbound] at hlevel
    exact ⟨hl, hlevel⟩
  · rintro ⟨hl, hlevel⟩
    have hbound : t.level l.var ≤ bound := Nat.le_trans hlevel hle
    rw [if_pos hbound]
    exact ⟨⟨hl, hbound⟩, hlevel⟩

/-- A false clause that a level settles has a literal of a higher level. -/
theorem Settles.exists_above (h : t.Settles level ls) (hfalse : ∀ l ∈ ls, t.isFalse l = true) :
    ∃ l ∈ ls, level < t.level l.var := by
  rcases h with ⟨l, hl, htrue, -⟩ | ⟨k, hk, -, -, -, hup, -⟩
  · have hno := isFalse_eq_false_of_isTrue htrue
    rw [hfalse l hl] at hno
    cases hno
  · refine ⟨k, hk, Nat.lt_of_not_le fun hle => hup ⟨hfalse k hk, hle⟩⟩

/-! ## The standing of a clause -/

/-- A clause that is found to be false has only false literals. -/
theorem isFalse_of_demand (h : t.demand ls = .falsified) : ∀ l ∈ ls, t.isFalse l = true := by
  intro l hl
  unfold demand at h
  split at h
  next hnil =>
    by_contra hno
    have hmem : l ∈ ls.filter fun l => !t.isFalse l := by
      rw [List.mem_filter, Bool.eq_false_iff.2 hno]
      exact ⟨hl, rfl⟩
    rw [hnil] at hmem
    cases hmem
  next => cases h
  next => cases h

/-- A literal that a clause without true literals asks for is free, and the others are false. -/
theorem unit_of_demand {l : Literal} (htrue : ∀ k ∈ ls, t.isTrue k = false)
    (h : t.demand ls = .unit l) :
    l ∈ ls ∧ t.isAssigned l.var = false ∧ ∀ k ∈ ls, k ≠ l → t.isFalse k = true := by
  unfold demand at h
  split at h
  · cases h
  next found hfilter =>
    obtain rfl : found = l := ClauseStanding.unit.inj h
    have hmem : found ∈ ls.filter fun k => !t.isFalse k := hfilter ▸ List.mem_singleton_self _
    obtain ⟨hl, hfalse⟩ := List.mem_filter.1 hmem
    refine ⟨hl, Bool.eq_false_iff.2 fun hassigned => ?_, fun k hk hne => ?_⟩
    · rcases isTrue_or_isFalse hassigned with hup | hup
      · rw [htrue found hl] at hup
        cases hup
      · rw [hup] at hfalse
        cases hfalse
    · by_contra hno
      have hkmem : k ∈ ls.filter fun k => !t.isFalse k := by
        rw [List.mem_filter, Bool.eq_false_iff.2 hno]
        exact ⟨hk, rfl⟩
      rw [hfilter] at hkmem
      exact hne (List.mem_singleton.1 hkmem)
  · cases h

/-- A clause without repeated literals that has two literals which are not false is settled by the
current level. -/
theorem settles_of_demand (hnodup : ls.Nodup) (hfalsified : t.demand ls ≠ .falsified)
    (hunit : ∀ l, t.demand ls ≠ .unit l) : t.Settles t.currentLevel ls := by
  unfold demand at hfalsified hunit
  have hdistinct := hnodup.filter fun l => !t.isFalse l
  have hmem : ∀ l ∈ ls.filter fun l => !t.isFalse l, l ∈ ls ∧ t.isFalse l ≠ true := by
    intro l hl
    obtain ⟨hl, hup⟩ := List.mem_filter.1 hl
    rw [Bool.not_eq_true'] at hup
    exact ⟨hl, Bool.eq_false_iff.1 hup⟩
  match hfilter : ls.filter fun l => !t.isFalse l with
  | [] => exact absurd (by rw [hfilter]) hfalsified
  | [l] => exact absurd (by rw [hfilter]) (hunit l)
  | k :: l :: rest =>
    rw [hfilter] at hdistinct hmem
    obtain ⟨hk, hkup⟩ := hmem k List.mem_cons_self
    obtain ⟨hl, hlup⟩ := hmem l (List.mem_cons_of_mem _ List.mem_cons_self)
    have hne : k ≠ l := fun heq => (List.nodup_cons.1 hdistinct).1 (heq ▸ List.mem_cons_self)
    exact Or.inr ⟨k, hk, l, hl, hne, fun h => hkup h.1, fun h => hlup h.1⟩

/-- What the standing of a clause tells about its literals. -/
def Stands (t : Trail) (ls : List Literal) : ClauseStanding → Prop
  | .falsified => ∀ l ∈ ls, t.isFalse l = true
  | .unit l => l ∈ ls ∧ t.isAssigned l.var = false ∧ ∀ k ∈ ls, k ≠ l → t.isFalse k = true
  | _ => t.Settles t.currentLevel ls

/-- A clause over existing variables, without repeated literals, has a standing. -/
theorem exists_standing (ht : t.WellFormed) (hnodup : ls.Nodup)
    (hknown : ∀ l ∈ ls, l.var < t.numVariables) :
    ∃ standing, t.standing ls = .ok standing ∧ t.Stands ls standing := by
  unfold standing
  rw [anyTrue_eq_any hknown]
  by_cases hany : ls.any t.isTrue = true
  · rw [hany]
    obtain ⟨l, hl, hup⟩ := List.any_eq_true.1 hany
    exact ⟨.satisfied, rfl, Or.inl ⟨l, hl, hup, ht.level_le l.var⟩⟩
  · rw [Bool.eq_false_iff.2 hany]
    have htrue : ∀ k ∈ ls, t.isTrue k = false := fun k hk =>
      Bool.eq_false_iff.2 fun hup => hany (List.any_eq_true.2 ⟨k, hk, hup⟩)
    refine ⟨t.demand ls, rfl, ?_⟩
    unfold Stands
    split
    next hfalsified => exact isFalse_of_demand hfalsified
    next l hunit => exact unit_of_demand htrue hunit
    next hfalsified hunit => exact settles_of_demand hnodup hfalsified hunit

end Trail

/-- A proper clause repeats no literal. -/
theorem Clause.Proper.nodup {n : Nat} {c : Clause} (h : c.Proper n) : c.literals.Nodup :=
  List.Nodup.of_map _ h.distinct

namespace Solver

variable {s next : Solver}

/-- A level settles all stored clauses. -/
def SettledAt (s : Solver) (level : Nat) : Prop :=
  ∀ c clause, s.clauses.get? c = some clause → s.trail.Settles level clause.literals

/-- A false clause has a literal of the current level if the level below settles it. -/
theorem Falsified.meetsCurrent {c : ClauseId} (h : s.Falsified c) (hs : s.Coherent)
    (hlower : ∀ level < s.currentLevel, s.SettledAt level) (hpos : 0 < s.currentLevel) :
    s.MeetsCurrent c := by
  obtain ⟨conflict, hc, hfalse⟩ := h
  have hsettled := hlower (s.currentLevel - 1) (by omega) c conflict hc
  obtain ⟨l, hl, hlt⟩ := hsettled.exists_above hfalse
  have hle : s.trail.level l.var ≤ s.currentLevel := hs.trail.level_le l.var
  exact ⟨conflict, hc, l, hl, by omega⟩

end Solver

end ClauseLearning
