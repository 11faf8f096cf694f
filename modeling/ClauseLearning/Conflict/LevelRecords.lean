import ClauseLearning.Arena

/-!
# Level records

While a conflict is analysed, a record is kept for every decision level: how many variables of the
level were met and the smallest of their trail positions. Records are made when a level is touched
first; a level without a record has the default one.
-/

set_option autoImplicit false

namespace ClauseLearning

/-- What an analysis has met of one decision level: the number of variables, and the smallest of
their trail positions. -/
structure LevelRecord where
  seenCount : Nat := 0
  lowest : Option Nat := none
  deriving DecidableEq, Repr, Inhabited

namespace LevelRecord

/-- The record with one more variable met, at a position. -/
def note (r : LevelRecord) (position : Nat) : LevelRecord :=
  { seenCount := r.seenCount + 1
    lowest := some (r.lowest.elim position fun m => min m position) }

/-- Whether no variable met lies below a position. -/
def startsAtOrAfter (r : LevelRecord) (position : Nat) : Bool :=
  r.lowest.all fun m => decide (position ≤ m)

end LevelRecord

/-- The records by level. There are none above the highest level that was touched. -/
structure LevelRecords where
  records : Arena LevelRecord := .empty
  deriving DecidableEq, Repr

namespace LevelRecords

/-- The record of a level, the default one if there is none. -/
def get (r : LevelRecords) (level : Nat) : LevelRecord := (r.records.get? level).getD {}

/-- Make a record for a level that has none. -/
def touch (r : LevelRecords) (level : Nat) : LevelRecords :=
  ⟨r.records.accommodate level {}⟩

/-- Replace the record of a level, which is made if there is none. -/
def set (r : LevelRecords) (level : Nat) (record : LevelRecord) : LevelRecords :=
  ⟨(r.touch level).records.set level record⟩

/-- Note in the record of a level that a variable was met at a position. -/
def note (r : LevelRecords) (level position : Nat) : LevelRecords :=
  r.set level ((r.get level).note position)

/-- Give a level its default record back. A level without a record is left as it is. -/
def reset (r : LevelRecords) (level : Nat) : LevelRecords := ⟨r.records.set level {}⟩

/-- Whether all records are the default one. -/
def isClear (r : LevelRecords) : Bool := r.records.toList.all (· == {})

/-- Writing a record changes the record of its level only, whether or not it existed. -/
theorem get_set (r : LevelRecords) (level : Nat) (x : LevelRecord) (k : Nat) :
    (r.set level x).get k = if level = k then x else r.get k := by
  unfold get set touch
  simp only [Arena.get?_set, Arena.get?_accommodate, Arena.size_accommodate]
  by_cases h : level = k
  · subst h
    have hlt : level < max r.records.size (level + 1) := by omega
    simp [hlt]
  · by_cases hk : k < r.records.size
    · simp [h, hk]
    · have hnone : r.records.get? k = none := (Arena.get?_eq_none_iff _ _).2 (by omega)
      by_cases hl : k ≤ level <;> simp [h, hk, hl, hnone]

/-- Noting a variable changes the record of its level only. -/
theorem get_note (r : LevelRecords) (level position k : Nat) :
    (r.note level position).get k = if level = k then (r.get level).note position else r.get k :=
  get_set ..

/-- A level that is reset has the default record again, the others keep theirs. -/
theorem get_reset (r : LevelRecords) (level k : Nat) :
    (r.reset level).get k = if level = k then {} else r.get k := by
  unfold get reset
  simp only [Arena.get?_set]
  by_cases h : level = k
  · subst h
    by_cases hk : level < r.records.size
    · simp [hk]
    · have hnone : r.records.get? level = none := (Arena.get?_eq_none_iff _ _).2 (by omega)
      simp [hk, hnone]
  · simp [h]

end LevelRecords

end ClauseLearning
