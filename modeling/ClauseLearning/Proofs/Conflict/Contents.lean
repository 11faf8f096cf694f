import ClauseLearning.Conflict.Activity

/-!
# What the stored clauses say

The contents of a clause are its literals, whether it was learned, and its glue. The mark and the
stamp of a tracked clause only say how it was used. Two stores are *alike* if they hold clauses of
the same contents in the same order; stamping leads from a store to one that is alike.
-/

set_option autoImplicit false

namespace ClauseLearning

/-- A clause without the records of its use. -/
structure Contents where
  literals : List Literal
  learned : Bool
  glue : Nat
  deriving DecidableEq, Repr

/-- What a clause says, whatever its stamp is. -/
def Clause.contents (c : Clause) : Contents := ⟨c.literals, c.learned, c.glue⟩

namespace ClauseStore

variable {s s' s'' : ClauseStore}

/-- The contents of the stored clauses, in the order in which they were stored. -/
def contents (s : ClauseStore) : List Contents := s.toList.map Clause.contents

/-- The literals of the learned clauses, in the order in which they were stored. -/
def learnedClauses (s : ClauseStore) : List (List Literal) :=
  (s.contents.filter Contents.learned).map Contents.literals

/-- The same contents are stored in the same order. -/
structure Alike (s s' : ClauseStore) : Prop where
  contents_eq : s'.contents = s.contents
  numLearned_eq : s'.numLearned = s.numLearned

/-- A stored clause adds its contents at the end. -/
theorem contents_insert (s : ClauseStore) (c : Clause) :
    (s.insert c).contents = s.contents ++ [c.contents] := by
  simp [contents, toList, insert, Arena.toList, Arena.push]

/-- A stored clause is listed at the end of the learned ones, if it was learned. -/
theorem learnedClauses_insert (s : ClauseStore) (c : Clause) :
    (s.insert c).learnedClauses = s.learnedClauses ++ if c.learned then [c.literals] else [] := by
  unfold learnedClauses
  rw [contents_insert, List.filter_append, List.map_append]
  cases hlearned : c.learned <;> simp [Clause.contents, hlearned]

/-- There are as many learned clauses as are counted. -/
theorem length_learnedClauses (s : ClauseStore) :
    s.learnedClauses.length = s.toList.countP Clause.learned := by
  unfold learnedClauses contents
  rw [List.length_map, ← List.countP_eq_length_filter, List.countP_map]
  rfl

/-- The contents of a clause stand at its place. -/
theorem getElem?_contents (s : ClauseStore) (c : ClauseId) :
    s.contents[c]? = (s.get? c).map Clause.contents := by
  simp [contents, toList, get?, Arena.toList, Arena.get?]

namespace Alike

/-- A store is like itself. -/
theorem refl (s : ClauseStore) : Alike s s := ⟨rfl, rfl⟩

/-- What is like a store that is like another one is like that one. -/
theorem trans (h : Alike s s') (h' : Alike s' s'') : Alike s s'' :=
  ⟨h'.contents_eq.trans h.contents_eq, h'.numLearned_eq.trans h.numLearned_eq⟩

/-- Being alike goes both ways. -/
theorem symm (h : Alike s s') : Alike s' s := ⟨h.contents_eq.symm, h.numLearned_eq.symm⟩

/-- A name stands for clauses of the same contents, or for none. -/
theorem get?_eq (h : Alike s s') (c : ClauseId) :
    (s'.get? c).map Clause.contents = (s.get? c).map Clause.contents := by
  rw [← getElem?_contents, ← getElem?_contents, h.contents_eq]

/-- In stores that are alike the next clause gets the same name. -/
theorem nextId_eq (h : Alike s s') : s'.nextId = s.nextId := by
  have hlength := congrArg List.length h.contents_eq
  simp only [contents, toList, Arena.toList, List.length_map, Array.length_toList] at hlength
  exact hlength

/-- Clauses with the same contents leave stores alike. -/
theorem insert {c c' : Clause} (h : Alike s s') (hc : c'.contents = c.contents) :
    Alike (s.insert c) (s'.insert c') := by
  have hlearned : c'.learned = c.learned := congrArg Contents.learned hc
  refine ⟨?_, ?_⟩
  · rw [contents_insert, contents_insert, h.contents_eq, hc]
  · show s'.numLearned + _ = s.numLearned + _
    rw [h.numLearned_eq, hlearned]

/-- Stores that are alike list the same learned clauses. -/
theorem learnedClauses_eq (h : Alike s s') : s'.learnedClauses = s.learnedClauses := by
  unfold learnedClauses
  rw [h.contents_eq]

/-- A stamp is none of the contents. -/
theorem of_setStamp {c : ClauseId} {stamp : Nat} (hok : s.setStamp c stamp = .ok s') :
    Alike s s' := by
  unfold setStamp at hok
  obtain ⟨clause, hget, hok⟩ := Fault.bind_eq_ok_iff.1 hok
  split at hok
  · obtain rfl := Except.ok.inj hok
    refine ⟨List.ext_getElem? fun k => ?_, rfl⟩
    rw [getElem?_contents, getElem?_contents]
    unfold get?
    rw [Arena.get?_set]
    split
    next hk =>
      obtain ⟨rfl, -⟩ := hk
      have hc : s.clauses.get? c = some clause := get_eq_ok_iff.1 hget
      rw [hc]
      rfl
    next => rfl
  · cases hok

/-- Stamps change no contents. -/
theorem of_stampAll {stamps : Nat} {cs : List ClauseId}
    (hok : Activity.stampAll s stamps cs = .ok s') : Alike s s' := by
  induction cs generalizing s stamps with
  | nil =>
    obtain rfl := Except.ok.inj hok
    exact .refl s
  | cons c cs ih =>
    obtain ⟨mid, hset, hrest⟩ := Fault.bind_eq_ok_iff.1 hok
    exact (of_setStamp hset).trans (ih hrest)

/-- Flushing the activity changes no contents. -/
theorem of_flush {a next : Activity} (hok : a.flush s = .ok (next, s')) : Alike s s' := by
  unfold Activity.flush at hok
  obtain ⟨_, -, hok⟩ := Fault.bind_eq_ok_iff.1 hok
  obtain ⟨stamped, hall, hok⟩ := Fault.bind_eq_ok_iff.1 hok
  obtain ⟨-, rfl⟩ := Prod.mk.inj (Except.ok.inj hok)
  exact of_stampAll hall

end Alike

end ClauseStore

end ClauseLearning
