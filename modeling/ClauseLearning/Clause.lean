import ClauseLearning.Arena

/-!
# Clauses and their store

A clause is a disjunction of literals. Clauses of the formula and learned clauses live in one
store and are named by the order in which they arrive; a stored clause never leaves and keeps its
literals. Learned clauses that are long and of high glue are *tracked*: they carry a stamp, which
says when the clause last took part in an analysis.
-/

set_option autoImplicit false

namespace ClauseLearning

/-- A stored clause. The glue is the number of its decision levels when it was learned; the stamp of
a tracked clause is the time of the last analysis that used it, zero before the first. -/
structure Clause where
  literals : List Literal
  learned : Bool
  tracked : Bool
  glue : Nat
  stamp : Nat
  deriving DecidableEq, Repr

namespace Clause

/-- The largest glue that is stored, which has thirty bits; larger values say nothing more. -/
def maxGlue : Nat := 0x3fffffff

/-- A clause of the formula. Its glue is taken to be as large as possible. -/
def ofFormula (ls : List Literal) : Clause :=
  { literals := ls, learned := false, tracked := false, glue := min ls.length maxGlue, stamp := 0 }

/-- A learned clause that never took part in an analysis. -/
def ofLearned (ls : List Literal) (glue : Nat) (tracked : Bool) : Clause :=
  { literals := ls, learned := true, tracked := tracked, glue := min glue maxGlue, stamp := 0 }

/-- The number of literals. -/
def size (c : Clause) : Nat := c.literals.length

/-- The text of a clause: its literals, each followed by a comma, and what is known about it. -/
def text (c : Clause) : String :=
  "(" ++ String.join (c.literals.map fun l => l.text ++ ",") ++ ")[learned:" ++
    toString c.learned ++ ", glue:" ++ toString c.glue ++ "]"

/-- The literal at a place, which must lie in the clause. -/
def literalAt (c : Clause) (i : Nat) : Except Fault Literal :=
  match c.literals[i]? with
  | some l => .ok l
  | none => .error (.unknownClausePosition i)

/-- The stamp of a clause that must carry one. -/
def getStamp (c : Clause) : Except Fault Nat :=
  if c.tracked then .ok c.stamp else .error .noStamp

end Clause

/-- All clauses, in the order in which they were stored, and the number of learned ones. -/
structure ClauseStore where
  clauses : Arena Clause := .empty
  numLearned : Nat := 0
  deriving DecidableEq, Repr

namespace ClauseStore

/-- The number of stored clauses. -/
def size (s : ClauseStore) : Nat := s.clauses.size

/-- The clause of a name, if it is stored. -/
def get? (s : ClauseStore) (c : ClauseId) : Option Clause := s.clauses.get? c

/-- The clause of a name, which must be stored. -/
def get (s : ClauseStore) (c : ClauseId) : Except Fault Clause :=
  match s.get? c with
  | some clause => .ok clause
  | none => .error (.unknownClause c)

/-- The stored clauses in order. -/
def toList (s : ClauseStore) : List Clause := s.clauses.toList

/-- The stored clauses in order, each with its name. -/
def entries (s : ClauseStore) : List (ClauseId × Clause) :=
  s.toList.zipIdx.map fun (c, i) => (i, c)

/-- The name that the next clause gets. -/
def nextId (s : ClauseStore) : ClauseId := s.clauses.size

/-- Store a clause under the next name. -/
def insert (s : ClauseStore) (c : Clause) : ClauseStore :=
  { clauses := s.clauses.push c, numLearned := s.numLearned + if c.learned then 1 else 0 }

/-- Store a clause of the formula, which must not be empty. -/
def insertFormula (s : ClauseStore) (ls : List Literal) : Except Fault (ClauseStore × ClauseId) :=
  if ls.isEmpty then .error .emptyClause else .ok (s.insert (.ofFormula ls), s.nextId)

/-- Store a learned clause, which must have two literals. -/
def insertLearned (s : ClauseStore) (ls : List Literal) (glue : Nat) (tracked : Bool) :
    Except Fault (ClauseStore × ClauseId) :=
  if ls.length < 2 then .error .shortLearnedClause
  else .ok (s.insert (.ofLearned ls glue tracked), s.nextId)

/-- Give a stored clause that is tracked another stamp. -/
def setStamp (s : ClauseStore) (c : ClauseId) (stamp : Nat) : Except Fault ClauseStore := do
  let clause ← s.get c
  if clause.tracked then
    .ok { s with clauses := s.clauses.set c { clause with stamp := stamp } }
  else .error .noStamp

/-- A clause can be read exactly if it is stored. -/
theorem get_eq_ok_iff {s : ClauseStore} {c : ClauseId} {clause : Clause} :
    s.get c = .ok clause ↔ s.get? c = some clause := by
  unfold get
  split <;> simp_all

/-- The clause stored last has the next name, and the others keep theirs. -/
theorem get?_insert (s : ClauseStore) (c : Clause) (k : ClauseId) :
    (s.insert c).get? k = if k = s.nextId then some c else s.get? k :=
  Arena.get?_push s.clauses c k

end ClauseStore

end ClauseLearning
