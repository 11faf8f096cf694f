/-!
# Variables and literals

A literal is a variable together with a polarity. Variables are numbered from zero inside the
library and printed from one, so the literal printed `-3` is the negation of variable number two.
Two numberings of the literals are used: the signed number `dimacs`, which is what people and
proofs read, and the `code`, which orders the literals of a stored clause.
-/

set_option autoImplicit false

namespace ClauseLearning

/-- A propositional variable, numbered from zero. -/
abbrev Variable := Nat

/-- The name of a stored clause: the number of clauses stored before it. -/
abbrev ClauseId := Nat

namespace Variable

/-- The number under which a variable is printed. -/
def text (v : Variable) : String := toString (v + 1)

end Variable

namespace ClauseId

/-- The name under which a clause is printed. -/
def text (c : ClauseId) : String := "c" ++ toString c

end ClauseId

/-- A variable or its negation. -/
structure Literal where
  var : Variable
  positive : Bool
  deriving DecidableEq, Repr, Inhabited

namespace Literal

/-- The literal of the same variable with the other polarity. -/
def negate (l : Literal) : Literal := { l with positive := !l.positive }

/-- Whether the literal is a negated variable. -/
def negative (l : Literal) : Bool := !l.positive

/-- The position of the literal in the order of clauses: the literals of variable `v` have the
numbers `2 * v` and `2 * v + 1`, the positive one first. -/
def code (l : Literal) : Nat := 2 * l.var + if l.positive then 0 else 1

/-- The literal with a given code. Codes are words of 32 bits, higher bits are dropped. -/
def ofCode (n : Nat) : Literal :=
  let word := n % 0x100000000
  { var := word / 2, positive := word % 2 == 0 }

/-- The signed number of the literal. -/
def dimacs (l : Literal) : Int :=
  if l.positive then (l.var : Int) + 1 else -((l.var : Int) + 1)

/-- The literal with a given signed number; zero names no literal. -/
def ofDimacs? (d : Int) : Option Literal :=
  if d = 0 then none else some { var := d.natAbs - 1, positive := decide (0 < d) }

/-- The signed number as a text. -/
def text (l : Literal) : String := toString l.dimacs

/-- The text of a list of literals, in brackets and with commas between them. -/
def listText (ls : List Literal) : String :=
  "[" ++ String.intercalate ", " (ls.map text) ++ "]"

/-- The order of literals by their codes. -/
def compareByCode (a b : Literal) : Ordering := compare a.code b.code

/-- Insertion into a list of literals that is strictly sorted by code; a literal that is there
already is not repeated. -/
def insertByCode (l : Literal) : List Literal → List Literal
  | [] => [l]
  | h :: t =>
    if l.code < h.code then l :: h :: t
    else if l.code = h.code then h :: t
    else h :: insertByCode l t

/-- The distinct literals of a list in increasing code order. -/
def sortDistinct (ls : List Literal) : List Literal := ls.foldr insertByCode []

/-- Whether two neighbours of a list share their variable. In a list that is strictly sorted by
code this happens exactly when the list holds a literal and its negation. -/
def hasNeighbourPair : List Literal → Bool
  | a :: b :: rest => a.var == b.var || hasNeighbourPair (b :: rest)
  | _ => false

/-- A literal and its negation are about the same variable. -/
@[simp] theorem negate_var (l : Literal) : l.negate.var = l.var := rfl

/-- The negation has the other sign. -/
@[simp] theorem negate_positive (l : Literal) : l.negate.positive = !l.positive := rfl

/-- Negating twice gives the literal back. -/
@[simp] theorem negate_negate (l : Literal) : l.negate.negate = l := by
  cases l; simp [negate]

/-- Different literals have different codes. -/
theorem eq_of_code_eq {a b : Literal} (h : a.code = b.code) : a = b := by
  obtain ⟨va, pa⟩ := a
  obtain ⟨vb, pb⟩ := b
  have hv : va = vb ∧ pa = pb := by
    cases pa <;> cases pb <;> simp only [code] at h <;> grind
  rw [hv.1, hv.2]

/-- Inserting adds the literal, if it is not there already. -/
theorem mem_insertByCode {a l : Literal} {ls : List Literal} :
    a ∈ insertByCode l ls ↔ a = l ∨ a ∈ ls := by
  induction ls with
  | nil => simp [insertByCode]
  | cons h t ih =>
    unfold insertByCode
    split
    · simp
    · split
      next heq => simp [eq_of_code_eq heq]
      · simp [ih, or_left_comm]

/-- Sorting without repetition keeps the literals that occur. -/
theorem mem_sortDistinct {a : Literal} {ls : List Literal} : a ∈ sortDistinct ls ↔ a ∈ ls := by
  induction ls with
  | nil => simp [sortDistinct]
  | cons h t ih =>
    rw [show sortDistinct (h :: t) = insertByCode h (sortDistinct t) from rfl,
      mem_insertByCode, ih, List.mem_cons]

end Literal

end ClauseLearning
