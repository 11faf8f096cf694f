import ClauseLearning.Decision.Queue
import ClauseLearning.Decision.Scores
import ClauseLearning.Sorting

/-!
# The order of bumps

The variables met in a conflict are bumped one after the other, and the variable bumped last ends
up frontmost in the decision queue. The order of the bumps therefore decides which of these
variables is decided on first. All orders by a key are stable.
-/

set_option autoImplicit false

namespace ClauseLearning

/-- The order in which the variables of a conflict are bumped: as they were met, by the stamp of the
previous bump, by the trail position, by the sum of both, by the score, or in reverse. -/
inductive BumpOrder where
  | unsorted
  | bumpedEarlier
  | trailSmaller
  | bumpedPlusTrail
  | scoreSmaller
  | reverse
  deriving DecidableEq, Repr, Inhabited

namespace BumpOrder

/-- The orders in the order of their numbers. -/
def all : List BumpOrder :=
  [unsorted, bumpedEarlier, trailSmaller, bumpedPlusTrail, scoreSmaller, reverse]

/-- The number by which an order is chosen. -/
def number : BumpOrder → Nat
  | unsorted => 0
  | bumpedEarlier => 1
  | trailSmaller => 2
  | bumpedPlusTrail => 3
  | scoreSmaller => 4
  | reverse => 5

/-- The order with a given number, if there is one. -/
def ofNumber? (n : Nat) : Option BumpOrder := all[n]?

/-- The name by which an order is chosen. -/
def name : BumpOrder → String
  | unsorted => "unsorted"
  | bumpedEarlier => "bumped-earlier"
  | trailSmaller => "trail-smaller"
  | bumpedPlusTrail => "bumped-plus-trail"
  | scoreSmaller => "score-smaller"
  | reverse => "reverse"

/-- The text with the capital letters of the Latin alphabet without marks made small. -/
def foldCase (s : String) : String := s.map Char.toLower

/-- The order with a given name. On request the case of the letters from A to Z is ignored. -/
def ofName? (s : String) (ignoreCase : Bool) : Option BumpOrder :=
  all.find? fun o => if ignoreCase then foldCase o.name == foldCase s else o.name == s

/-- What is needed to know the key of a variable. -/
def requireKey (q : DecisionQueue) (s : Scores Binary64) (t : Trail) (v : Variable) :
    BumpOrder → Except Fault Unit
  | unsorted => .ok ()
  | bumpedEarlier => q.requireStamp v
  | trailSmaller => t.require v
  | bumpedPlusTrail => do
    q.requireStamp v
    t.require v
  | scoreSmaller => s.require v
  | reverse => .ok ()

/-- The literals in the order of the bumps, where their variables have keys. -/
def arrange (o : BumpOrder) (q : DecisionQueue) (s : Scores Binary64) (t : Trail)
    (ls : List Literal) : List Literal :=
  match o with
  | unsorted => ls
  | bumpedEarlier => sortByKey (fun l => q.stamp l.var) ls
  | trailSmaller => sortByKey (fun l => t.position l.var) ls
  | bumpedPlusTrail => sortByKey (fun l => q.stamp l.var + t.position l.var) ls
  | scoreSmaller => sortByKey (fun l => (s.score l.var).orderKey) ls
  | reverse => ls.reverse

/-- What is needed to know the keys of literals. With fewer than two literals no key is needed. -/
def requireKeys (o : BumpOrder) (q : DecisionQueue) (s : Scores Binary64) (t : Trail)
    (ls : List Literal) : Except Fault Unit :=
  if 2 ≤ ls.length then ls.forM fun l => o.requireKey q s t l.var else .ok ()

/-- The literals in the order of the bumps, where variables may lack a key. -/
def arrangeKnown (o : BumpOrder) (q : DecisionQueue) (s : Scores Binary64) (t : Trail)
    (ls : List Literal) : Except Fault (List Literal) := do
  o.requireKeys q s t ls
  .ok (o.arrange q s t ls)

/-- Where the keys are known, the literals are put in the order of the bumps. -/
theorem arrangeKnown_eq_ok_iff {o : BumpOrder} {q : DecisionQueue} {s : Scores Binary64} {t : Trail}
    {ls arranged : List Literal} : o.arrangeKnown q s t ls = .ok arranged ↔
      o.requireKeys q s t ls = .ok () ∧ arranged = o.arrange q s t ls := Fault.bind_ok_eq_ok_iff

end BumpOrder

end ClauseLearning
