import ClauseLearning.Clause
import ClauseLearning.Number.Decimal
import ClauseLearning.ProofLog

/-!
# Events

While it works the solver tells what it does. An event is one such message, kept as data;
`Event.severity` ranks it and `Event.text` words it.
-/

set_option autoImplicit false

namespace ClauseLearning

/-- How urgent a message is: something is wrong but work goes on, or it is about the whole search,
single operations or single literals. -/
inductive Severity where
  | warn
  | info
  | debug
  | trace
  deriving DecidableEq, Repr

namespace Severity

/-- The word that names a severity in a log. -/
def text : Severity → String
  | warn => "warn"
  | info => "info"
  | debug => "debug"
  | trace => "trace"

/-- The place of a severity in the order of urgency, the most urgent first. -/
def rank : Severity → Nat
  | warn => 0
  | info => 1
  | debug => 2
  | trace => 3

end Severity

/-- The figures of a progress report: why it was made, conflicts, learned clauses, variables fixed
at the root and remaining, the averages of the glue, and the average backjump level. -/
structure Progress where
  tag : Char
  conflicts : Nat
  learned : Nat
  fixed : Nat
  remaining : Nat
  fastGlue : Binary64
  slowGlue : Binary64
  jump : Binary64
  deriving DecidableEq, Repr

/-- A message of the solver. The last four constructors are findings of audits, and the three before
them say which clause is missing in the proof. -/
inductive Event where
  | deciding (l : Literal) (level : Nat)
  | learnedUnit (l : Literal)
  | learnedEmpty
  | analysingConflict (c : Clause) (level : Nat)
  | firstUip (l : Literal)
  | analysingReason (c : Clause) (l : Literal)
  | foundLevel (level : Nat)
  | analysedLiteral (l : Literal) (level : Nat)
  | firstUipClause (size glue : Nat)
  | minimised (l : Literal) (depth : Nat) (removable : Bool)
  | minimisationRemoved (count : Nat)
  | learnedClause (c : Clause) (glue : Nat)
  | bumped (v : Variable)
  | rescored (count : Nat)
  | progress (p : Progress)
  | clauseNotLogged (e : WriteError)
  | unitNotLogged (e : WriteError)
  | emptyNotLogged (e : WriteError)
  | reasonWithoutLiteral (c : ClauseId) (l : Literal)
  | repeatedVariable (ls : List Literal)
  | unfalsifiedLiteral (l : Literal)
  | literalsAtLevel (ls : List Literal) (count : Nat)
  deriving DecidableEq, Repr

namespace Progress

/-- A number written to the right end of a field of a given width. -/
def field (width n : Nat) : String :=
  let s := toString n
  String.ofList (List.replicate (width - s.length) ' ') ++ s

/-- The progress report in one line. -/
def text (p : Progress) : String :=
  p.tag.toString ++ " " ++ field 8 p.conflicts ++ " conflicts " ++ field 8 p.learned ++
    " learned " ++ field 6 p.fixed ++ " fixed " ++ field 6 p.remaining ++ " remaining glue " ++
    p.fastGlue.tenths ++ "/" ++ p.slowGlue.tenths ++ " jump " ++ p.jump.tenths

end Progress

namespace Event

/-- The severity with which a message is told. -/
def severity : Event → Severity
  | deciding .. | learnedUnit _ | learnedEmpty | analysingConflict .. | firstUipClause ..
  | learnedClause .. | rescored _ => .debug
  | firstUip _ | analysingReason .. | foundLevel _ | analysedLiteral .. | minimised ..
  | minimisationRemoved _ | bumped _ => .trace
  | progress _ => .info
  | clauseNotLogged _ | unitNotLogged _ | emptyNotLogged _ | reasonWithoutLiteral ..
  | repeatedVariable _ | unfalsifiedLiteral _ | literalsAtLevel .. => .warn

/-- The wording of a message. -/
def text : Event → String
  | deciding l level => "deciding " ++ l.text ++ " at level " ++ toString level
  | learnedUnit l => "learned unit clause " ++ l.text
  | learnedEmpty => "learned empty clause"
  | analysingConflict c level =>
    "analysing conflict " ++ c.text ++ " at level " ++ toString level
  | firstUip l => "first UIP " ++ l.text
  | analysingReason c l => "analysing reason " ++ c.text ++ " of " ++ l.text
  | foundLevel level => "found new level " ++ toString level ++ " contributing to conflict"
  | analysedLiteral l level =>
    "analysed literal " ++ l.text ++ " assigned at level " ++ toString level
  | firstUipClause size glue =>
    "first UIP clause of size " ++ toString size ++ " and glue " ++ toString glue
  | minimised l depth removable =>
    "minimised " ++ l.text ++ " at depth " ++ toString depth ++ ": removable = " ++
      toString removable
  | minimisationRemoved count => "minimisation removed " ++ toString count ++ " literals"
  | learnedClause c glue => "learned clause " ++ c.text ++ " with glue " ++ toString glue
  | bumped v => "VMTF bumped and moved to front " ++ Variable.text v
  | rescored count => "rescore " ++ toString count
  | progress p => p.text
  | clauseNotLogged e => "Failed to log learned clause to the proof: " ++ e.message
  | unitNotLogged e => "Failed to log unit clause to the proof: " ++ e.message
  | emptyNotLogged e => "Failed to log the empty clause to the proof: " ++ e.message
  | reasonWithoutLiteral c l =>
    "Reason " ++ ClauseId.text c ++ " does not contain the propagated literal " ++ l.text
  | repeatedVariable ls =>
    "Learned clause " ++ Literal.listText ls ++ " contains a variable more than once"
  | unfalsifiedLiteral l => "Learned clause literal " ++ l.text ++ " is not falsified"
  | literalsAtLevel ls count =>
    "Learned clause " ++ Literal.listText ls ++ " has " ++ toString count ++
      " literals at the current level"

/-- The line of a log: the severity, a colon and the wording. -/
def line (e : Event) : String := e.severity.text ++ ": " ++ e.text

/-- The message owed for the outcome of a write: none if it succeeded. -/
def ofWrite (failed : WriteError → Event) : Except WriteError Unit → List Event
  | .ok () => []
  | .error e => [failed e]

end Event

end ClauseLearning
