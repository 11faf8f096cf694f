import ClauseLearning.Literal

/-!
# The proof log

Derived clauses are written to a proof, one line per clause: the signed numbers of its literals and
a closing zero. The writer may have limited room. A write that does not fit is cut where the room
ends and fails; later clauses are tried again, and fail as well, because every line has text.
-/

set_option autoImplicit false

namespace ClauseLearning

/-- Why a write failed. -/
inductive WriteError where
  | diskFull
  | flushFailed
  deriving DecidableEq, Repr

namespace WriteError

/-- The words for a failure. -/
def message : WriteError → String
  | diskFull => "disk full"
  | flushFailed => "flush failed"

end WriteError

/-- A writer with the text that it took so far, and with the number of characters that it still
takes if it is limited. -/
structure Writer where
  written : List Char := []
  room : Option Nat := none
  flushFails : Bool := false
  deriving DecidableEq, Repr

namespace Writer

/-- The part of a text for which there is room. -/
def fitting (w : Writer) (text : List Char) : List Char :=
  match w.room with
  | some n => text.take n
  | none => text

/-- Whether there is room for a whole text. -/
def fits (w : Writer) (text : List Char) : Bool :=
  match w.room with
  | some n => decide (text.length ≤ n)
  | none => true

/-- Write as much of a text as there is room for. -/
def write (w : Writer) (text : List Char) : Writer :=
  { w with
    written := w.written ++ w.fitting text
    room := w.room.map fun n => n - text.length }

end Writer

/-- A proof, which is logged to a writer if there is one. -/
structure ProofLog where
  writer : Option Writer := none
  deriving DecidableEq, Repr

namespace ProofLog

/-- Whether the proof is written anywhere. -/
def isLogging (p : ProofLog) : Bool := p.writer.isSome

/-- The text written so far, if the proof is logged. -/
def text (p : ProofLog) : Option String := p.writer.map fun w => String.ofList w.written

/-- The line of a clause. -/
def line (ls : List Literal) : List Char :=
  (ls.flatMap fun l => l.text.toList ++ [' ']) ++ ['0', '\n']

/-- Log a clause. The answer tells whether its line was written. -/
def logClause (p : ProofLog) (ls : List Literal) : ProofLog × Except WriteError Unit :=
  match p.writer with
  | none => (p, .ok ())
  | some w =>
    (⟨some (w.write (line ls))⟩,
      if w.fits (line ls) then .ok () else .error .diskFull)

/-- Log a clause of one literal. -/
def logUnit (p : ProofLog) (l : Literal) : ProofLog × Except WriteError Unit := p.logClause [l]

/-- Log the empty clause, with which a proof ends, and flush the writer. -/
def logEmpty (p : ProofLog) : ProofLog × Except WriteError Unit :=
  match p.logClause [] with
  | (q, .ok ()) =>
    if q.writer.any Writer.flushFails then (q, .error .flushFailed) else (q, .ok ())
  | failed => failed

end ProofLog

end ClauseLearning
