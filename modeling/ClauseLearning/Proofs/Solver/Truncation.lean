import ClauseLearning.Proofs.ProofReader
import ClauseLearning.Proofs.Solver.Derivation

/-!
# A proof that was cut off

A line reaches the writer in pieces: the numbers, the blanks, the end. The first piece that does not
fit is cut, and the rest of the line is not written; but later lines are. Because the writer takes
nothing any more once a piece did not fit, all of this comes to the same as cutting the text of all
lines where the room ends. In particular no character of a later line gets behind a line that was
cut, and what can be read of the text are the first of the clauses that were handed to the proof.
-/

set_option autoImplicit false

namespace ClauseLearning

namespace Writer

/-- Write pieces one after the other, up to the first one that does not fit. The answer tells
whether all of them did. -/
def writePieces (w : Writer) : List (List Char) → Writer × Bool
  | [] => (w, true)
  | piece :: pieces =>
    if w.fits piece then (w.write piece).writePieces pieces else (w.write piece, false)

/-- Pieces that are written one after the other are written like the whole text. -/
theorem writePieces_eq (w : Writer) (pieces : List (List Char)) :
    w.writePieces pieces = (w.write pieces.flatten, w.fits pieces.flatten) := by
  induction pieces generalizing w with
  | nil =>
    obtain ⟨written, room, flushFails⟩ := w
    cases room <;> simp [writePieces, write, fits, fitting]
  | cons piece pieces ih =>
    obtain ⟨written, room, flushFails⟩ := w
    unfold writePieces
    rw [List.flatten_cons, ih]
    cases room with
    | none => simp [write, fits, fitting]
    | some n =>
      by_cases hfits : piece.length ≤ n
      · simp [write, fits, fitting, hfits, List.take_append, List.take_of_length_le hfits]
        omega
      · simp [write, fits, fitting, hfits, List.take_append]
        omega

end Writer

namespace ProofLog

/-- The ways in which a clause is handed to a proof. -/
inductive Entry where
  | clause (ls : List Literal)
  | unit (l : Literal)
  | empty
  deriving DecidableEq, Repr

/-- The literals of the clause that is handed over. -/
def Entry.literals : Entry → List Literal
  | .clause ls => ls
  | .unit l => [l]
  | .empty => []

/-- Hand a clause to the proof. The answer tells whether it was written. -/
def record (p : ProofLog) : Entry → ProofLog × Except WriteError Unit
  | .clause ls => p.logClause ls
  | .unit l => p.logUnit l
  | .empty => p.logEmpty

/-- Hand clauses to the proof one after the other, whether or not they are written. -/
def recordAll (p : ProofLog) (entries : List Entry) : ProofLog :=
  entries.foldl (fun p e => (p.record e).1) p

/-- In whatever way a clause is handed over, its line is written. -/
theorem record_fst (p : ProofLog) (e : Entry) : (p.record e).1 = (p.logClause e.literals).1 := by
  cases e with
  | clause ls => rfl
  | unit l => rfl
  | empty => exact p.logEmpty_fst

/-- Clauses handed over are logged line by line. -/
theorem recordAll_eq (p : ProofLog) (entries : List Entry) :
    p.recordAll entries = p.logAll (entries.map Entry.literals) := by
  induction entries generalizing p with
  | nil => rfl
  | cons e entries ih =>
    show (p.record e).1.recordAll entries = (p.logClause e.literals).1.logAll _
    rw [ih, record_fst]

/-- It does not matter in which pieces the lines reach the writer. -/
theorem writer_recordAll {p : ProofLog} {w : Writer} (hw : p.writer = some w)
    {entries : List Entry} {pieces : List (List (List Char))}
    (hpieces : pieces.map List.flatten = entries.map fun e => line e.literals) :
    (p.recordAll entries).writer =
      some (pieces.foldl (fun w ps => (w.writePieces ps).1) w) := by
  induction entries generalizing p w pieces with
  | nil =>
    obtain rfl := List.map_eq_nil_iff.1 hpieces
    exact hw
  | cons e entries ih =>
    rw [List.map_cons] at hpieces
    obtain ⟨ps, pieces, rfl, hps, hrest⟩ := List.map_eq_cons_iff.1 hpieces
    have hwritten : (p.record e).1.writer = some (w.writePieces ps).1 := by
      rw [record_fst, Writer.writePieces_eq, hps]
      unfold logClause
      rw [hw]
    exact ih (p := (p.record e).1) hwritten hrest

/-- A writer of limited room takes the first part of all lines together. -/
theorem writer_logAll_of_room {p : ProofLog} {w : Writer} {n : Nat} (hw : p.writer = some w)
    (hroom : w.room = some n) (lines : Formula) :
    (p.logAll lines).writer = some { w with
      written := w.written ++ (lines.flatMap line).take n
      room := some (n - (lines.flatMap line).length) } := by
  induction lines generalizing p w n with
  | nil =>
    obtain ⟨written, room, flushFails⟩ := w
    obtain rfl : room = some n := hroom
    rw [List.flatMap_nil, List.take_nil, List.append_nil]
    exact hw
  | cons ls lines ih =>
    have hwrite : (p.logClause ls).1.writer = some { w with
        written := w.written ++ (line ls).take n, room := some (n - (line ls).length) } := by
      unfold logClause
      rw [hw]
      show some (w.write (line ls)) = _
      unfold Writer.write Writer.fitting
      rw [hroom]
      rfl
    have hrest := ih hwrite rfl
    rw [List.flatMap_cons, List.take_append, List.length_append, ← List.append_assoc,
      ← Nat.sub_sub]
    exact hrest

/-- A writer with limited room takes the first part of the lines. -/
theorem text_logAll_of_room {w : Writer} {n : Nat} (hroom : w.room = some n) (lines : Formula) :
    ((⟨some w⟩ : ProofLog).logAll lines).text =
      some (String.ofList (w.written ++ (lines.flatMap line).take n)) := by
  unfold text
  rw [writer_logAll_of_room rfl hroom]
  rfl

/-- The text of a reliable writer is read as the clauses that were handed to the proof. A writer
with limited room takes the first bytes of this text, and its complete lines are read as the first
of the clauses. All of this holds in whatever pieces the lines reach the writer. -/
theorem text_decodes (entries : List Entry) (flushFails : Bool) :
    (∃ text : String,
      ((⟨some { flushFails := flushFails }⟩ : ProofLog).recordAll entries).text = some text ∧
      readText text.toList = some (entries.map Entry.literals, []) ∧
      ∀ n : Nat, ∃ cut : String,
        ((⟨some { room := some n, flushFails := flushFails }⟩ : ProofLog).recordAll entries).text =
          some cut ∧
        bytes cut = (bytes text).take n ∧
        ∃ rest, readText cut.toList =
          some ((entries.map Entry.literals).take (cut.toList.count '\n'), rest)) ∧
    ∀ (w : Writer) (pieces : List (List (List Char))),
      (pieces.map List.flatten = entries.map fun e => line e.literals) →
      ((⟨some w⟩ : ProofLog).recordAll entries).writer =
        some (pieces.foldl (fun w ps => (w.writePieces ps).1) w) := by
  refine ⟨?_, fun w pieces hpieces => writer_recordAll rfl hpieces⟩
  generalize hlines : entries.map Entry.literals = lines
  refine ⟨String.ofList (lines.flatMap line), ?_, ?_, fun n => ?_⟩
  · rw [recordAll_eq, hlines]
    exact text_logAll rfl lines
  · rw [String.toList_ofList]
    have hread := readText_lines lines List.not_mem_nil
    rwa [List.append_nil] at hread
  · refine ⟨String.ofList ((lines.flatMap line).take n), ?_, ?_, ?_⟩
    · rw [recordAll_eq, hlines]
      exact text_logAll_of_room rfl lines
    · exact bytes_take (fun _ hc => utf8Size_of_mem_lines hc) n
    · rw [String.toList_ofList]
      exact readText_take lines n

/-- The room ends inside a number of the second line, of which the number and the end are written
one after the other. -/
theorem text_decodes_inside_number : ∃ cut : String, ∃ rest,
    ((⟨some { room := some 8 }⟩ : ProofLog).recordAll
      [.clause [⟨0, true⟩, ⟨4, false⟩], .unit ⟨4, false⟩, .empty]).text = some cut ∧
    readText cut.toList = some ([[⟨0, true⟩, ⟨4, false⟩]], rest) ∧
    ((⟨some { room := some 8 }⟩ : ProofLog).recordAll
      [.clause [⟨0, true⟩, ⟨4, false⟩], .unit ⟨4, false⟩, .empty]).writer =
      some ([["1 ".toList, "-5 ".toList, "0\n".toList], ["-5 ".toList, "0\n".toList],
        ["0\n".toList]].foldl (fun w ps => (w.writePieces ps).1) { room := some 8 }) := by
  obtain ⟨⟨text, -, -, hcut⟩, hpieces⟩ :=
    text_decodes [.clause [⟨0, true⟩, ⟨4, false⟩], .unit ⟨4, false⟩, .empty] false
  obtain ⟨cut, htext, -, rest, hread⟩ := hcut 8
  have hone : cut.toList.count '\n' = 1 := by
    have hwritten : ((⟨some { room := some 8 }⟩ : ProofLog).recordAll
        [.clause [⟨0, true⟩, ⟨4, false⟩], .unit ⟨4, false⟩, .empty]).text =
          some (String.ofList ['1', ' ', '-', '5', ' ', '0', '\n', '-']) := by rfl
    obtain rfl := Option.some.inj (hwritten.symm.trans htext)
    rw [String.toList_ofList]
    decide
  rw [hone] at hread
  exact ⟨cut, rest, htext, hread, hpieces _ _ (by decide)⟩

end ProofLog

end ClauseLearning
