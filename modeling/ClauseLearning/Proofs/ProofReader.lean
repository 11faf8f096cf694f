import ClauseLearning.Proofs.ProofText

/-!
# A reader of proofs

Whoever checks a proof reads it line by line: a line is a list of decimal numbers with blanks
between them, all of them are literals but the last one, which is zero. A line counts only if its
end was written. What follows the last end of a line is kept as it is.

The reader knows nothing of how proofs are written. It gets back the clauses of every text that
consists of lines and of a part of a further line.
-/

set_option autoImplicit false

namespace ClauseLearning

/-- A literal is the one that its number names. -/
theorem Literal.ofDimacs?_dimacs (l : Literal) : ofDimacs? l.dimacs = some l := by
  obtain ⟨v, positive⟩ := l
  unfold ofDimacs? dimacs
  cases positive with
  | true =>
    have hnat : ((v : Int) + 1).natAbs - 1 = v := by omega
    have hpos : 0 < (v : Int) + 1 := by omega
    simp [hnat, hpos, show (v : Int) + 1 ≠ 0 by omega]
  | false =>
    have hnat : (-((v : Int) + 1)).natAbs - 1 = v := by omega
    have hneg : ¬ 0 < -((v : Int) + 1) := by omega
    have hne : -((v : Int) + 1) ≠ 0 := by omega
    rw [if_neg Bool.false_ne_true, if_neg hne, hnat, decide_eq_false hneg]

namespace ProofLog

/-- Read a number without a sign. -/
def readDigits (ds : List Char) : Option Nat :=
  if ds ≠ [] ∧ ds.all Char.isDigit then some (Nat.ofDigitChars 10 ds 0) else none

/-- Read a number, which may have a minus sign. -/
def readNumber : List Char → Option Int
  | '-' :: ds => (readDigits ds).map fun n : Nat => -(n : Int)
  | ds => (readDigits ds).map fun n : Nat => (n : Int)

/-- Take numbers for literals up to a zero, which has to be the last one. -/
def readClause : List Int → Option (List Literal)
  | [] => none
  | [d] => if d = 0 then some [] else none
  | d :: ds => do
    let l ← Literal.ofDimacs? d
    let ls ← readClause ds
    some (l :: ls)

/-- Read the clause on a line. -/
def readLine (text : List Char) : Option (List Literal) := do
  let ds ← (text.splitOn ' ').mapM readNumber
  readClause ds

/-- Read the clauses on the complete lines of a text. What follows the last of them is left over. -/
def readText (text : List Char) : Option (Formula × List Char) := do
  let clauses ← (text.splitOn '\n').dropLast.mapM readLine
  some (clauses, (text.splitOn '\n').getLastD [])

example : readText "1 -5 0\n-5 0\n0\n12 -".toList =
    some ([[⟨0, true⟩, ⟨4, false⟩], [⟨4, false⟩], []], "12 -".toList) := by decide +kernel

/-! ## Numbers -/

/-- A number is read back from its digits. -/
theorem readDigits_repr (n : Nat) : readDigits n.repr.toList = some n := by
  have hne : n.repr.toList ≠ [] := by
    rw [Nat.toList_repr]
    exact Nat.toDigits_ne_nil
  have hdigits : n.repr.toList.all Char.isDigit = true :=
    List.all_eq_true.2 fun c hc => Literal.isDigit_of_mem_repr hc
  unfold readDigits
  rw [if_pos ⟨hne, hdigits⟩, Nat.toList_repr, Nat.ofDigitChars_ten_toDigits]

/-- The text of a literal is read as its number. -/
theorem readNumber_text (l : Literal) : readNumber l.text.toList = some l.dimacs := by
  rw [Literal.toList_text]
  unfold Literal.dimacs
  cases l.positive with
  | true =>
    rw [if_pos rfl, if_pos rfl]
    unfold readNumber
    split
    next ds heq =>
      have hdigit : '-'.isDigit = true := Literal.isDigit_of_mem_repr (heq ▸ List.mem_cons_self)
      exact absurd hdigit (by decide)
    next =>
      rw [readDigits_repr]
      simp
  | false =>
    rw [if_neg Bool.false_ne_true, if_neg Bool.false_ne_true]
    show (readDigits (l.var + 1).repr.toList).map (fun n : Nat => -(n : Int)) = _
    rw [readDigits_repr]
    simp

/-- The numbers of literals and a closing zero are read as the clause. -/
theorem readClause_dimacs (ls : List Literal) :
    readClause (ls.map Literal.dimacs ++ [0]) = some ls := by
  induction ls with
  | nil => rfl
  | cons l ls ih =>
    obtain ⟨d, ds, hds⟩ : ∃ d ds, ls.map Literal.dimacs ++ [0] = d :: ds :=
      List.exists_cons_of_ne_nil (by simp)
    rw [List.map_cons, List.cons_append, hds]
    rw [hds] at ih
    unfold readClause
    rw [Literal.ofDimacs?_dimacs, ih]
    rfl

/-! ## Lines -/

/-- The text of a line without its end. -/
def lineBody (ls : List Literal) : List Char :=
  (ls.flatMap fun l => l.text.toList ++ [' ']) ++ ['0']

/-- A line is its body and a newline. -/
theorem line_eq (ls : List Literal) : line ls = lineBody ls ++ ['\n'] := by
  unfold line lineBody
  rw [List.append_assoc]
  rfl

/-- Within a line there is no newline. -/
theorem newline_not_mem_lineBody (ls : List Literal) : '\n' ∉ lineBody ls := by
  unfold lineBody
  rw [List.mem_append, List.mem_flatMap]
  rintro (⟨l, -, hc⟩ | hc)
  · rcases List.mem_append.1 hc with hc | hc
    · exact l.newline_not_mem_text hc
    · exact absurd hc (by decide)
  · exact absurd hc (by decide)

/-- Between the blanks of a line stand the texts of the literals and the closing zero. -/
theorem splitOn_lineBody (ls : List Literal) :
    (lineBody ls).splitOn ' ' = ls.map (fun l => l.text.toList) ++ [['0']] := by
  induction ls with
  | nil => rfl
  | cons l ls ih =>
    have hcons : lineBody (l :: ls) = l.text.toList ++ ' ' :: lineBody ls := by simp [lineBody]
    rw [hcons, List.splitOn_append_cons_self_of_not_mem l.blank_not_mem_text, ih]
    rfl

/-- A clause is read back from its line. -/
theorem readLine_lineBody (ls : List Literal) : readLine (lineBody ls) = some ls := by
  have hnumbers : (ls.map (fun l => l.text.toList) ++ [['0']]).mapM readNumber =
      some (ls.map Literal.dimacs ++ [0]) := by
    induction ls with
    | nil => rfl
    | cons l ls ih =>
      rw [List.map_cons, List.cons_append, List.mapM_cons, readNumber_text, ih]
      rfl
  unfold readLine
  rw [splitOn_lineBody, hnumbers]
  exact readClause_dimacs ls

/-- A text that consists of lines and of a part of a further line is read as the clauses of the
lines, and the part is left over. -/
theorem readText_lines (lines : Formula) {rest : List Char} (hrest : '\n' ∉ rest) :
    readText (lines.flatMap line ++ rest) = some (lines, rest) := by
  induction lines with
  | nil =>
    unfold readText
    rw [List.flatMap_nil, List.nil_append, List.splitOn_eq_singleton hrest]
    rfl
  | cons ls lines ih =>
    have hsplit : ((ls :: lines).flatMap line ++ rest).splitOn '\n' =
        lineBody ls :: (lines.flatMap line ++ rest).splitOn '\n' := by
      rw [List.flatMap_cons, line_eq, List.append_assoc, List.append_assoc]
      exact List.splitOn_append_cons_self_of_not_mem (newline_not_mem_lineBody ls) _
    have hne := List.splitOn_ne_nil '\n' (lines.flatMap line ++ rest)
    unfold readText at ih ⊢
    rw [hsplit]
    generalize (lines.flatMap line ++ rest).splitOn '\n' = parts at ih hne ⊢
    obtain ⟨clauses, hclauses, heq⟩ := Option.bind_eq_some_iff.1 ih
    obtain ⟨rfl, hlast⟩ := Prod.mk.inj (Option.some.inj heq)
    rw [List.dropLast_cons_of_ne_nil hne, List.mapM_cons, readLine_lineBody, hclauses]
    show some (ls :: clauses, (lineBody ls :: parts).getLastD []) = _
    rw [← hlast, List.getLastD_cons]
    obtain ⟨part, parts, rfl⟩ := List.exists_cons_of_ne_nil hne
    rw [List.getLastD_cons, List.getLastD_cons]

/-! ## Texts that were cut off -/

/-- Wherever a text of lines is cut, it consists of the first of these lines and of a part of the
next one. -/
theorem exists_take_lines (lines : Formula) (n : Nat) : ∃ k rest, '\n' ∉ rest ∧
    (lines.flatMap line).take n = (lines.take k).flatMap line ++ rest := by
  induction lines generalizing n with
  | nil => exact ⟨0, [], List.not_mem_nil, by simp⟩
  | cons ls lines ih =>
    rw [List.flatMap_cons, List.take_append]
    by_cases hfits : (line ls).length ≤ n
    · obtain ⟨k, rest, hrest, htake⟩ := ih (n - (line ls).length)
      refine ⟨k + 1, rest, hrest, ?_⟩
      rw [List.take_of_length_le hfits, htake, List.take_succ_cons, List.flatMap_cons,
        List.append_assoc]
    · have hle : n ≤ (lineBody ls).length := by
        rw [line_eq, List.length_append] at hfits
        exact Nat.lt_succ_iff.1 (Nat.not_le.1 hfits)
      refine ⟨0, (lineBody ls).take n, fun h => ?_, ?_⟩
      · exact newline_not_mem_lineBody ls (List.mem_of_mem_take h)
      · rw [Nat.sub_eq_zero_of_le (Nat.le_of_not_le hfits), line_eq,
          List.take_append_of_le_length hle]
        simp

/-- There are as many newlines as lines. -/
theorem count_newline_lines (lines : Formula) : (lines.flatMap line).count '\n' = lines.length := by
  induction lines with
  | nil => rfl
  | cons ls lines ih =>
    rw [List.flatMap_cons, List.count_append, ih, line_eq, List.count_append,
      List.count_eq_zero.2 (newline_not_mem_lineBody ls), List.length_cons]
    simp [Nat.add_comm]

/-- From a text of lines that was cut off the clauses of the complete lines are read. -/
theorem readText_take (lines : Formula) (n : Nat) : ∃ rest,
    readText ((lines.flatMap line).take n) =
      some (lines.take (((lines.flatMap line).take n).count '\n'), rest) := by
  obtain ⟨k, rest, hrest, htake⟩ := exists_take_lines lines n
  refine ⟨rest, ?_⟩
  rw [htake, readText_lines _ hrest, List.count_append, count_newline_lines,
    List.count_eq_zero.2 hrest, List.length_take, Nat.add_zero, List.take_eq_take_min]

/-! ## Bytes -/

/-- Lines are made of characters that take one byte. -/
theorem utf8Size_of_mem_lines {lines : Formula} {c : Char} (hc : c ∈ lines.flatMap line) :
    c.utf8Size = 1 := by
  have hdigit : ∀ d : Char, d.isDigit = true → d.utf8Size = 1 := by
    intro d hd
    have hle : d.val ≤ 57 := (Bool.and_eq_true_iff.1 hd).2 |> of_decide_eq_true
    exact Char.utf8Size_eq_one_iff.2 (UInt32.le_trans hle (by decide))
  obtain ⟨ls, -, hc⟩ := List.mem_flatMap.1 hc
  rcases List.mem_append.1 hc with hc | hc
  · obtain ⟨l, -, hc⟩ := List.mem_flatMap.1 hc
    rcases List.mem_append.1 hc with hc | hc
    · rcases Literal.mem_text hc with rfl | hd
      · rfl
      · exact hdigit c hd
    · obtain rfl := List.mem_singleton.1 hc
      rfl
  · rcases List.mem_cons.1 hc with rfl | hc
    · rfl
    · obtain rfl := List.mem_singleton.1 hc
      rfl

/-- The bytes of a text. -/
def bytes (text : String) : List UInt8 := text.toByteArray.data.toList

/-- The bytes of a text are those of its characters. -/
theorem bytes_ofList (cs : List Char) :
    bytes (String.ofList cs) = cs.flatMap String.utf8EncodeChar := by
  unfold bytes
  rw [String.toByteArray_ofList, List.utf8Encode]
  simp

/-- If each character takes one byte, to cut a text is to cut its bytes. -/
theorem bytes_take {cs : List Char} (hcs : ∀ c ∈ cs, c.utf8Size = 1) (n : Nat) :
    bytes (String.ofList (cs.take n)) = (bytes (String.ofList cs)).take n := by
  rw [bytes_ofList, bytes_ofList]
  induction cs generalizing n with
  | nil => simp
  | cons c cs ih =>
    have hone : (String.utf8EncodeChar c).length = 1 := by
      rw [String.length_utf8EncodeChar, hcs c List.mem_cons_self]
    cases n with
    | zero => simp
    | succ n =>
      have hrest := ih (fun d hd => hcs d (List.mem_cons_of_mem c hd)) n
      have hhead : (String.utf8EncodeChar c).take (n + 1) = String.utf8EncodeChar c :=
        List.take_of_length_le (by omega)
      rw [List.take_succ_cons, List.flatMap_cons, List.flatMap_cons, hrest, List.take_append, hone,
        Nat.add_sub_cancel, hhead]

end ProofLog

end ClauseLearning
