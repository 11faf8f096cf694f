import ClauseLearning.Clause

/-!
# The trail

The trail lists the true literals in the order in which they were assigned. A *delimiter* stands
where a decision level was opened: the entries before the first delimiter are the root level, and
the decision level of an entry is the number of delimiters at or before it.

The trail is read as two lists, `entries` and `delimiters`. They are kept in arrays, because both
grow and shrink at their ends only, and each operation has one lemma that says what it does to the
lists.

Next to the lists every variable has a cell with its value, the level and the position of its
assignment, and the clause that implied it, if any. Undoing an assignment clears the cell except
for the position, by which heuristics still order the variable.

A question about a variable that was never created has the answer of an unassigned one. It is asked
of existing variables only: an operation that looks at a variable goes on after `require` alone.
-/

set_option autoImplicit false

namespace ClauseLearning

/-- What is known about the assignment of one variable: its value, its decision level, its position,
and the clause that implied it. Without a value the level is zero, and the position is the latest.
-/
structure Cell where
  value : Option Bool := none
  level : Nat := 0
  position : Nat := 0
  reason : Option ClauseId := none
  deriving DecidableEq, Repr, Inhabited

namespace Cell

/-- The cell after its assignment was undone. -/
def release (c : Cell) : Cell := { c with value := none, level := 0, reason := none }

end Cell

/-- The assignments, per variable and in order: the true literals with the earliest first, and for
each decision level above the root the number of literals when it was opened. -/
structure Trail where
  cells : Arena Cell := .empty
  stack : Array Literal := #[]
  starts : Array Nat := #[]
  deriving DecidableEq, Repr

namespace Trail

/-- The number of variables created. -/
def numVariables (t : Trail) : Nat := t.cells.size

/-- The true literals in the order in which they were assigned. -/
def entries (t : Trail) : List Literal := t.stack.toList

/-- The places in front of which decision levels were opened. -/
def delimiters (t : Trail) : List Nat := t.starts.toList

/-- The number of true literals. -/
def length (t : Trail) : Nat := t.stack.size

/-- The number of decision levels that are open. -/
def currentLevel (t : Trail) : Nat := t.starts.size

/-- Whether a variable was created. -/
def knows (t : Trail) (v : Variable) : Bool := t.cells.knows v

/-- Go on only with a variable that was created. -/
def require (t : Trail) (v : Variable) : Except Fault Unit :=
  if t.knows v then .ok () else .error (.unknownVariable v)

/-- Go on only with literals of variables that were created. -/
def requireAll (t : Trail) (ls : List Literal) : Except Fault Unit :=
  ls.forM fun l => t.require l.var

/-- What is known about the assignment of an existing variable. -/
def cell (t : Trail) (v : Variable) : Cell := (t.cells.get? v).getD {}

/-- The level at which a variable is assigned, zero if it is not. -/
def level (t : Trail) (v : Variable) : Nat := (t.cell v).level

/-- The position of the latest assignment of a variable. -/
def position (t : Trail) (v : Variable) : Nat := (t.cell v).position

/-- The clause that implied the assignment of a variable, if it was implied. -/
def reason (t : Trail) (v : Variable) : Option ClauseId := (t.cell v).reason

/-- Whether a variable has a value. -/
def isAssigned (t : Trail) (v : Variable) : Bool := (t.cell v).value.isSome

/-- The value of a literal, if its variable has one. -/
def value (t : Trail) (l : Literal) : Option Bool := (t.cell l.var).value.map (· == l.positive)

/-- Whether a literal has the value true. -/
def isTrue (t : Trail) (l : Literal) : Bool := t.value l == some true

/-- Whether a literal has the value false. -/
def isFalse (t : Trail) (l : Literal) : Bool := t.value l == some false

/-- The literal at a position of the trail, which must be in use. -/
def entryAt (t : Trail) (i : Nat) : Except Fault Literal :=
  match t.stack[i]? with
  | some l => .ok l
  | none => .error (.unknownTrailPosition i)

/-- The number of entries of the root level. -/
def numRoot (t : Trail) : Nat := t.starts[0]?.getD t.length

/-- Create the next variable. -/
def grow (t : Trail) : Trail := { t with cells := t.cells.push {} }

/-- Open a decision level at the end of the trail. -/
def openLevel (t : Trail) : Trail := { t with starts := t.starts.push t.length }

/-- Put a literal of an unassigned variable at the end of the trail. -/
def push (t : Trail) (l : Literal) (reason : Option ClauseId) : Trail :=
  { t with
    cells := t.cells.set l.var
      { value := some l.positive, level := t.currentLevel, position := t.length, reason := reason }
    stack := t.stack.push l }

/-- Assign a literal, whose variable must exist and be unassigned. -/
def assign (t : Trail) (l : Literal) (reason : Option ClauseId) : Except Fault Trail := do
  t.require l.var
  if t.isAssigned l.var then .error (.alreadyAssigned l) else .ok (t.push l reason)

/-- Assign a decision, which is possible above the root only. -/
def assignDecision (t : Trail) (l : Literal) : Except Fault Trail :=
  if t.currentLevel = 0 then .error .decisionAtRoot else t.assign l none

/-- The number of entries at or below a level. -/
def lengthAt (t : Trail) (level : Nat) : Nat := t.starts[level]?.getD t.length

/-- The literals of the levels above a level, the latest first. -/
def above (t : Trail) (level : Nat) : List Literal :=
  (t.stack.extract (t.lengthAt level) t.length).toList.reverse

/-- The trail without the levels above a level. -/
def cut (t : Trail) (level : Nat) : Trail :=
  { cells := (t.above level).foldl (fun cs l => cs.modify l.var Cell.release) t.cells
    stack := t.stack.shrink (t.lengthAt level)
    starts := t.starts.shrink level }

/-- Undo all levels above a level that was reached; the undone literals are given as well, the
latest first. The level begins on the trail, and the variables that become free exist. -/
def backtrack (t : Trail) (level : Nat) : Except Fault (Trail × List Literal) :=
  if t.currentLevel < level then .error .levelNotReached
  else if t.length < t.lengthAt level then .error (.unknownTrailPosition (t.lengthAt level))
  else do
    t.requireAll (t.above level)
    .ok (t.cut level, t.above level)

/-- Whether one of the literals is true. The literals are looked at in order and only up to the
first true one. -/
def anyTrue (t : Trail) : List Literal → Except Fault Bool
  | [] => .ok false
  | l :: ls => do
    t.require l.var
    if t.isTrue l then .ok true else t.anyTrue ls

/-- The first unassigned variable of a list. The variables after it are not looked at. -/
def firstUnassigned (t : Trail) : List Variable → Except Fault (Option Variable)
  | [] => .ok none
  | v :: vs => do
    t.require v
    if t.isAssigned v then t.firstUnassigned vs else .ok (some v)

/-- The number of distinct decision levels above the root among the assigned literals. -/
def glue (t : Trail) (ls : List Literal) : Nat :=
  (((ls.filter fun l => t.isAssigned l.var).map fun l => t.level l.var).filter
    (0 < ·)).eraseDups.length

/-- The glue of literals whose variables must exist. -/
def glueOf (t : Trail) (ls : List Literal) : Except Fault Nat := do
  t.requireAll ls
  .ok (t.glue ls)

/-- There are as many entries as the trail is long. -/
@[simp] theorem length_entries (t : Trail) : t.entries.length = t.length := rfl

/-- There are as many delimiters as levels above the root. -/
@[simp] theorem length_delimiters (t : Trail) : t.delimiters.length = t.currentLevel := rfl

/-- A literal is found at a position exactly when it is the entry there. -/
theorem entryAt_eq_ok_iff {t : Trail} {i : Nat} {l : Literal} :
    t.entryAt i = .ok l ↔ t.entries[i]? = some l := by
  unfold entryAt entries
  rw [Array.getElem?_toList]
  cases t.stack[i]? <;> simp

/-- The root level ends at the first delimiter, or at the end of the trail. -/
theorem numRoot_eq (t : Trail) : t.numRoot = t.delimiters.headD t.length := by
  unfold numRoot delimiters
  rw [List.headD_eq_head?_getD, List.head?_eq_getElem?, Array.getElem?_toList]

/-- A level ends at the delimiter of the next one, or at the end of the trail. -/
theorem lengthAt_eq (t : Trail) (level : Nat) :
    t.lengthAt level = t.delimiters.getD level t.length := by
  unfold lengthAt delimiters
  rw [List.getD_eq_getElem?_getD, Array.getElem?_toList]

/-- What is above a level are the entries behind its end, the latest first. -/
theorem above_eq (t : Trail) (level : Nat) :
    t.above level = (t.entries.drop (t.lengthAt level)).reverse := by
  have h : (t.entries.drop (t.lengthAt level)).take (t.length - t.lengthAt level) =
      t.entries.drop (t.lengthAt level) := List.take_of_length_le (by simp)
  rw [above, Array.toList_extract, List.extract_eq_take_drop]
  exact congrArg List.reverse h

/-- Opening a level assigns nothing. -/
@[simp] theorem entries_openLevel (t : Trail) : t.openLevel.entries = t.entries := rfl

/-- A level is opened at the end of the trail. -/
@[simp] theorem delimiters_openLevel (t : Trail) :
    t.openLevel.delimiters = t.delimiters ++ [t.length] := by
  simp [openLevel, delimiters]

/-- An assignment is put at the end. -/
@[simp] theorem entries_push (t : Trail) (l : Literal) (r : Option ClauseId) :
    (t.push l r).entries = t.entries ++ [l] := by
  simp [push, entries]

/-- An assignment opens no level. -/
@[simp] theorem delimiters_push (t : Trail) (l : Literal) (r : Option ClauseId) :
    (t.push l r).delimiters = t.delimiters := rfl

/-- A cut keeps the entries up to the end of a level. -/
@[simp] theorem entries_cut (t : Trail) (level : Nat) :
    (t.cut level).entries = t.entries.take (t.lengthAt level) := by
  simp [cut, entries]

/-- A cut keeps the delimiters of the levels up to the one cut at. -/
@[simp] theorem delimiters_cut (t : Trail) (level : Nat) :
    (t.cut level).delimiters = t.delimiters.take level := by
  simp [cut, delimiters]

/-- The variables known are those below the number of variables. -/
theorem knows_iff {t : Trail} {v : Variable} : t.knows v = true ↔ v < t.numVariables := by
  simp [knows, Arena.knows, numVariables]

/-- A variable can be looked at exactly if it was created. -/
theorem require_eq_ok_iff {t : Trail} {v : Variable} {u : Unit} :
    t.require v = .ok u ↔ v < t.numVariables := by
  rw [← knows_iff, require]
  cases t.knows v <;> simp

/-- Literals can be looked at exactly if their variables exist. -/
theorem requireAll_eq_ok_iff {t : Trail} {ls : List Literal} {u : Unit} :
    t.requireAll ls = .ok u ↔ ∀ l ∈ ls, l.var < t.numVariables := by
  unfold requireAll
  rw [Fault.forM_eq_ok_iff]
  simp only [require_eq_ok_iff]

/-- The glue of literals of existing variables is counted. -/
theorem glueOf_eq {t : Trail} {ls : List Literal} (h : ∀ l ∈ ls, l.var < t.numVariables) :
    t.glueOf ls = .ok (t.glue ls) :=
  Fault.bind_ok_eq_ok_iff.2 ⟨requireAll_eq_ok_iff.2 h, rfl⟩

/-- An assignment creates no variable. -/
@[simp] theorem numVariables_push (t : Trail) (l : Literal) (r : Option ClauseId) :
    (t.push l r).numVariables = t.numVariables := by
  simp [push, numVariables]

/-- An assignment fills the cell of its variable, and of no other. -/
theorem cell_push {t : Trail} {l : Literal} (r : Option ClauseId) (h : l.var < t.numVariables)
    (v : Variable) :
    (t.push l r).cell v =
      if l.var = v then ⟨some l.positive, t.currentLevel, t.length, r⟩ else t.cell v := by
  have hsize : l.var < t.cells.size := h
  unfold cell push
  rw [Arena.get?_set]
  by_cases hv : l.var = v
  · subst hv
    simp [hsize]
  · simp [hv]

/-- An assignment succeeds exactly for literals of existing unassigned variables. -/
theorem assign_eq_ok_iff {t next : Trail} {l : Literal} {r : Option ClauseId} :
    t.assign l r = .ok next ↔
      l.var < t.numVariables ∧ t.isAssigned l.var = false ∧ next = t.push l r := by
  unfold assign
  rw [Fault.bind_eq_ok_iff]
  simp only [require_eq_ok_iff]
  cases t.isAssigned l.var <;> simp [eq_comm]

/-- Changing the cells of several literals changes each of them once, if changing a cell twice is
changing it once. -/
theorem get?_foldl_modify (f : Cell → Cell) (idempotent : ∀ c, f (f c) = f c) (ls : List Literal)
    (a : Arena Cell) (v : Variable) :
    (ls.foldl (fun cs l => cs.modify l.var f) a).get? v =
      if ls.any (·.var == v) then (a.get? v).map f else a.get? v := by
  induction ls generalizing a with
  | nil => simp
  | cons l ls ih =>
    rw [List.foldl_cons, ih, Arena.get?_modify]
    by_cases h₁ : l.var = v <;> by_cases h₂ : ls.any (·.var == v) = true <;>
      simp [h₁, h₂, Function.comp_def, idempotent]

/-- A cut clears the cells of the variables above the level and keeps all others. -/
theorem cell_cut (t : Trail) (level : Nat) (v : Variable) :
    (t.cut level).cell v =
      if (t.above level).any (·.var == v) then (t.cell v).release else t.cell v := by
  unfold cell cut
  simp only [get?_foldl_modify Cell.release fun _ => rfl]
  split
  · cases t.cells.get? v <;> rfl
  · rfl

/-- What is undone are the levels above one that was reached. -/
theorem backtrack_eq_ok {t next : Trail} {level : Nat} {undone : List Literal}
    (h : t.backtrack level = .ok (next, undone)) :
    level ≤ t.currentLevel ∧ next = t.cut level ∧ undone = t.above level := by
  unfold backtrack at h
  split at h
  next => cases h
  next hlevel =>
    split at h
    next => cases h
    next =>
      obtain ⟨_, -, h⟩ := Fault.bind_eq_ok_iff.1 h
      obtain ⟨rfl, rfl⟩ := Prod.mk.inj (Except.ok.inj h)
      exact ⟨Nat.le_of_not_lt hlevel, rfl, rfl⟩

/-- Among existing variables the search finds the first unassigned one. -/
theorem firstUnassigned_eq_find? {t : Trail} {vs : List Variable}
    (h : ∀ v ∈ vs, v < t.numVariables) :
    t.firstUnassigned vs = .ok (vs.find? fun v => !t.isAssigned v) := by
  induction vs with
  | nil => rfl
  | cons v vs ih =>
    have hv : t.require v = .ok () := require_eq_ok_iff.2 (h v (by simp))
    have hrest := ih fun x hx => h x (by simp [hx])
    cases ha : t.isAssigned v <;> simp [firstUnassigned, hv, ha, hrest, bind, Except.bind]

/-- For literals of existing variables the test says whether one is true. -/
theorem anyTrue_eq_any {t : Trail} {ls : List Literal}
    (h : ∀ l ∈ ls, l.var < t.numVariables) : t.anyTrue ls = .ok (ls.any t.isTrue) := by
  induction ls with
  | nil => rfl
  | cons l ls ih =>
    have hl : t.require l.var = .ok () := require_eq_ok_iff.2 (h l (by simp))
    have hrest := ih fun x hx => h x (by simp [hx])
    cases ha : t.isTrue l <;> simp [anyTrue, hl, ha, hrest, bind, Except.bind]

end Trail

end ClauseLearning
