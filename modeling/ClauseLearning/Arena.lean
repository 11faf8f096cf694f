import ClauseLearning.Fault

/-!
# Arenas

An arena stores one value per key, where the keys are the numbers below its size. Arenas never
shrink. They hold the data of the solver that is kept per variable, per clause or per decision
level, so that a link between two such things is a plain number.

The view of an arena is `get?`; each operation has one lemma that says what it does to the view.
-/

set_option autoImplicit false

namespace ClauseLearning

/-- A growing table of values whose keys are the numbers below its size. -/
structure Arena (α : Type) where
  slots : Array α := #[]
  deriving DecidableEq, Repr

namespace Arena

variable {α β : Type}

/-- The arena without any key. -/
def empty : Arena α := ⟨#[]⟩

/-- The number of keys in use, which is the next free one. -/
def size (a : Arena α) : Nat := a.slots.size

/-- The value of a key, if the key is in use. -/
def get? (a : Arena α) (k : Nat) : Option α := a.slots[k]?

/-- The value of a key that must be in use. -/
def get (a : Arena α) (k : Nat) : Except Fault α :=
  match a.get? k with
  | some x => .ok x
  | none => .error (.unknownKey k)

/-- Whether a key is in use. -/
def knows (a : Arena α) (k : Nat) : Bool := decide (k < a.size)

/-- The values in the order of their keys. -/
def toList (a : Arena α) : List α := a.slots.toList

/-- Add a value under the next free key, which is the old size. -/
def push (a : Arena α) (x : α) : Arena α := ⟨a.slots.push x⟩

/-- Replace the value of a key; a key that is not in use is ignored. -/
def set (a : Arena α) (k : Nat) (x : α) : Arena α := ⟨a.slots.setIfInBounds k x⟩

/-- Replace the value of a key that must be in use. -/
def put (a : Arena α) (k : Nat) (x : α) : Except Fault (Arena α) :=
  if a.knows k then .ok (a.set k x) else .error (.unknownKey k)

/-- Change the value of a key by a function; a key that is not in use is ignored. -/
def modify (a : Arena α) (k : Nat) (f : α → α) : Arena α :=
  match a.get? k with
  | some x => a.set k (f x)
  | none => a

/-- Grow the arena until a key is in use, filling the new keys with a default. -/
def accommodate (a : Arena α) (k : Nat) (x : α) : Arena α :=
  ⟨a.slots ++ Array.replicate (k + 1 - a.size) x⟩

/-- Change all values by a function. -/
def map (f : α → β) (a : Arena α) : Arena β := ⟨(a.slots.toList.map f).toArray⟩

/-- Two arenas are equal if they hold the same values under the same keys. -/
theorem ext_get? {a b : Arena α} (h : ∀ k, a.get? k = b.get? k) : a = b := by
  obtain ⟨a⟩ := a
  obtain ⟨b⟩ := b
  exact congrArg Arena.mk (Array.ext_getElem? h)

/-- An empty arena holds nothing. -/
@[simp] theorem get?_empty (k : Nat) : (empty : Arena α).get? k = none := by
  simp [empty, get?]

/-- An empty arena has no place. -/
@[simp] theorem size_empty : (empty : Arena α).size = 0 := rfl

/-- A value that is added takes one more place. -/
@[simp] theorem size_push (a : Arena α) (x : α) : (a.push x).size = a.size + 1 := by
  simp [size, push]

/-- Replacing a value takes no place. -/
@[simp] theorem size_set (a : Arena α) (k : Nat) (x : α) : (a.set k x).size = a.size := by
  simp [size, set]

/-- Changing a value takes no place. -/
@[simp] theorem size_modify (a : Arena α) (k : Nat) (f : α → α) :
    (a.modify k f).size = a.size := by
  unfold modify
  split <;> simp

/-- Changing all values takes no place. -/
@[simp] theorem size_map (f : α → β) (a : Arena α) : (a.map f).size = a.size := by
  simp [size, map]

/-- After making room for a key there are places up to the key, or as many as before. -/
theorem size_accommodate (a : Arena α) (k : Nat) (x : α) :
    (a.accommodate k x).size = max a.size (k + 1) := by
  simp [size, accommodate]
  omega

/-- The value added stands under the next key. -/
theorem get?_push (a : Arena α) (x : α) (k : Nat) :
    (a.push x).get? k = if k = a.size then some x else a.get? k :=
  Array.getElem?_push

/-- Replacing a value changes what its key holds, if the key has a place, and nothing else. -/
theorem get?_set (a : Arena α) (k : Nat) (x : α) (j : Nat) :
    (a.set k x).get? j = if k = j ∧ j < a.size then some x else a.get? j := by
  simp only [set, get?, size, Array.getElem?_setIfInBounds]
  by_cases h : k = j <;> by_cases hj : j < a.slots.size <;> simp_all

/-- The keys without a value are those from the size on. -/
theorem get?_eq_none_iff (a : Arena α) (k : Nat) : a.get? k = none ↔ a.size ≤ k := by
  simp [get?, size]

/-- A change of a value shows under its key alone. -/
theorem get?_modify (a : Arena α) (k : Nat) (f : α → α) (j : Nat) :
    (a.modify k f).get? j = if k = j then (a.get? j).map f else a.get? j := by
  unfold modify
  split
  next x hx =>
    have hk : k < a.size := by
      apply Nat.lt_of_not_le
      intro hle
      simp [(get?_eq_none_iff a k).2 hle] at hx
    rw [get?_set]
    by_cases h : k = j
    · subst h; simp [hk, hx]
    · simp [h]
  next hx =>
    by_cases h : k = j
    · subst h; simp [hx]
    · simp [h]

/-- A change of all values shows under every key. -/
theorem get?_map (f : α → β) (a : Arena α) (k : Nat) : (a.map f).get? k = (a.get? k).map f := by
  simp [map, get?]

/-- Making room keeps the values and fills the new places with the default. -/
theorem get?_accommodate (a : Arena α) (k : Nat) (x : α) (j : Nat) :
    (a.accommodate k x).get? j =
      if j < a.size then a.get? j else if j ≤ k then some x else none := by
  simp only [accommodate, get?, size, Array.getElem?_append, Array.getElem?_replicate]
  by_cases h : j < a.slots.size
  · simp [h]
  · by_cases hk : j ≤ k
    · have : j - a.slots.size < k + 1 - a.slots.size := by omega
      simp [h, hk, this]
    · have : ¬ j - a.slots.size < k + 1 - a.slots.size := by omega
      simp [h, hk, this]

/-- With the default for keys that are not in use, growing does not change a value. -/
theorem getD_accommodate (a : Arena α) (k : Nat) (x : α) (j : Nat) :
    ((a.accommodate k x).get? j).getD x = (a.get? j).getD x := by
  rw [get?_accommodate]
  by_cases h : j < a.size
  · rw [if_pos h]
  · rw [if_neg h, (get?_eq_none_iff a j).2 (Nat.le_of_not_lt h)]
    split <;> rfl

end Arena

end ClauseLearning
