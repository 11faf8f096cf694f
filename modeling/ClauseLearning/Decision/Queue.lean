import ClauseLearning.Trail

/-!
# The decision queue

The queue orders the variables by the time of their latest move to the front. It is a doubly
linked list whose links are kept in an arena, so that a variable is moved in constant time; the
view of the queue is `toList`, the queued variables from the front.

Every move to the front is stamped with its number. The *cursor* makes decisions cheap: all
variables in front of it are assigned, so the search for an unassigned variable starts there and
walks to the back.
-/

set_option autoImplicit false

namespace ClauseLearning

/-- The neighbours of a queued variable: the one behind it was moved less recently, the one in front
of it more recently. -/
structure Links where
  older : Option Variable := none
  newer : Option Variable := none
  deriving DecidableEq, Repr, Inhabited

/-- The decision queue: the neighbours and the number of the latest move of every variable, the
variable moved most recently, the one at which the search for a decision starts, and the number of
moves to the front. -/
structure DecisionQueue where
  links : Arena Links := .empty
  stamps : Arena Nat := .empty
  front : Option Variable := none
  cursor : Option Variable := none
  numBumps : Nat := 0
  deriving DecidableEq, Repr

namespace DecisionQueue

/-- The links of a variable, which must have a place in the arena. -/
def linksAt (links : Arena Links) (v : Variable) : Except Fault Links :=
  match links.get? v with
  | some l => .ok l
  | none => .error (.unknownVariable v)

/-- The variables met on the way to the back. It is a fault if the way is not at its end after a
number of steps. -/
def walk (links : Arena Links) : Nat → Option Variable → Except Fault (List Variable)
  | _, none => .ok []
  | 0, some _ => .error .roundsExhausted
  | steps + 1, some v => do
    let l ← linksAt links v
    let rest ← walk links steps l.older
    .ok (v :: rest)

/-- The first unassigned variable on the way to the back. The variables after it are not looked at.
It is a fault if there is still a way to go after a number of steps. -/
def search (t : Trail) (links : Arena Links) : Nat → Option Variable →
    Except Fault (Option Variable)
  | _, none => .ok none
  | 0, some _ => .error .roundsExhausted
  | steps + 1, some v => do
    t.require v
    if t.isAssigned v then
      let l ← linksAt links v
      search t links steps l.older
    else .ok (some v)

/-- The queued variables from a place to the back. A variable is queued once, so as many steps as
there are variables suffice; links that run in a circle list nothing. -/
def listFrom (q : DecisionQueue) (v : Option Variable) : List Variable :=
  match walk q.links q.links.size v with
  | .ok vs => vs
  | .error _ => []

/-- The queued variables from the front to the back. -/
def toList (q : DecisionQueue) : List Variable := q.listFrom q.front

/-- The neighbours of a variable that has a place in the arena. -/
def linksOf (q : DecisionQueue) (v : Variable) : Links := (q.links.get? v).getD {}

/-- The number of the latest move of a variable that has a stamp. -/
def stamp (q : DecisionQueue) (v : Variable) : Nat := (q.stamps.get? v).getD 0

/-- Whether a variable has a place in the arena. -/
def knows (q : DecisionQueue) (v : Variable) : Bool := q.links.knows v

/-- Go on only with a variable that has a place in the arena. -/
def require (q : DecisionQueue) (v : Variable) : Except Fault Unit :=
  if q.knows v then .ok () else .error (.unknownVariable v)

/-- Go on only with a variable that has a stamp. -/
def requireStamp (q : DecisionQueue) (v : Variable) : Except Fault Unit :=
  if q.stamps.knows v then .ok () else .error (.unknownVariable v)

/-- Go on only if a link leads nowhere or to a variable that has a place in the arena. -/
def requireLink (q : DecisionQueue) : Option Variable → Except Fault Unit
  | some v => q.require v
  | none => .ok ()

/-- Go on only if the neighbours of a variable have places in the arena. -/
def requireNeighbours (q : DecisionQueue) (v : Variable) : Except Fault Unit := do
  q.requireLink (q.linksOf v).older
  q.requireLink (q.linksOf v).newer

/-- Whether a variable is queued. Only the front is queued without a newer neighbour. -/
def contains (q : DecisionQueue) (v : Variable) : Bool :=
  (q.linksOf v).newer.isSome || q.front == some v

/-- Link a variable that is not queued at the front. -/
def enqueue (q : DecisionQueue) (v : Variable) : DecisionQueue :=
  let links := q.links.set v { older := q.front, newer := none }
  { q with
    links := match q.front with
      | some f => links.modify f fun l => { l with newer := some v }
      | none => links
    front := some v }

/-- Unlink a queued variable and join its neighbours. -/
def dequeue (q : DecisionQueue) (v : Variable) : DecisionQueue :=
  let l := q.linksOf v
  let links := match l.older with
    | some o => q.links.modify o fun m => { m with newer := l.newer }
    | none => q.links
  match l.newer with
  | some n => { q with links := (links.modify n fun m => { m with older := l.older }).set v {} }
  | none => { q with links := links.set v {}, front := l.older }

/-- Move the cursor off a variable: one step to the back, or to the front where there is none. -/
def leaveCursor (q : DecisionQueue) (v : Variable) : DecisionQueue :=
  if q.cursor = some v then
    let l := q.linksOf v
    { q with cursor := l.older.or l.newer }
  else q

/-- Give a variable the next stamp. -/
def stampNext (q : DecisionQueue) (v : Variable) : DecisionQueue :=
  { q with numBumps := q.numBumps + 1, stamps := q.stamps.set v (q.numBumps + 1) }

/-- Queue a new variable at the front, where it is the next decision. -/
def grow (q : DecisionQueue) (v : Variable) : DecisionQueue :=
  let room := { q with links := q.links.accommodate v {}, stamps := q.stamps.accommodate v 0 }
  { (room.enqueue v).stampNext v with cursor := some v }

/-- Take a variable out of the queue for good. -/
def remove (q : DecisionQueue) (v : Variable) : DecisionQueue :=
  if q.contains v then (q.leaveCursor v).dequeue v else q

/-- Link a variable at the front, from wherever it is queued. -/
def moveToFront (q : DecisionQueue) (v : Variable) : DecisionQueue :=
  if q.front = some v then q else (q.dequeue v).enqueue v

/-- Move a queued variable to the front and stamp it. An unassigned variable becomes the next
decision; for an assigned one the cursor stays where it is or steps back. -/
def bump (q : DecisionQueue) (v : Variable) (assigned : Bool) : DecisionQueue :=
  if q.contains v then
    let moved := ((q.leaveCursor v).moveToFront v).stampNext v
    if assigned then moved else { moved with cursor := some v }
  else q

/-- Keep the cursor in front of a queued variable that becomes unassigned. -/
def release (q : DecisionQueue) (v : Variable) : DecisionQueue :=
  if q.contains v && (q.cursor.all fun c => decide (q.stamp c < q.stamp v)) then
    { q with cursor := some v }
  else q

/-! ### Operations that look before they read

The operations above take it that what they read and link exists. The following ones go on only
after they made sure of it. -/

/-- What a removal reads and links. -/
def requireRemoval (q : DecisionQueue) (v : Variable) : Except Fault Unit := do
  q.require v
  if q.contains v then q.requireNeighbours v else .ok ()

/-- What a move of a queued variable to the front links. The front itself is not moved. -/
def requireMove (q : DecisionQueue) (v : Variable) : Except Fault Unit :=
  if q.front = some v then .ok ()
  else do
    q.requireNeighbours v
    q.requireLink q.front

/-- What a bump reads and links. -/
def requireBump (q : DecisionQueue) (v : Variable) : Except Fault Unit := do
  q.require v
  if q.contains v then do
    q.requireMove v
    q.requireStamp v
  else .ok ()

/-- The stamps that are compared when a queued variable becomes unassigned: none without a
cursor. -/
def requireStamps (q : DecisionQueue) (v : Variable) : Except Fault Unit :=
  match q.cursor with
  | some c => do
    q.requireStamp v
    q.requireStamp c
  | none => .ok ()

/-- What a release reads. -/
def requireRelease (q : DecisionQueue) (v : Variable) : Except Fault Unit := do
  q.require v
  if q.contains v then q.requireStamps v else .ok ()

/-- Queue a new variable, where the front is in the arena. -/
def growKnown (q : DecisionQueue) (v : Variable) : Except Fault DecisionQueue := do
  ({ q with links := q.links.accommodate v {} } : DecisionQueue).requireLink q.front
  .ok (q.grow v)

/-- Take a variable of the arena out of the queue for good. -/
def removeKnown (q : DecisionQueue) (v : Variable) : Except Fault DecisionQueue := do
  q.requireRemoval v
  .ok (q.remove v)

/-- Move a variable of the arena to the front, if it is queued. -/
def bumpKnown (q : DecisionQueue) (v : Variable) (assigned : Bool) :
    Except Fault DecisionQueue := do
  q.requireBump v
  .ok (q.bump v assigned)

/-- Keep the cursor in front of a variable of the arena that becomes unassigned. -/
def releaseKnown (q : DecisionQueue) (v : Variable) : Except Fault DecisionQueue := do
  q.requireRelease v
  .ok (q.release v)

/-- Keep the cursor in front of the variables that become unassigned, one after the other. -/
def releaseAll (q : DecisionQueue) : List Literal → Except Fault DecisionQueue
  | [] => .ok q
  | l :: ls => do
    let next ← q.releaseKnown l.var
    next.releaseAll ls

/-- The unassigned variable that was moved most recently. The cursor is left there. -/
def next (q : DecisionQueue) (t : Trail) : Except Fault (DecisionQueue × Option Variable) := do
  let found ← search t q.links q.links.size q.cursor
  .ok ({ q with cursor := found }, found)

/-- The queued variables in front of the cursor. -/
def beforeCursor (q : DecisionQueue) : List Variable :=
  q.toList.takeWhile fun v => some v != q.cursor

/-- Whether the variables met on the way to the back are assigned, as far as to the cursor. The
variables after the first unassigned one are not looked at. -/
def assignedToCursor (q : DecisionQueue) (t : Trail) : Nat → Option Variable → Except Fault Bool
  | _, none => .ok true
  | 0, some _ => .error .roundsExhausted
  | steps + 1, some v => do
    let l ← linksAt q.links v
    if q.cursor = some v then .ok true
    else do
      t.require v
      if t.isAssigned v then q.assignedToCursor t steps l.older else .ok false

/-- Whether all variables in front of the cursor are assigned. -/
def cursorHolds (q : DecisionQueue) (t : Trail) : Except Fault Bool :=
  q.assignedToCursor t q.links.size q.front

/-- A variable can be looked at exactly if it has a place in the arena. -/
theorem require_eq_ok_iff {q : DecisionQueue} {v : Variable} {u : Unit} :
    q.require v = .ok u ↔ v < q.links.size := by
  unfold require knows Arena.knows
  by_cases h : v < q.links.size <;> simp [h]

/-- A stamp can be read exactly if it has a place in the arena. -/
theorem requireStamp_eq_ok_iff {q : DecisionQueue} {v : Variable} {u : Unit} :
    q.requireStamp v = .ok u ↔ v < q.stamps.size := by
  unfold requireStamp Arena.knows
  by_cases h : v < q.stamps.size <;> simp [h]

/-- A new variable is queued as by the operation that does not look. -/
theorem growKnown_eq_ok {q next : DecisionQueue} {v : Variable} (h : q.growKnown v = .ok next) :
    next = q.grow v := (Fault.bind_ok_eq_ok_iff.1 h).2

/-- What is taken out has a place. -/
theorem removeKnown_eq_ok {q next : DecisionQueue} {v : Variable}
    (h : q.removeKnown v = .ok next) : v < q.links.size ∧ next = q.remove v := by
  obtain ⟨hrequire, rfl⟩ := Fault.bind_ok_eq_ok_iff.1 h
  obtain ⟨_, hknown, -⟩ := Fault.bind_eq_ok_iff.1 hrequire
  exact ⟨require_eq_ok_iff.1 hknown, rfl⟩

/-- What is bumped has a place. -/
theorem bumpKnown_eq_ok {q next : DecisionQueue} {v : Variable} {assigned : Bool}
    (h : q.bumpKnown v assigned = .ok next) : v < q.links.size ∧ next = q.bump v assigned := by
  obtain ⟨hrequire, rfl⟩ := Fault.bind_ok_eq_ok_iff.1 h
  obtain ⟨_, hknown, -⟩ := Fault.bind_eq_ok_iff.1 hrequire
  exact ⟨require_eq_ok_iff.1 hknown, rfl⟩

/-- What is released has a place. -/
theorem releaseKnown_eq_ok {q next : DecisionQueue} {v : Variable}
    (h : q.releaseKnown v = .ok next) : v < q.links.size ∧ next = q.release v := by
  obtain ⟨hrequire, rfl⟩ := Fault.bind_ok_eq_ok_iff.1 h
  obtain ⟨_, hknown, -⟩ := Fault.bind_eq_ok_iff.1 hrequire
  exact ⟨require_eq_ok_iff.1 hknown, rfl⟩

/-- Releases of variables with a place are made one after the other. -/
theorem releaseAll_eq_ok {q next : DecisionQueue} {ls : List Literal}
    (h : q.releaseAll ls = .ok next) : next = ls.foldl (fun p l => p.release l.var) q := by
  induction ls generalizing q with
  | nil =>
    obtain rfl := Except.ok.inj h
    rfl
  | cons l ls ih =>
    obtain ⟨released, hrelease, h⟩ := Fault.bind_eq_ok_iff.1 h
    obtain ⟨-, rfl⟩ := releaseKnown_eq_ok hrelease
    exact ih h

/-- A variable that has a place in the arena has links. -/
theorem linksAt_eq_ok_iff {links : Arena Links} {v : Variable} {l : Links} :
    linksAt links v = .ok l ↔ links.get? v = some l := by
  unfold linksAt
  split <;> simp_all

/-- The search finds the first unassigned one of the variables met on a way that ends. -/
theorem search_eq_firstUnassigned (t : Trail) {links : Arena Links} {steps : Nat}
    {v : Option Variable} {vs : List Variable} (h : walk links steps v = .ok vs) :
    search t links steps v = t.firstUnassigned vs := by
  induction steps, v using walk.induct generalizing vs with
  | case1 steps =>
    rw [walk] at h
    obtain rfl := Except.ok.inj h
    rw [search, Trail.firstUnassigned]
  | case2 v => cases h
  | case3 steps v ih =>
    obtain ⟨l, hl, h⟩ := Fault.bind_eq_ok_iff.1 h
    obtain ⟨rest, hrest, h⟩ := Fault.bind_eq_ok_iff.1 h
    obtain rfl := Except.ok.inj h
    simp only [search, Trail.firstUnassigned, hl, ← ih l hrest]
    rfl

/-- Where the way from the cursor to the back ends, the next decision is the first unassigned one of
the variables on it. -/
theorem next_eq {q : DecisionQueue} (t : Trail) {vs : List Variable}
    (h : walk q.links q.links.size q.cursor = .ok vs) :
    q.next t = (t.firstUnassigned vs).map fun found => ({ q with cursor := found }, found) := by
  unfold next
  rw [search_eq_firstUnassigned t h]
  cases t.firstUnassigned vs <;> rfl

/-- The variables on a way that ends are tested up to the cursor. -/
theorem assignedToCursor_eq {q : DecisionQueue} (t : Trail) {steps : Nat} {v : Option Variable}
    {vs : List Variable} (h : walk q.links steps v = .ok vs) :
    q.assignedToCursor t steps v =
      (t.firstUnassigned (vs.takeWhile fun w => some w != q.cursor)).map Option.isNone := by
  induction steps, v using walk.induct generalizing vs with
  | case1 steps =>
    rw [walk] at h
    obtain rfl := Except.ok.inj h
    rw [assignedToCursor, List.takeWhile_nil]
    rfl
  | case2 v => cases h
  | case3 steps v ih =>
    obtain ⟨l, hl, h⟩ := Fault.bind_eq_ok_iff.1 h
    obtain ⟨rest, hrest, h⟩ := Fault.bind_eq_ok_iff.1 h
    obtain rfl := Except.ok.inj h
    unfold assignedToCursor
    rw [hl]
    by_cases hcursor : q.cursor = some v
    · simp [hcursor, bind, Except.bind, Trail.firstUnassigned, Except.map]
    · have hgo : (some v != q.cursor) = true := bne_iff_ne.2 (Ne.symm hcursor)
      simp only [List.takeWhile_cons, hgo, if_true, Trail.firstUnassigned]
      cases hknown : t.require v <;> cases hassigned : t.isAssigned v <;>
        simp [hcursor, ih l hrest, bind, Except.bind, Except.map]

end DecisionQueue

end ClauseLearning
