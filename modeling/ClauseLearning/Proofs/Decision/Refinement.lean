import ClauseLearning.Proofs.Decision.Choice

/-!
# The decision queue as a list

The linked queue does to the list that it stands for what its operations are named for: a new
variable comes to the front, a bumped one moves there, a removed one is deleted, and undoing an
assignment or searching leaves the list alone. A run performs operations in any order, on variables
that may have left the queue before. Along it the links stay those of the list, so that no variable
is lost, listed twice or brought back, and every walk to the back ends.
-/

set_option autoImplicit false

namespace ClauseLearning

/-- What can be asked of a decision queue. A search looks at the assignments of a trail. -/
inductive QueueOperation where
  | grow (v : Variable)
  | bump (v : Variable) (assigned : Bool)
  | remove (v : Variable)
  | release (v : Variable)
  | next (t : Trail)

namespace QueueOperation

/-- What an operation does to the list of the queued variables. -/
def onList (vs : List Variable) : QueueOperation → List Variable
  | grow v => v :: vs
  | bump v _ => if v ∈ vs then v :: vs.erase v else vs
  | remove v => vs.erase v
  | release _ => vs
  | next _ => vs

/-- The list after some operations. -/
def listAfter (ops : List QueueOperation) : List Variable := ops.foldl onList []

/-- One operation more acts on the list that the others left. -/
theorem listAfter_concat (ops : List QueueOperation) (op : QueueOperation) :
    listAfter (ops ++ [op]) = op.onList (listAfter ops) := List.foldl_concat _ _ _ _

end QueueOperation

namespace DecisionQueue

/-- Perform an operation; the answer of a search is left out. Apart from the one that adds a
variable, operations know the variables with a place in the arena only. -/
def perform (q : DecisionQueue) : QueueOperation → Except Fault DecisionQueue
  | .grow v => q.growKnown v
  | .bump v assigned => q.bumpKnown v assigned
  | .remove v => q.removeKnown v
  | .release v => q.releaseKnown v
  | .next t => (q.next t).map Prod.fst

/-- A variable is added only while it is not queued. -/
def permits (q : DecisionQueue) : QueueOperation → Bool
  | .grow v => !q.contains v
  | _ => true

/-- The queues that operations lead to from the empty one, each with the list of these
operations. -/
inductive Run : List QueueOperation → DecisionQueue → Prop where
  | start : Run [] {}
  | step {ops : List QueueOperation} {q next : DecisionQueue} {op : QueueOperation} : Run ops q →
      q.permits op = true → q.perform op = .ok next → Run (ops ++ [op]) next

/-- Perform operations as long as they are permitted and succeed. -/
def runFrom (q : DecisionQueue) : List QueueOperation → Option DecisionQueue
  | [] => some q
  | op :: ops =>
    match q.permits op, q.perform op with
    | true, .ok next => runFrom next ops
    | _, _ => none

variable {q next : DecisionQueue} {vs : List Variable}

/-- Operations performed one after the other extend a run. -/
theorem Run.of_runFrom {before ops : List QueueOperation} (h : Run before q)
    (hrun : runFrom q ops = some next) : Run (before ++ ops) next := by
  induction ops generalizing before q with
  | nil =>
    obtain rfl := Option.some.inj hrun
    rwa [List.append_nil]
  | cons op ops ih =>
    unfold runFrom at hrun
    split at hrun
    next mid hpermits hperform =>
      rw [List.append_cons]
      exact ih (h.step hpermits hperform) hrun
    next => cases hrun

/-! ## The neighbours along the list -/

namespace Chains

/-- The older neighbour of a variable is the next one to the back. -/
theorem older_eq_some_iff (h : q.Chains vs) {v w : Variable} :
    (q.linksOf v).older = some w ↔ ∃ before after, vs = before ++ v :: w :: after := by
  constructor
  · intro holder
    have hv : v ∈ vs := by
      by_contra hno
      rw [h.apart v hno] at holder
      cases holder
    obtain ⟨before, after, hsplit⟩ := exists_split hv
    rw [h.linked before v after hsplit] at holder
    obtain ⟨rest, rfl⟩ := List.head?_eq_some_iff.1 holder
    exact ⟨before, rest, hsplit⟩
  · rintro ⟨before, after, hsplit⟩
    rw [h.linked before v (w :: after) hsplit]
    rfl

/-- The newer neighbour of a variable is the next one to the front. -/
theorem newer_eq_some_iff (h : q.Chains vs) {v w : Variable} :
    (q.linksOf w).newer = some v ↔ ∃ before after, vs = before ++ v :: w :: after := by
  constructor
  · intro hnewer
    have hw : w ∈ vs := by
      by_contra hno
      rw [h.apart w hno] at hnewer
      cases hnewer
    obtain ⟨before, after, hsplit⟩ := exists_split hw
    rw [h.linked before w after hsplit] at hnewer
    obtain ⟨rest, rfl⟩ := List.getLast?_eq_some_iff.1 hnewer
    exact ⟨rest, after, by simpa using hsplit⟩
  · rintro ⟨before, after, hsplit⟩
    rw [h.linked (before ++ [v]) w after (by simpa using hsplit)]
    simp

end Chains

/-! ## One operation -/

/-- What a search for a free variable finds is one of the variables that it walks over. -/
theorem mem_of_firstUnassigned {t : Trail} {v : Variable}
    (hok : t.firstUnassigned vs = .ok (some v)) : v ∈ vs := by
  induction vs with
  | nil => cases hok
  | cons w vs ih =>
    obtain ⟨_, -, hok⟩ := Fault.bind_eq_ok_iff.1 hok
    split at hok
    · exact List.mem_cons_of_mem _ (ih hok)
    · obtain rfl := Option.some.inj (Except.ok.inj hok)
      exact List.mem_cons_self

namespace Represents

/-- A search that ends moves the cursor to a queued variable, whatever is assigned. -/
theorem of_next (h : q.Represents vs) {t : Trail} {found : Option Variable}
    (hok : q.next t = .ok (next, found)) : next.Represents vs := by
  obtain ⟨before, after, hsplit, hwalk, -⟩ := h.exists_split_cursor
  rw [next_eq t hwalk] at hok
  cases hfound : t.firstUnassigned after with
  | error e =>
    rw [hfound] at hok
    cases hok
  | ok found' =>
    rw [hfound] at hok
    obtain ⟨rfl, rfl⟩ := Prod.mk.inj (Except.ok.inj hok)
    refine ⟨h.toChains.of_links_eq rfl rfl, h.stamped, h.descending, h.latest, fun c hc => ?_⟩
    obtain rfl : found' = some c := hc
    rw [hsplit]
    exact List.mem_append_right _ (mem_of_firstUnassigned hfound)

/-- A search ends if the trail knows the queued variables. -/
theorem exists_next (h : q.Represents vs) {t : Trail} (hknown : ∀ v ∈ vs, v < t.numVariables) :
    ∃ next found, q.next t = .ok (next, found) := by
  obtain ⟨before, after, hsplit, hwalk, -⟩ := h.exists_split_cursor
  rw [next_eq t hwalk, Trail.firstUnassigned_eq_find? fun v hv => hknown v (by simp [hsplit, hv])]
  exact ⟨_, _, rfl⟩

/-- Every operation does to the queue what it does to the list. -/
theorem perform (h : q.Represents vs) {op : QueueOperation} (hpermits : q.permits op = true)
    (hok : q.perform op = .ok next) : next.Represents (op.onList vs) := by
  cases op with
  | grow v =>
    obtain rfl := growKnown_eq_ok hok
    have hnew : q.contains v = false := by simpa [permits] using hpermits
    refine h.grow fun hv => ?_
    rw [h.contains_iff.2 hv] at hnew
    cases hnew
  | bump v assigned =>
    obtain ⟨-, rfl⟩ := bumpKnown_eq_ok hok
    show (q.bump v assigned).Represents (if v ∈ vs then v :: vs.erase v else vs)
    split
    next hv => exact (h.bump hv assigned).1
    next hv =>
      unfold DecisionQueue.bump
      rw [if_neg fun hcontains => hv (h.contains_iff.1 hcontains)]
      exact h
  | remove v =>
    obtain ⟨-, rfl⟩ := removeKnown_eq_ok hok
    exact h.remove v
  | release v =>
    obtain ⟨-, rfl⟩ := releaseKnown_eq_ok hok
    exact h.release v
  | next t =>
    change (q.next t).map Prod.fst = .ok next at hok
    cases hnext : q.next t with
    | error e =>
      rw [hnext] at hok
      cases hok
    | ok found =>
      rw [hnext] at hok
      obtain rfl := Except.ok.inj hok
      exact h.of_next hnext

end Represents

/-! ## Runs of operations -/

/-- What an operation needs to succeed: a place for its variable or, for a search, a trail that
knows the queued variables. -/
def Provides (q : DecisionQueue) : QueueOperation → Prop
  | .grow _ => True
  | .bump v _ => v < q.links.size
  | .remove v => v < q.links.size
  | .release v => v < q.links.size
  | .next t => ∀ v ∈ q.toList, v < t.numVariables

/-- The queue is a linked form of a list without repetitions: walks to the back follow the list and
end with it, from the front as from any other place, neighbours in the list are linked with each
other, and other variables have no links. Along the list the stamps descend, and the cursor stands
on a variable of the list or nowhere. Operations succeed where their variables have a place. -/
structure Refines (q : DecisionQueue) (vs : List Variable) : Prop where
  toList_eq : q.toList = vs
  nodup : vs.Nodup
  front_eq : q.front = vs.head?
  walk_ends : ∀ before after, vs = before ++ after → ∀ steps, after.length ≤ steps →
    walk q.links steps after.head? = .ok after
  contains_iff : ∀ v, q.contains v = true ↔ v ∈ vs
  older_iff : ∀ v w, (q.linksOf v).older = some w ↔ ∃ before after, vs = before ++ v :: w :: after
  newer_iff : ∀ v w, (q.linksOf w).newer = some v ↔ ∃ before after, vs = before ++ v :: w :: after
  apart : ∀ v, v ∉ vs → (q.linksOf v).older = none ∧ (q.linksOf v).newer = none
  descending : vs.Pairwise fun v w => q.stamp w < q.stamp v
  latest : ∀ v, q.stamp v ≤ q.numBumps
  cursor_mem : ∀ c, q.cursor = some c → c ∈ vs
  succeeds : ∀ op, q.Provides op → ∃ next, q.perform op = .ok next

namespace Represents

/-- An operation succeeds if what it names is there. -/
theorem succeeds (h : q.Represents vs) {op : QueueOperation} (hop : q.Provides op) :
    ∃ next, q.perform op = .ok next := by
  cases op with
  | grow v => exact ⟨_, h.growKnown_eq v⟩
  | bump v assigned => exact ⟨_, h.bumpKnown_eq hop assigned⟩
  | remove v => exact ⟨_, h.removeKnown_eq hop⟩
  | release v => exact ⟨_, h.releaseKnown_eq hop⟩
  | next t =>
    obtain ⟨next, found, hok⟩ := h.exists_next fun v hv => hop v (h.toList_eq.symm ▸ hv)
    exact ⟨next, congrArg (Except.map Prod.fst) hok⟩

/-- A queue that represents a list refines it. -/
theorem refines (h : q.Represents vs) : q.Refines vs where
  toList_eq := h.toList_eq
  nodup := h.nodup
  front_eq := h.front
  walk_ends := fun _ _ hsplit _ hsteps => h.walk_eq hsplit hsteps
  contains_iff := fun _ => h.contains_iff
  older_iff := fun _ _ => h.older_eq_some_iff
  newer_iff := fun _ _ => h.newer_eq_some_iff
  apart := by
    intro v hv
    rw [h.apart v hv]
    exact ⟨rfl, rfl⟩
  descending := h.descending
  latest := h.latest
  cursor_mem := h.cursor_mem
  succeeds := fun _ hop => h.succeeds hop

end Represents

/-- After every run the queue represents the list that the operations on lists leave. -/
theorem Run.represents {ops : List QueueOperation} (h : Run ops q) :
    q.Represents (QueueOperation.listAfter ops) := by
  induction h with
  | start => exact represents_empty
  | @step ops q next op _ hpermits hok ih =>
    rw [QueueOperation.listAfter_concat]
    exact ih.perform hpermits hok

/-- After any operations on an empty queue it is a linked form of the list that the same operations
lead to. -/
theorem Run.refines_list {ops : List QueueOperation} (h : Run ops q) :
    q.Refines (QueueOperation.listAfter ops) := h.represents.refines

/-- Variables are added with a gap, moved from the back, the middle and the front, taken out at the
cursor, asked for after they left, and added again; a search without assignments stays where it
is. -/
def shufflingRun : List QueueOperation :=
  [.grow 0, .grow 1, .grow 4, .bump 0 true, .bump 1 true, .bump 1 false, .remove 1, .bump 1 false,
    .release 3, .next ((List.range 5).foldl (fun t _ => t.grow) {}), .grow 1, .release 4,
    .remove 0, .remove 3]

/-- The run leaves two queued variables, in the order of the list. -/
theorem shufflingRun_refines_list : ∃ q, runFrom {} shufflingRun = some q ∧
    q.Refines (QueueOperation.listAfter shufflingRun) ∧ q.toList = [1, 4] := by
  have hend : ((runFrom {} shufflingRun).map toList) = some [1, 4] := by decide +kernel
  obtain ⟨q, hrun, hlist⟩ := Option.map_eq_some_iff.1 hend
  exact ⟨q, hrun, Run.refines_list (Run.start.of_runFrom hrun), hlist⟩

end DecisionQueue

end ClauseLearning
