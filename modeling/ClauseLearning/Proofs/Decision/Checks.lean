import ClauseLearning.Proofs.Decision.Cursor

/-!
# The places that the decision queue reads

Every operation of the queue first looks whether what it reads and links has a place. In a queue
that represents a list the neighbours of a queued variable, the front and the cursor are queued,
and stamps and links have the same places. A variable with a place is therefore all that an
operation needs.
-/

set_option autoImplicit false

namespace ClauseLearning

namespace DecisionQueue

variable {q : DecisionQueue} {vs : List Variable}

/-- A link that leads to variables with a place passes. -/
theorem requireLink_eq {link : Option Variable} (h : ∀ v, link = some v → v < q.links.size) :
    q.requireLink link = .ok () := by
  cases link with
  | none => rfl
  | some v => exact require_eq_ok_iff.2 (h v rfl)

namespace Chains

/-- The neighbours of every variable are queued, so they have a place. -/
theorem requireNeighbours_eq (h : q.Chains vs) (v : Variable) :
    q.requireNeighbours v = .ok () := by
  by_cases hv : v ∈ vs
  · obtain ⟨before, after, hsplit⟩ := exists_split hv
    have holder : q.requireLink after.head? = .ok () := requireLink_eq fun w hw =>
      h.known w (by simp [hsplit, List.mem_of_mem_head? hw])
    have hnewer : q.requireLink before.getLast? = .ok () := requireLink_eq fun w hw =>
      h.known w (by simp [hsplit, List.mem_of_getLast? hw])
    unfold requireNeighbours
    rw [h.linked before v after hsplit]
    exact Fault.bind_eq_ok_iff.2 ⟨(), holder, hnewer⟩
  · unfold requireNeighbours
    rw [h.apart v hv]
    rfl

/-- The front is queued, so it has a place. -/
theorem requireFront_eq (h : q.Chains vs) : q.requireLink q.front = .ok () := by
  refine requireLink_eq fun v hv => h.known v ?_
  exact List.mem_of_mem_head? (h.front ▸ hv)

end Chains

namespace Represents

/-- A variable with a place has a stamp. -/
theorem requireStamp_eq (h : q.Represents vs) {v : Variable} (hv : v < q.links.size) :
    q.requireStamp v = .ok () := requireStamp_eq_ok_iff.2 (h.stamped ▸ hv)

/-- A new variable can always be queued. -/
theorem growKnown_eq (h : q.Represents vs) (v : Variable) : q.growKnown v = .ok (q.grow v) :=
  Fault.bind_ok_eq_ok_iff.2 ⟨(h.toChains.accommodate v).requireFront_eq, rfl⟩

/-- A variable with a place can be taken out. -/
theorem removeKnown_eq (h : q.Represents vs) {v : Variable} (hv : v < q.links.size) :
    q.removeKnown v = .ok (q.remove v) := by
  refine Fault.bind_ok_eq_ok_iff.2 ⟨?_, rfl⟩
  refine Fault.bind_eq_ok_iff.2 ⟨(), require_eq_ok_iff.2 hv, ?_⟩
  split
  · exact h.requireNeighbours_eq v
  · rfl

/-- A variable with a place can be bumped. -/
theorem bumpKnown_eq (h : q.Represents vs) {v : Variable} (hv : v < q.links.size)
    (assigned : Bool) : q.bumpKnown v assigned = .ok (q.bump v assigned) := by
  refine Fault.bind_ok_eq_ok_iff.2 ⟨?_, rfl⟩
  refine Fault.bind_eq_ok_iff.2 ⟨(), require_eq_ok_iff.2 hv, ?_⟩
  have hmove : q.requireMove v = .ok () := by
    unfold requireMove
    split
    · rfl
    · exact Fault.bind_eq_ok_iff.2 ⟨(), h.requireNeighbours_eq v, h.requireFront_eq⟩
  split
  · exact Fault.bind_eq_ok_iff.2 ⟨(), hmove, h.requireStamp_eq hv⟩
  · rfl

/-- A variable with a place can be released: the cursor, too, has a stamp. -/
theorem releaseKnown_eq (h : q.Represents vs) {v : Variable} (hv : v < q.links.size) :
    q.releaseKnown v = .ok (q.release v) := by
  refine Fault.bind_ok_eq_ok_iff.2 ⟨?_, rfl⟩
  refine Fault.bind_eq_ok_iff.2 ⟨(), require_eq_ok_iff.2 hv, ?_⟩
  have hstamps : q.requireStamps v = .ok () := by
    unfold requireStamps
    split
    next c hc =>
      have hcursor := h.requireStamp_eq (h.known c (h.cursor_mem c hc))
      exact Fault.bind_eq_ok_iff.2 ⟨(), h.requireStamp_eq hv, hcursor⟩
    next => rfl
  split
  · exact hstamps
  · rfl

/-- Variables with a place can be released one after the other. -/
theorem releaseAll_eq (h : q.Represents vs) {ls : List Literal}
    (hls : ∀ l ∈ ls, l.var < q.links.size) :
    q.releaseAll ls = .ok (ls.foldl (fun p l => p.release l.var) q) := by
  induction ls generalizing q with
  | nil => rfl
  | cons l ls ih =>
    have hlinks : (q.release l.var).links = q.links := by rw [release_eq]
    have hrest := ih (h.release l.var) fun k hk => hlinks ▸ hls k (List.mem_cons_of_mem _ hk)
    exact Fault.bind_eq_ok_iff.2 ⟨_, h.releaseKnown_eq (hls l List.mem_cons_self), hrest⟩

end Represents

end DecisionQueue

end ClauseLearning
