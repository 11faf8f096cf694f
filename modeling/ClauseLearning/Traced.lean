import ClauseLearning.Event

/-!
# Traced computations

A traced computation tells a list of events and ends with a value or with a fault. The events told
before a fault are kept. Each projection has one lemma for sequencing, `result_bind` and
`events_bind`; with them no proof has to open the sequencing itself.
-/

set_option autoImplicit false

namespace ClauseLearning

/-- A computation that tells events and ends with a value or with a fault. -/
structure Traced (α : Type) where
  events : List Event
  result : Except Fault α

namespace Traced

variable {α β : Type}

/-- The computation that tells nothing and gives a value. -/
def value (a : α) : Traced α := ⟨[], .ok a⟩

/-- One computation after another; a fault ends both. -/
def andThen (m : Traced α) (f : α → Traced β) : Traced β :=
  match m.result with
  | .ok a =>
    let n := f a
    ⟨m.events ++ n.events, n.result⟩
  | .error e => ⟨m.events, .error e⟩

instance : Monad Traced where
  pure := value
  bind := andThen

/-- Tell an event. -/
def tell (e : Event) : Traced Unit := ⟨[e], .ok ()⟩

/-- Tell events in order. -/
def tellAll (es : List Event) : Traced Unit := ⟨es, .ok ()⟩

/-- End with a fault. -/
def fault (e : Fault) : Traced α := ⟨[], .error e⟩

/-- Tell nothing and end as a given result. -/
def ofExcept (r : Except Fault α) : Traced α := ⟨[], r⟩

instance : MonadLift (Except Fault) Traced where
  monadLift := ofExcept

/-- Go on only if a condition holds. -/
def require (c : Bool) (e : Fault) : Traced Unit := if c then pure () else fault e

/-- A given value is the result. -/
@[simp] theorem result_pure (a : α) : (pure a : Traced α).result = .ok a := rfl

/-- Giving a value tells nothing. -/
@[simp] theorem events_pure (a : α) : (pure a : Traced α).events = [] := rfl

/-- Telling an event succeeds. -/
@[simp] theorem result_tell (e : Event) : (tell e).result = .ok () := rfl

/-- What is told is the event. -/
@[simp] theorem events_tell (e : Event) : (tell e).events = [e] := rfl

/-- Telling events succeeds. -/
@[simp] theorem result_tellAll (es : List Event) : (tellAll es).result = .ok () := rfl

/-- What is told are the events, in their order. -/
@[simp] theorem events_tellAll (es : List Event) : (tellAll es).events = es := rfl

/-- A fault is the result. -/
@[simp] theorem result_fault (e : Fault) : (fault e : Traced α).result = .error e := rfl

/-- Failing tells nothing. -/
@[simp] theorem events_fault (e : Fault) : (fault e : Traced α).events = [] := rfl

/-- A result that is lifted is the result. -/
@[simp] theorem result_liftM (r : Except Fault α) : (liftM r : Traced α).result = r := rfl

/-- Lifting a result tells nothing. -/
@[simp] theorem events_liftM (r : Except Fault α) : (liftM r : Traced α).events = [] := rfl

/-- The result of a sequence is the sequence of the results. -/
@[simp] theorem result_bind (m : Traced α) (f : α → Traced β) :
    (m >>= f).result = m.result >>= fun a => (f a).result := by
  show (andThen m f).result = _
  unfold andThen
  cases m.result <;> rfl

/-- A sequence ends with a value exactly when both parts do. -/
theorem result_bind_eq_ok_iff {m : Traced α} {f : α → Traced β} {b : β} :
    (m >>= f).result = .ok b ↔ ∃ a, m.result = .ok a ∧ (f a).result = .ok b := by
  rw [result_bind]
  cases m.result <;> simp [bind, Except.bind]

/-- The events of a sequence are those of the first part, and those of the second if it is
reached. -/
theorem events_bind (m : Traced α) (f : α → Traced β) :
    (m >>= f).events = m.events ++ match m.result with
      | .ok a => (f a).events
      | .error _ => [] := by
  show (andThen m f).events = _
  unfold andThen
  cases m.result <;> simp

/-- A requirement is met exactly when its condition holds. -/
theorem result_require_eq_ok_iff {c : Bool} {e : Fault} {u : Unit} :
    (require c e).result = .ok u ↔ c = true := by
  cases c <;> simp [require]

end Traced

end ClauseLearning
