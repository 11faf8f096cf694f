import ClauseLearning.Audit

/-!
# Computations that end with a value

A computation *yields* a property if it ends with a value that has the property. The lemmas follow
the ways in which computations are built, so that a computation is shown to succeed and described
at the same time.

A computation that may fault *ensures* a property if every value that it ends with has the property.
This is what holds of an operation in a state about which little is known.

What a computation tells is read through a selection of its events. What is *told* in this way by a
sequence is told by its parts, one after the other.
-/

set_option autoImplicit false

namespace ClauseLearning

namespace Traced

variable {α β : Type}

/-- After a value the rest of a sequence decides how it ends. -/
theorem result_bind_of_ok {m : Traced α} {f : α → Traced β} {a : α} (h : m.result = .ok a) :
    (m >>= f).result = (f a).result := by
  rw [result_bind, h]
  rfl

/-- A fault ends a sequence. -/
theorem result_bind_of_error {m : Traced α} {f : α → Traced β} {e : Fault}
    (h : m.result = .error e) : (m >>= f).result = .error e := by
  rw [result_bind, h]
  rfl

/-- The computation ends with a value that has a property. -/
def Yields (m : Traced α) (P : α → Prop) : Prop := ∃ a, m.result = .ok a ∧ P a

namespace Yields

/-- A weaker property is yielded, too. -/
theorem mono {m : Traced α} {P Q : α → Prop} (h : m.Yields P) (hPQ : ∀ a, P a → Q a) :
    m.Yields Q := by
  obtain ⟨a, hok, ha⟩ := h
  exact ⟨a, hok, hPQ a ha⟩

/-- The value of a computation has every property that it yields. -/
theorem of_result {m : Traced α} {P : α → Prop} (h : m.Yields P) {a : α}
    (hok : m.result = .ok a) : P a := by
  obtain ⟨b, hb, hP⟩ := h
  obtain rfl : b = a := Except.ok.inj (hb.symm.trans hok)
  exact hP

/-- A given value is yielded. -/
theorem pure {a : α} {P : α → Prop} (ha : P a) : (Pure.pure a : Traced α).Yields P := ⟨a, rfl, ha⟩

/-- A sequence yields what its second part yields after the values of the first. -/
theorem bind {m : Traced α} {f : α → Traced β} {P : α → Prop} {Q : β → Prop} (h : m.Yields P)
    (hf : ∀ a, P a → (f a).Yields Q) : (m >>= f).Yields Q := by
  obtain ⟨a, hok, ha⟩ := h
  obtain ⟨b, hokb, hb⟩ := hf a ha
  exact ⟨b, result_bind_eq_ok_iff.2 ⟨a, hok, hokb⟩, hb⟩

/-- A result that is known to be a value is yielded. -/
theorem lift {r : Except Fault α} {P : α → Prop} {a : α} (hok : r = .ok a) (ha : P a) :
    (liftM r : Traced α).Yields P := ⟨a, hok, ha⟩

/-- Telling an event succeeds. -/
theorem tell (e : Event) : (Traced.tell e).Yields fun _ => True := ⟨(), rfl, trivial⟩

/-- Telling events succeeds. -/
theorem tellAll (es : List Event) : (Traced.tellAll es).Yields fun _ => True := ⟨(), rfl, trivial⟩

/-- A requirement that is met succeeds. -/
theorem require {c : Bool} {e : Fault} (hc : c = true) :
    (Traced.require c e).Yields fun _ => True :=
  ⟨(), result_require_eq_ok_iff.2 hc, trivial⟩

/-- A condition that holds passes its check at every audit level. -/
theorem check {audit : AuditLevel} {c : Bool} {e : Fault} (hc : c = true) :
    (audit.check c e).Yields fun _ => True :=
  ⟨(), AuditLevel.result_check_eq_ok_iff.2 (Or.inr hc), trivial⟩

/-- A condition that is computed to hold passes its check at every audit level. -/
theorem checkBy {audit : AuditLevel} {m : Traced Bool} {e : Fault} (hm : m.result = .ok true) :
    (audit.checkBy m e).Yields fun _ => True :=
  ⟨(), AuditLevel.result_checkBy_eq_ok_iff.2 (Or.inr hm), trivial⟩

end Yields

/-- If the computation ends with a value, the value has a property. -/
def Ensures (m : Traced α) (P : α → Prop) : Prop := ∀ a, m.result = .ok a → P a

namespace Ensures

/-- A computation that ends with a value ensures nothing about it. -/
theorem any {m : Traced α} : m.Ensures fun _ => True := fun _ _ => trivial

/-- A weaker property is ensured, too. -/
theorem mono {m : Traced α} {P Q : α → Prop} (h : m.Ensures P) (hPQ : ∀ a, P a → Q a) :
    m.Ensures Q := fun a hok => hPQ a (h a hok)

/-- A given value is all that is ensured. -/
theorem pure {a : α} {P : α → Prop} (ha : P a) : (Pure.pure a : Traced α).Ensures P := by
  intro b hok
  obtain rfl := Except.ok.inj hok
  exact ha

/-- Where no value is given, anything is ensured of it. -/
theorem fault {e : Fault} {P : α → Prop} : (Traced.fault e : Traced α).Ensures P := by
  intro b hok
  cases hok

/-- A sequence ensures what its second part ensures after the values of the first. -/
theorem bind {m : Traced α} {f : α → Traced β} {P : α → Prop} {Q : β → Prop} (h : m.Ensures P)
    (hf : ∀ a, P a → (f a).Ensures Q) : (m >>= f).Ensures Q := by
  intro b hok
  obtain ⟨a, hm, hok⟩ := result_bind_eq_ok_iff.1 hok
  exact hf a (h a hm) b hok

/-- What holds of the value of a result is ensured. -/
theorem lift {r : Except Fault α} {P : α → Prop} (h : ∀ a, r = .ok a → P a) :
    (liftM r : Traced α).Ensures P := h

end Ensures

/-! ## What a computation tells -/

section

variable {γ : Type} {m : Traced α} {f : α → Traced β}

/-- What a computation tells, as far as a selection of events goes, in this order. -/
def told (select : Event → Option γ) (m : Traced α) : List γ := m.events.filterMap select

variable {select : Event → Option γ}

/-- Giving a value tells nothing of interest. -/
@[simp] theorem told_pure (a : α) : (Pure.pure a : Traced α).told select = [] := rfl

/-- Lifting a result tells nothing of interest. -/
@[simp] theorem told_liftM (r : Except Fault α) : (liftM r : Traced α).told select = [] := rfl

/-- A sequence tells what its parts tell, if the first one succeeds. -/
theorem told_bind {a : α} (h : m.result = .ok a) :
    (m >>= f).told select = m.told select ++ (f a).told select := by
  unfold told
  rw [events_bind, h, List.filterMap_append]

/-- Where neither part of a sequence tells anything, the sequence does not. -/
theorem told_bind_eq_nil (hm : m.told select = []) (hf : ∀ a, (f a).told select = []) :
    (m >>= f).told select = [] := by
  cases hresult : m.result with
  | ok a => rw [told_bind hresult, hm, hf, List.append_nil]
  | error e =>
    unfold told at hm ⊢
    rw [events_bind, hresult]
    simpa using hm

/-- A requirement tells nothing of interest. -/
theorem told_require (c : Bool) (e : Fault) : (require c e).told select = [] := by
  cases c <;> simp [require, told]

end

end Traced

end ClauseLearning
