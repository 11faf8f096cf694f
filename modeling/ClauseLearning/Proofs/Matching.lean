import ClauseLearning.Audit

/-!
# Two computations side by side

Two computations *match* under a relation if both end with values that are related, or both end
with the same fault. What they tell on the way is not compared. The lemmas follow the ways in which
computations are built, so two runs of one program on related states are compared part by part.
-/

set_option autoImplicit false

namespace ClauseLearning

/-- Both results are values, and these are related, or both are the same fault. -/
inductive Agree {α β : Type} (R : α → β → Prop) : Except Fault α → Except Fault β → Prop where
  | value {a : α} {b : β} : R a b → Agree R (.ok a) (.ok b)
  | fault (e : Fault) : Agree R (.error e) (.error e)

/-- Related states and the same answer. -/
def SameAnswer {α β γ : Type} (R : α → β → Prop) (p : α × γ) (q : β × γ) : Prop :=
  R p.1 q.1 ∧ p.2 = q.2

namespace Agree

variable {α β α' β' : Type} {R : α → β → Prop} {S : α' → β' → Prop}

/-- Results agree if their first parts do, and the second parts do after related values. -/
theorem bind {x : Except Fault α} {y : Except Fault β} {f : α → Except Fault α'}
    {g : β → Except Fault β'} (h : Agree R x y) (hfg : ∀ a b, R a b → Agree S (f a) (g b)) :
    Agree S (x >>= f) (y >>= g) := by
  cases h with
  | value hab => exact hfg _ _ hab
  | fault e => exact .fault e

/-- A result agrees with itself. -/
theorem same (x : Except Fault α) : Agree Eq x x := by
  cases x with
  | ok a => exact .value rfl
  | error e => exact .fault e

end Agree

namespace Traced

variable {α β α' β' : Type} {R : α → β → Prop} {S : α' → β' → Prop}

/-- Both computations end with values that are related, or with the same fault. -/
def Matches (m : Traced α) (n : Traced β) (R : α → β → Prop) : Prop := Agree R m.result n.result

namespace Matches

/-- Computations that end with related values match. -/
theorem of_result {m : Traced α} {n : Traced β} {a : α} {b : β} (hm : m.result = .ok a)
    (hn : n.result = .ok b) (h : R a b) : m.Matches n R := by
  unfold Matches
  rw [hm, hn]
  exact .value h

/-- Related values match. -/
theorem pure {a : α} {b : β} (h : R a b) : (Pure.pure a : Traced α).Matches (Pure.pure b) R :=
  .value h

/-- The same fault matches itself. -/
theorem fault (e : Fault) : (Traced.fault e : Traced α).Matches (Traced.fault e : Traced β) R :=
  Agree.fault e

/-- Sequences match if their first parts do, and the second parts do after related values. -/
theorem bind {m : Traced α} {n : Traced β} {f : α → Traced α'} {g : β → Traced β'}
    (h : m.Matches n R) (hfg : ∀ a b, R a b → (f a).Matches (g b) S) :
    (m >>= f).Matches (n >>= g) S := by
  unfold Matches
  rw [result_bind, result_bind]
  exact Agree.bind h hfg

/-- Results that agree match. -/
theorem lift {x : Except Fault α} {y : Except Fault β} (h : Agree R x y) :
    (liftM x : Traced α).Matches (liftM y) R := h

/-- A computation matches itself. -/
theorem same (m : Traced α) : m.Matches m Eq := Agree.same m.result

/-- Only what a computation does next counts, not what it tells. -/
theorem tellAll {es es' : List Event} {f : Unit → Traced α} {g : Unit → Traced β}
    (h : (f ()).Matches (g ()) R) :
    (Traced.tellAll es >>= f).Matches (Traced.tellAll es' >>= g) R :=
  .bind (R := fun _ _ => True) (.value trivial) fun _ _ _ => h

/-- What is told does not count, only what follows. -/
theorem tell {e e' : Event} {f : Unit → Traced α} {g : Unit → Traced β}
    (h : (f ()).Matches (g ()) R) : (Traced.tell e >>= f).Matches (Traced.tell e' >>= g) R :=
  .bind (R := fun _ _ => True) (.value trivial) fun _ _ _ => h

/-- Both computations take the same branch. -/
theorem ite {c : Prop} [Decidable c] {m m' : Traced α} {n n' : Traced β}
    (hpos : c → m.Matches n R) (hneg : ¬ c → m'.Matches n' R) :
    (if c then m else m').Matches (if c then n else n') R := by
  by_cases h : c
  · rw [if_pos h, if_pos h]
    exact hpos h
  · rw [if_neg h, if_neg h]
    exact hneg h

/-- The same condition is required. -/
theorem require {c c' : Bool} {e : Fault} {f : Unit → Traced α} {g : Unit → Traced β}
    (hc : c' = c) (h : (f ()).Matches (g ()) R) :
    (Traced.require c e >>= f).Matches (Traced.require c' e >>= g) R := by
  subst hc
  exact .bind (.same _) fun _ _ _ => h

/-- The same condition is checked, at the same audit level. -/
theorem check {audit audit' : AuditLevel} {c c' : Bool} {e : Fault} {f : Unit → Traced α}
    {g : Unit → Traced β} (haudit : audit' = audit) (hc : c' = c) (h : (f ()).Matches (g ()) R) :
    (audit.check c e >>= f).Matches (audit'.check c' e >>= g) R := by
  subst haudit
  subst hc
  exact .bind (.same _) fun _ _ _ => h

/-- A condition is checked that is computed in two ways. -/
theorem checkBy {audit audit' : AuditLevel} {x y : Traced Bool} {e : Fault}
    (haudit : audit' = audit) (h : x.Matches y Eq) :
    (audit.checkBy x e).Matches (audit'.checkBy y e) fun _ _ => True := by
  subst haudit
  cases audit' with
  | basic => exact .value trivial
  | full =>
    refine .bind h ?_
    rintro c _ rfl
    cases c with
    | true => exact .value trivial
    | false => exact .fault e

end Matches

end Traced

end ClauseLearning
