import Mathlib.Algebra.Order.Field.Rat
import Mathlib.Data.Rat.Cast.Order
import Mathlib.Tactic.FieldSimp
import Mathlib.Tactic.Linarith
import Mathlib.Tactic.Positivity
import Mathlib.Tactic.Ring
import ClauseLearning.Decision.Scores

/-!
# Scores without rounding

Divided by the increment, a score is a sum over the bumps of its variable: a bump weighs one when it
is made, and every later decay multiplies its weight by the decay factor. A rescale divides scores
and increment by the same number, so it does not show in these quotients, and neither in the order
of the scores. As no bump weighs more than one, the quotient is at most the number of bumps; after a
rescale the increment is one and the quotients are the scores, which is why a rescale never leaves
a score that is too large.
-/

set_option autoImplicit false

namespace ClauseLearning

/-- The rational numbers as scores. Too large are those above a limit; without a limit none is. -/
def ExactScore (_limit : Option ℕ) : Type := ℚ

namespace ExactScore

variable {limit : Option ℕ}

instance : Field (ExactScore limit) := inferInstanceAs (Field ℚ)

instance : LinearOrder (ExactScore limit) := inferInstanceAs (LinearOrder ℚ)

instance : IsStrictOrderedRing (ExactScore limit) := inferInstanceAs (IsStrictOrderedRing ℚ)

instance : ScoreNumber (ExactScore limit) where
  isTooLarge x := limit.any fun m : ℕ => decide ((m : ExactScore limit) < x)

/-- An exact score is too large if it exceeds the limit, if there is one. -/
theorem isTooLarge_iff {x : ExactScore limit} :
    ScoreNumber.isTooLarge x = true ↔ ∃ m, limit = some m ∧ (m : ExactScore limit) < x := by
  show (limit.any fun m : ℕ => decide ((m : ExactScore limit) < x)) = true ↔ _
  rw [Option.any_eq_true]
  simp only [decide_eq_true_eq]

end ExactScore

/-- What can be asked of the scores. -/
inductive ScoreOperation where
  | grow (v : Variable)
  | bump (v : Variable)
  | decay
  deriving DecidableEq

namespace ScoreOperation

/-- Whether an operation is a bump. -/
def isBump : ScoreOperation → Bool
  | bump _ => true
  | _ => false

/-- Whether an operation succeeds while some variables have a score. -/
def isFit (size : Nat) : ScoreOperation → Bool
  | bump v => decide (v < size)
  | _ => true

/-- The number of variables with a score after an operation. -/
def sizeAfter (size : Nat) : ScoreOperation → Nat
  | grow v => max size (v + 1)
  | _ => size

/-- Whether variables are bumped only when they have a score. -/
def fit (size : Nat) : List ScoreOperation → Bool
  | [] => true
  | op :: ops => op.isFit size && fit (op.sizeAfter size) ops

/-- The number of bumps of a variable. -/
def bumpsOf (v : Variable) (ops : List ScoreOperation) : Nat := ops.count (bump v)

/-- The number of bumps. -/
def bumps (ops : List ScoreOperation) : Nat := ops.countP isBump

/-- The weight of the bumps of a variable: each counts with the decay factor to the power of the
number of decays after it. -/
def weight {K : Type} [Semiring K] (d : K) (v : Variable) : List ScoreOperation → K
  | [] => 0
  | op :: ops => (if op = bump v then d ^ ops.count decay else 0) + weight d v ops

section

variable {K : Type} [Field K]

/-- A bump weighs one when it is made, and a decay makes earlier bumps lighter. -/
theorem weight_concat (d : K) (v : Variable) (ops : List ScoreOperation) (op : ScoreOperation) :
    weight d v (ops ++ [op]) = (if op = decay then d else 1) * weight d v ops +
      if op = bump v then 1 else 0 := by
  induction ops with
  | nil => simp [weight]
  | cons first ops ih =>
    rw [List.cons_append, weight, weight, ih, List.count_append]
    by_cases hdecay : op = decay
    · subst hdecay
      by_cases hfirst : first = bump v
      · simp [hfirst, pow_succ]
        ring
      · simp [hfirst]
    · have hcount : [op].count decay = 0 := List.count_eq_zero.2 (by simpa using Ne.symm hdecay)
      rw [hcount, Nat.add_zero, if_neg hdecay]
      ring

variable [LinearOrder K] [IsStrictOrderedRing K] {d : K}

/-- It does not matter in which numbers the weight is taken. -/
theorem cast_weight (q : ℚ) (v : Variable) (ops : List ScoreOperation) :
    (Rat.cast (weight q v ops) : K) = weight (Rat.cast q) v ops := by
  induction ops with
  | nil => exact Rat.cast_zero
  | cons op ops ih =>
    rw [weight, weight, Rat.cast_add, ih]
    split <;> simp

/-- No bump weighs more than one. -/
theorem weight_le_bumpsOf (hd : 0 < d) (hlt : d < 1) (v : Variable) (ops : List ScoreOperation) :
    weight d v ops ≤ bumpsOf v ops := by
  induction ops with
  | nil => simp [weight, bumpsOf]
  | cons op ops ih =>
    unfold bumpsOf at ih ⊢
    rw [weight, List.count_cons, Nat.cast_add, add_comm]
    refine add_le_add ih ?_
    by_cases hop : op = bump v
    · simpa [hop] using pow_le_one₀ hd.le hlt.le
    · simp [hop]

end

/-- A variable is bumped at most as often as all variables. -/
theorem bumpsOf_le_bumps (v : Variable) (ops : List ScoreOperation) :
    bumpsOf v ops ≤ bumps ops := by
  refine List.countP_mono_left fun op _ hop => ?_
  rw [beq_iff_eq.1 hop]
  rfl

end ScoreOperation

namespace Scores

section

variable {α : Type} [ScoreNumber α]

/-- Perform an operation. Only variables with a score can be bumped. -/
def perform (s : Scores α) : ScoreOperation → Except Fault (Scores α)
  | .grow v => .ok (s.grow v)
  | .bump v => do
    s.require v
    .ok (s.bump v)
  | .decay => .ok s.decay

/-- Perform operations one after the other. -/
def performAll (s : Scores α) : List ScoreOperation → Except Fault (Scores α)
  | [] => .ok s
  | op :: ops => do (← s.perform op).performAll ops

/-- An operation that succeeds fits the table, and leaves it as large as expected. -/
theorem fit_of_perform {s next : Scores α} {op : ScoreOperation} (hok : s.perform op = .ok next) :
    op.isFit s.table.size = true ∧ next.table.size = op.sizeAfter s.table.size := by
  cases op with
  | grow v =>
    obtain rfl := Except.ok.inj hok
    exact ⟨rfl, size_grow s v⟩
  | bump v =>
    obtain ⟨_, hv, hok⟩ := Fault.bind_eq_ok_iff.1 hok
    obtain rfl := Except.ok.inj hok
    exact ⟨decide_eq_true (require_eq_ok_iff.1 hv), size_bump s v⟩
  | decay =>
    obtain rfl := Except.ok.inj hok
    exact ⟨rfl, size_decay s⟩

/-- A run that succeeds bumps only variables with a score. -/
theorem fit_of_performAll {s next : Scores α} {ops : List ScoreOperation}
    (hok : s.performAll ops = .ok next) : ScoreOperation.fit s.table.size ops = true := by
  induction ops generalizing s with
  | nil => rfl
  | cons op ops ih =>
    obtain ⟨mid, hmid, hok⟩ := Fault.bind_eq_ok_iff.1 hok
    obtain ⟨hop, hsize⟩ := fit_of_perform hmid
    exact Bool.and_eq_true_iff.2 ⟨hop, hsize ▸ ih hok⟩

/-- The scores after a bump, unless one is too large. -/
def raise (s : Scores α) (v : Variable) : Scores α :=
  { s with table := s.table.modify v fun x => x + s.increment }

/-- The scores after a decay, unless the increment is too large. -/
def age (s : Scores α) : Scores α := { s with increment := s.increment / s.decayFactor }

/-- A bump raises a score, and rescales if the score is too large then. -/
theorem bump_eq (s : Scores α) (v : Variable) : s.bump v =
    if ScoreNumber.isTooLarge ((s.raise v).score v) then (s.raise v).rescale else s.raise v := rfl

/-- A decay raises the increment, and rescales if the increment is too large then. -/
theorem decay_eq (s : Scores α) : s.decay =
    if ScoreNumber.isTooLarge s.age.increment then s.age.rescale else s.age := rfl

/-- A new variable starts with score zero, and the others keep their scores. -/
@[simp] theorem score_grow (s : Scores α) (v w : Variable) : (s.grow v).score w = s.score w :=
  Arena.getD_accommodate _ _ _ _

/-- Raising a score by the increment leaves the other scores. -/
theorem score_raise {s : Scores α} {v : Variable} (hv : v < s.table.size) (w : Variable) :
    (s.raise v).score w = if v = w then s.score w + s.increment else s.score w := by
  unfold score raise
  rw [Arena.get?_modify]
  by_cases h : v = w
  · subst h
    obtain ⟨x, hx⟩ := Option.ne_none_iff_exists'.1
      (mt (Arena.get?_eq_none_iff s.table v).1 (Nat.not_le.2 hv))
    simp [hx]
  · simp [h]

end

open ScoreOperation

variable {limit : Option ℕ} {d : ExactScore limit} {s next : Scores (ExactScore limit)}
  {ops : List ScoreOperation}

/-- Rescaling divides every score by the increment. -/
theorem score_rescale (s : Scores (ExactScore limit)) (v : Variable) :
    s.rescale.score v = s.score v / s.increment := by
  unfold score rescale
  rw [Arena.get?_map]
  cases s.table.get? v with
  | none => exact (zero_div _).symm
  | some x => rfl

/-- The scores are the weights of the bumps so far, in units of the increment. -/
structure Weighs (d : ExactScore limit) (ops : List ScoreOperation)
    (s : Scores (ExactScore limit)) : Prop where
  decayFactor_eq : s.decayFactor = d
  one_le : 1 ≤ s.increment
  score_eq : ∀ v, s.score v = weight d v ops * s.increment

/-- Nothing is above the limit: not the increment, and no score unless there were more bumps.
Without a limit there are no rescales. -/
structure Within (ops : List ScoreOperation) (s : Scores (ExactScore limit)) : Prop where
  increment_le : ∀ m : ℕ, limit = some m → 1 ≤ m → s.increment ≤ m
  score_le : ∀ m : ℕ, limit = some m → bumps ops ≤ m → ∀ v, s.score v ≤ m
  numRescales_eq : limit = none → s.numRescales = 0

/-- Before any operation no variable weighs anything. -/
theorem weighs_start (d : ExactScore limit) : (start d).Weighs d [] where
  decayFactor_eq := rfl
  one_le := le_refl _
  score_eq := by
    intro v
    simp [start, score, weight]

/-- Before any operation all scores lie within the bounds. -/
theorem within_start (d : ExactScore limit) : (start d).Within [] where
  increment_le := by
    intro m hm hone
    show (1 : ExactScore limit) ≤ m
    exact_mod_cast hone
  score_le := by
    intro m hm _ v
    show (0 : ExactScore limit) ≤ m
    positivity
  numRescales_eq := fun _ => rfl

namespace Weighs

/-- The increment is positive. -/
theorem increment_pos (h : s.Weighs d ops) : 0 < s.increment := by
  have hone := h.one_le
  linarith

/-- No score is above the number of bumps of its variable, in units of the increment. -/
theorem score_le (h : s.Weighs d ops) (hd : 0 < d) (hlt : d < 1) (v : Variable) :
    s.score v ≤ bumpsOf v ops * s.increment := by
  rw [h.score_eq]
  exact mul_le_mul_of_nonneg_right (weight_le_bumpsOf hd hlt v ops) h.increment_pos.le

/-- Scores and increment are divided by the same number. -/
theorem rescale (h : s.Weighs d ops) : s.rescale.Weighs d ops where
  decayFactor_eq := h.decayFactor_eq
  one_le := le_refl _
  score_eq := by
    intro v
    show _ = weight d v ops * 1
    rw [score_rescale, h.score_eq, mul_div_cancel_right₀ _ h.increment_pos.ne', mul_one]

/-- After a rescale the increment is one, so that the scores are the weights of the bumps. -/
theorem within_rescale (h : s.Weighs d ops) (hd : 0 < d) (hlt : d < 1) {x : ExactScore limit}
    (hlarge : ScoreNumber.isTooLarge x = true) : s.rescale.Within ops where
  increment_le := by
    intro m hm hone
    show (1 : ExactScore limit) ≤ m
    exact_mod_cast hone
  score_le := by
    intro m hm hbumps v
    have hscore : s.rescale.score v ≤ bumpsOf v ops * 1 := h.rescale.score_le hd hlt v
    have hcount : (bumpsOf v ops : ExactScore limit) ≤ m := by
      exact_mod_cast (bumpsOf_le_bumps v ops).trans hbumps
    linarith
  numRescales_eq := by
    intro hnone
    obtain ⟨m, hm, -⟩ := ExactScore.isTooLarge_iff.1 hlarge
    rw [hnone] at hm
    cases hm

/-- A new variable weighs nothing. -/
theorem grow (h : s.Weighs d ops) (v : Variable) : (s.grow v).Weighs d (ops ++ [.grow v]) where
  decayFactor_eq := h.decayFactor_eq
  one_le := h.one_le
  score_eq := by
    intro w
    show _ = _ * s.increment
    rw [score_grow, h.score_eq, weight_concat]
    simp

/-- A bump adds the weight of its time. -/
theorem raise (h : s.Weighs d ops) {v : Variable} (hv : v < s.table.size) :
    (s.raise v).Weighs d (ops ++ [.bump v]) where
  decayFactor_eq := h.decayFactor_eq
  one_le := h.one_le
  score_eq := by
    intro w
    show _ = _ * s.increment
    rw [score_raise hv, h.score_eq, weight_concat]
    by_cases hvw : v = w
    · simp [hvw]
      ring
    · simp [hvw]

/-- A decay weighs later bumps more. -/
theorem age (h : s.Weighs d ops) (hd : 0 < d) (hlt : d < 1) :
    s.age.Weighs d (ops ++ [.decay]) where
  decayFactor_eq := h.decayFactor_eq
  one_le := by
    show 1 ≤ s.increment / s.decayFactor
    rw [h.decayFactor_eq, le_div_iff₀ hd]
    have hone := h.one_le
    linarith
  score_eq := by
    intro v
    show s.score v = _ * (s.increment / s.decayFactor)
    rw [h.decayFactor_eq, h.score_eq, weight_concat, if_pos rfl, if_neg (by simp), add_zero]
    have hne : d ≠ 0 := hd.ne'
    field_simp

end Weighs

namespace Within

/-- A new variable keeps all scores within the bounds. -/
theorem grow (h : s.Within ops) (v : Variable) : (s.grow v).Within (ops ++ [.grow v]) where
  increment_le := h.increment_le
  score_le := by
    intro m hm hbumps w
    rw [score_grow]
    refine h.score_le m hm ?_ w
    simpa [bumps, isBump] using hbumps
  numRescales_eq := h.numRescales_eq

/-- A bump of which the score is not too large. -/
theorem raise (h : s.Within ops) {v : Variable} (hv : v < s.table.size)
    (hsmall : ScoreNumber.isTooLarge ((s.raise v).score v) = false) :
    (s.raise v).Within (ops ++ [.bump v]) where
  increment_le := h.increment_le
  score_le := by
    intro m hm hbumps w
    by_cases hvw : v = w
    · subst hvw
      by_contra hlarge
      rw [ExactScore.isTooLarge_iff.2 ⟨m, hm, not_le.1 hlarge⟩] at hsmall
      cases hsmall
    · rw [score_raise hv, if_neg hvw]
      refine h.score_le m hm (le_trans ?_ hbumps) w
      simp [bumps]
  numRescales_eq := h.numRescales_eq

/-- A decay of which the increment is not too large. -/
theorem age (h : s.Within ops) (hsmall : ScoreNumber.isTooLarge s.age.increment = false) :
    s.age.Within (ops ++ [.decay]) where
  increment_le := by
    intro m hm _
    by_contra hlarge
    rw [ExactScore.isTooLarge_iff.2 ⟨m, hm, not_le.1 hlarge⟩] at hsmall
    cases hsmall
  score_le := by
    intro m hm hbumps w
    refine h.score_le m hm ?_ w
    simpa [bumps, isBump] using hbumps
  numRescales_eq := h.numRescales_eq

end Within

/-- An operation keeps the scores the weights of the bumps, and within the limit. -/
theorem Weighs.perform (h : s.Weighs d ops) (hs : s.Within ops) (hd : 0 < d) (hlt : d < 1)
    {op : ScoreOperation} (hop : op.isFit s.table.size = true) :
    ∃ next, s.perform op = .ok next ∧ next.Weighs d (ops ++ [op]) ∧ next.Within (ops ++ [op]) := by
  cases op with
  | grow v => exact ⟨s.grow v, rfl, h.grow v, hs.grow v⟩
  | bump v =>
    have hv : v < s.table.size := of_decide_eq_true hop
    have hraised := h.raise hv
    refine ⟨s.bump v, Fault.bind_eq_ok_iff.2 ⟨(), require_eq_ok_iff.2 hv, rfl⟩, ?_⟩
    rw [bump_eq]
    split
    next hlarge => exact ⟨hraised.rescale, hraised.within_rescale hd hlt hlarge⟩
    next hsmall => exact ⟨hraised, hs.raise hv (Bool.eq_false_iff.2 hsmall)⟩
  | decay =>
    have haged := h.age hd hlt
    refine ⟨s.decay, rfl, ?_⟩
    rw [decay_eq]
    split
    next hlarge => exact ⟨haged.rescale, haged.within_rescale hd hlt hlarge⟩
    next hsmall => exact ⟨haged, hs.age (Bool.eq_false_iff.2 hsmall)⟩

/-- So does a run. -/
theorem Weighs.performAll {later : List ScoreOperation} (h : s.Weighs d ops) (hs : s.Within ops)
    (hd : 0 < d) (hlt : d < 1) (hfit : fit s.table.size later = true) :
    ∃ next, s.performAll later = .ok next ∧ next.Weighs d (ops ++ later) ∧
      next.Within (ops ++ later) := by
  induction later generalizing s ops with
  | nil =>
    rw [List.append_nil]
    exact ⟨s, rfl, h, hs⟩
  | cons op later ih =>
    obtain ⟨hop, hfit⟩ := Bool.and_eq_true_iff.1 hfit
    obtain ⟨mid, hmid, hweighs, hwithin⟩ := h.perform hs hd hlt hop
    rw [← (fit_of_perform hmid).2] at hfit
    obtain ⟨next, hnext, hkept⟩ := ih hweighs hwithin hfit
    rw [List.append_cons]
    exact ⟨next, Fault.bind_eq_ok_iff.2 ⟨mid, hmid, hnext⟩, hkept⟩

/-- The limit of the solver. -/
def maxScore : ℕ := 10 ^ 100

/-- Rescales do not show. Scores are the weights of the bumps in units of the increment, and compare
as the scores that were never rescaled. The increment lies between one and the limit; no score is
above the number of bumps of its variable, in units of the increment, and none is above the limit
as long as there were fewer bumps. -/
structure HidesRescales (d : ℚ) (ops : List ScoreOperation)
    (s : Scores (ExactScore (some maxScore))) (plain : Scores (ExactScore none)) : Prop where
  quotient_eq : ∀ v, s.score v / s.increment = Rat.cast (weight d v ops)
  plain_eq : plain.numRescales = 0
  order_iff : ∀ v w, s.score v ≤ s.score w ↔ plain.score v ≤ plain.score w
  one_le : 1 ≤ s.increment
  increment_le : s.increment ≤ maxScore
  score_le : ∀ v, s.score v ≤ bumpsOf v ops * s.increment
  bounded : bumps ops < maxScore → ∀ v, s.score v ≤ maxScore

/-- Scores compare as the weights of the bumps. -/
theorem Weighs.le_iff {q : ℚ} (h : s.Weighs (Rat.cast q) ops) (v w : Variable) :
    s.score v ≤ s.score w ↔ weight q v ops ≤ weight q w ops := by
  rw [h.score_eq, h.score_eq, mul_le_mul_iff_left₀ h.increment_pos, ← cast_weight, ← cast_weight,
    Rat.cast_le]

/-- Exact scores after some operations. -/
def exactly (limit : Option ℕ) (d : ℚ) (ops : List ScoreOperation) :
    Except Fault (Scores (ExactScore limit)) :=
  (start (Rat.cast d)).performAll ops

/-- New variables, bumps and decays in any order succeed exactly if the bumped variables have a
score, and rescales do not show afterwards. -/
theorem exactly_hides_rescales {d : ℚ} (hpos : 0 < d) (hlt : d < 1) (ops : List ScoreOperation) :
    ((∃ s, exactly (some maxScore) d ops = .ok s) ↔ fit 0 ops = true) ∧
      ∀ s, exactly (some maxScore) d ops = .ok s →
        ∃ plain, exactly none d ops = .ok plain ∧ s.HidesRescales d ops plain := by
  have hcast : ∀ limit, 0 < (Rat.cast d : ExactScore limit) ∧ (Rat.cast d : ExactScore limit) < 1 :=
    fun limit => ⟨Rat.cast_pos.2 hpos, by exact_mod_cast hlt⟩
  have hruns : ∀ limit, fit 0 ops = true → ∃ s : Scores (ExactScore limit),
      exactly limit d ops = .ok s ∧ s.Weighs (Rat.cast d) ops ∧ s.Within ops := fun limit hfit =>
    (weighs_start _).performAll (within_start _) (hcast limit).1 (hcast limit).2 hfit
  refine ⟨⟨fun hok => ?_, fun hfit => ?_⟩, fun s hok => ?_⟩
  · obtain ⟨s, hok⟩ := hok
    exact fit_of_performAll hok
  · obtain ⟨s, hs, -⟩ := hruns (some maxScore) hfit
    exact ⟨s, hs⟩
  · have hfit : fit 0 ops = true := fit_of_performAll hok
    obtain ⟨s', hs, hweighs, hwithin⟩ := hruns (some maxScore) hfit
    obtain rfl : s' = s := Except.ok.inj (hs.symm.trans hok)
    obtain ⟨plain, hplain, hplainWeighs, hplainWithin⟩ := hruns none hfit
    refine ⟨plain, hplain, ?_, hplainWithin.numRescales_eq rfl, ?_, hweighs.one_le, ?_, ?_, ?_⟩
    · intro v
      rw [hweighs.score_eq, cast_weight, mul_div_cancel_right₀ _ hweighs.increment_pos.ne']
    · intro v w
      rw [hweighs.le_iff, hplainWeighs.le_iff]
    · exact hwithin.increment_le maxScore rfl (by decide)
    · exact hweighs.score_le (hcast _).1 (hcast _).2
    · intro hbumps
      exact hwithin.score_le maxScore rfl hbumps.le

/-- A rescale because of a score, and one because of the increment. -/
def swellingRun : List ScoreOperation :=
  [.grow 1, .bump 0, .decay, .bump 1, .bump 1, .decay, .bump 0, .decay, .grow 3, .bump 2]

/-- The run rescales twice, and the scores order the variables as without rescaling. -/
theorem swellingRun_hides_rescales : ∃ s plain,
    exactly (some maxScore) (1 / (6 * 10 ^ 99)) swellingRun = .ok s ∧
      exactly none (1 / (6 * 10 ^ 99)) swellingRun = .ok plain ∧
      s.HidesRescales (1 / (6 * 10 ^ 99)) swellingRun plain ∧ s.numRescales = 2 := by
  have hpos : (0 : ℚ) < 1 / (6 * 10 ^ 99) := by norm_num
  have hlt : (1 : ℚ) / (6 * 10 ^ 99) < 1 := by norm_num
  obtain ⟨hsucceeds, hhides⟩ := exactly_hides_rescales hpos hlt swellingRun
  obtain ⟨s, hs⟩ := hsucceeds.2 (by decide)
  obtain ⟨plain, hplain, hhidden⟩ := hhides s hs
  have hend : (exactly (some maxScore) (1 / (6 * 10 ^ 99)) swellingRun).map numRescales =
      .ok 2 := by decide +kernel
  rw [hs] at hend
  exact ⟨s, plain, hs, hplain, hhidden, Except.ok.inj hend⟩

end Scores

end ClauseLearning
