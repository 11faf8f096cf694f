import ClauseLearning.Decision.BumpOrder
import ClauseLearning.Number.Average
import ClauseLearning.Number.Decimal

/-!
# Options

What a caller may choose: how clauses are shrunk, how fast scores and averages forget, in which
order variables are bumped, and which learned clauses carry a stamp.
-/

set_option autoImplicit false

namespace ClauseLearning

/-- The choices of the caller: whether learned clauses are shrunk and the depth at which shrinking
gives up, what the score increment is divided by after a conflict, the size and the glue up to which
learned clauses carry no stamp, the order of bumps, and the weights of the averages. -/
structure Options where
  minimise : Bool := true
  minimiseDepth : Nat := 1000
  decay : Binary64 := ⟨0x3fee666666666666⟩
  keepSize : Nat := 3
  keepGlue : Nat := 2
  bumpOrder : BumpOrder := .bumpedPlusTrail
  fastGlueWeight : Binary64 := ⟨0x3f9eb851eb851eb8⟩
  slowGlueWeight : Binary64 := ⟨0x3ee4f8b588e368f1⟩
  jumpWeight : Binary64 := ⟨0x3eb0c6f7a0b5ed8d⟩
  deriving DecidableEq, Repr

/-- Why options are refused. -/
inductive OptionsError where
  | invalidDecay (d : Binary64)
  | invalidBumpOrder (n : Nat)
  | invalidBumpOrderName (s : String)
  | invalidWeight (w : Binary64)
  deriving DecidableEq, Repr

namespace OptionsError

/-- The sentence that explains a refusal. -/
def message : OptionsError → String
  | invalidDecay d =>
    "the score decay factor must lie strictly between 0 and 1, got " ++ d.text
  | invalidBumpOrder n => "bump sort must be an integer in 0..=5, got " ++ toString n
  | invalidBumpOrderName s => "invalid variant: " ++ s
  | invalidWeight w => "moving average weights must lie in (0, 1], got " ++ w.text

end OptionsError

namespace BumpOrder

/-- The order with a given number, or the refusal of the number. -/
def ofNumber (n : Nat) : Except OptionsError BumpOrder :=
  match ofNumber? n with
  | some o => .ok o
  | none => .error (.invalidBumpOrder n)

/-- The order with a given name, or the refusal of the name. -/
def ofName (s : String) (ignoreCase : Bool) : Except OptionsError BumpOrder :=
  match ofName? s ignoreCase with
  | some o => .ok o
  | none => .error (.invalidBumpOrderName s)

end BumpOrder

namespace Options

/-- The weights of the averages. -/
def weights (o : Options) : List Binary64 :=
  [o.fastGlueWeight, o.slowGlueWeight, o.jumpWeight]

/-- Refuse a decay factor and weights that are out of range; the first refusal counts. -/
def validate (o : Options) : Except OptionsError Unit :=
  if o.decay.isDecayFactor then
    match o.weights.find? fun w => !ExponentialAverage.isWeight w with
    | some w => .error (.invalidWeight w)
    | none => .ok ()
  else .error (.invalidDecay o.decay)

/-- Whether a learned clause of this size and glue carries a stamp. -/
def tracks (o : Options) (size glue : Nat) : Bool :=
  decide (o.keepSize < size) && decide (o.keepGlue < glue)

end Options

end ClauseLearning
