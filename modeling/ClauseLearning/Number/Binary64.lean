/-!
# Double precision numbers

A double is its 64 bits: a sign bit, eleven exponent bits and 52 fraction bits. Arithmetic on
numbers is the rounded arithmetic of `Float`. What `Float` leaves open is which of the many bit
patterns of "not a number" an operation answers with. The rule here: an operand that is not a
number is handed on with its quiet bit set, the first operand before the second; an operation on
numbers without a result answers with the negative quiet pattern `invalid`.
-/

set_option autoImplicit false

namespace ClauseLearning

/-- A double precision number, given by its bits: sign, exponent and fraction, from the highest bit
down. -/
structure Binary64 where
  bits : UInt64
  deriving DecidableEq, Repr, Inhabited

namespace Binary64

/-- The number zero. -/
def zero : Binary64 := ⟨0⟩

/-- The number one. -/
def one : Binary64 := ⟨0x3ff0000000000000⟩

/-- The answer of an operation that has no result, such as the difference of two infinities. -/
def invalid : Binary64 := ⟨0xfff8000000000000⟩

/-- The double nearest to a natural number. -/
def ofNat (n : Nat) : Binary64 := ⟨(Float.ofNat n).toBits⟩

/-- The value for the arithmetic of `Float`. -/
def toFloat (x : Binary64) : Float := Float.ofBits x.bits

/-- The highest of the 64 bits. -/
def signBit : Nat := 0x8000000000000000

/-- Whether the sign bit is set. -/
def isNegative (x : Binary64) : Bool := decide (signBit ≤ x.bits.toNat)

/-- The bits without the sign. -/
def magnitude (x : Binary64) : Nat := x.bits.toNat % signBit

/-- Whether the bits are a pattern of "not a number". -/
def isNaN (x : Binary64) : Bool := decide (0x7ff0000000000000 < x.magnitude)

/-- The pattern with the quiet bit set. -/
def quiet (x : Binary64) : Binary64 := ⟨x.bits ||| 0x0008000000000000⟩

/-- An operation of `Float` under the rule for operands and results that are not numbers. -/
def lift (op : Float → Float → Float) (x y : Binary64) : Binary64 :=
  if x.isNaN then x.quiet
  else if y.isNaN then y.quiet
  else
    let r := op x.toFloat y.toFloat
    if r.isNaN then invalid else ⟨r.toBits⟩

/-- The rounded sum. -/
def add (x y : Binary64) : Binary64 := lift (· + ·) x y

/-- The rounded difference. -/
def sub (x y : Binary64) : Binary64 := lift (· - ·) x y

/-- The rounded product. -/
def mul (x y : Binary64) : Binary64 := lift (· * ·) x y

/-- The rounded quotient. -/
def div (x y : Binary64) : Binary64 := lift (· / ·) x y

instance : Zero Binary64 := ⟨zero⟩
instance : One Binary64 := ⟨one⟩
instance : Add Binary64 := ⟨add⟩
instance : Sub Binary64 := ⟨sub⟩
instance : Mul Binary64 := ⟨mul⟩
instance : Div Binary64 := ⟨div⟩

/-- Whether `x` lies below `y`; false when one of them is not a number. -/
def isLess (x y : Binary64) : Bool := decide (x.toFloat < y.toFloat)

/-- Whether `x` lies below or at `y`; false when one of them is not a number. -/
def isAtMost (x y : Binary64) : Bool := decide (x.toFloat ≤ y.toFloat)

/-- The place of a double in the total order of all bit patterns: negative patterns first, those
of larger magnitude before those of smaller, then the others by magnitude. -/
def orderKey (x : Binary64) : Nat :=
  if x.isNegative then signBit - 1 - x.magnitude else signBit + x.magnitude

end Binary64

end ClauseLearning
