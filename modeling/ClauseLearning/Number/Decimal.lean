import ClauseLearning.Number.Binary64

/-!
# Decimal texts of doubles

Two ways to write a double in decimal. `Binary64.text` writes the fewest digits that read back as
the same double, always positionally and never with an exponent. `Binary64.tenths` rounds the exact
value to one place.

A positive double is a fraction `m * 2 ^ q`. The reals that round to it form an interval around
it, closed exactly when `m` is even. For the fewest digits one looks for the coarsest power of ten
of which a multiple lies in the interval; if any multiple does, then one of the two multiples next
to the value does, so only these two are tested.
-/

set_option autoImplicit false

namespace ClauseLearning

/-- A decimal number `digits * 10 ^ exponent`. -/
structure Decimal where
  digits : Nat
  exponent : Int
  deriving DecidableEq, Repr

/-- A positive number `mantissa * 2 ^ exponent`. At a boundary the next smaller double is only half
as far away as the next larger one, which decides which reals round to the number. -/
structure BinaryFraction where
  mantissa : Nat
  exponent : Int
  atBoundary : Bool
  deriving DecidableEq, Repr

/-- How a rounding resolves a value that lies halfway between its two candidates: to the one farther
from zero, or to the even one. -/
inductive TieRule where
  | away
  | even
  deriving DecidableEq, Repr

/-- A power of ten. -/
def powerOfTen (k : Nat) : Nat := Nat.pow 10 k

/-- The quotient of two natural numbers, rounded to the nearest natural number. -/
def roundDiv (num den : Nat) (tie : TieRule) : Nat :=
  let low := num / den
  let rest := num % den
  if 2 * rest < den then low
  else if den < 2 * rest then low + 1
  else match tie with
    | .away => low + 1
    | .even => if low % 2 = 0 then low else low + 1

namespace BinaryFraction

/-- The fraction `num / den` of four times a power-of-two multiple: numerator and denominator of
`k * 2 ^ (q - 2)`, where `q` is the exponent. -/
def scaled (x : BinaryFraction) (k : Nat) : Nat × Nat :=
  let e := x.exponent - 2
  if 0 ≤ e then (k <<< e.toNat, 1) else (k, 1 <<< (-e).toNat)

/-- The value as a numerator and a denominator. -/
def value (x : BinaryFraction) : Nat × Nat := x.scaled (4 * x.mantissa)

/-- The lower end of the interval of reals that round to the value. -/
def low (x : BinaryFraction) : Nat × Nat :=
  x.scaled (4 * x.mantissa - if x.atBoundary then 1 else 2)

/-- The upper end of the interval of reals that round to the value. -/
def high (x : BinaryFraction) : Nat × Nat := x.scaled (4 * x.mantissa + 2)

/-- A natural multiple of a power of ten as a numerator and a denominator. -/
def gridPoint (n : Nat) (k : Int) : Nat × Nat :=
  if 0 ≤ k then (n * powerOfTen k.toNat, 1) else (n, powerOfTen (-k).toNat)

/-- Whether one fraction is below another. -/
def below (a b : Nat × Nat) : Bool := decide (a.1 * b.2 < b.1 * a.2)

/-- Whether `n * 10 ^ k` reads back as the value. -/
def readsBack (x : BinaryFraction) (n : Nat) (k : Int) : Bool :=
  let p := gridPoint n k
  if x.mantissa % 2 = 0 then !below p x.low && !below x.high p
  else below x.low p && below p x.high

/-- The largest multiple of `10 ^ k` that is not above the value, divided by `10 ^ k`. -/
def floorAt (x : BinaryFraction) (k : Int) : Nat :=
  let v := x.value
  if 0 ≤ k then v.1 / (v.2 * powerOfTen k.toNat) else v.1 * powerOfTen (-k).toNat / v.2

/-- Of the two multiples of `10 ^ k` next to the value, the one that reads back as the value; the
nearer one if both do, and the larger one if they are equally near. -/
def candidate? (x : BinaryFraction) (k : Int) : Option Nat :=
  let n := x.floorAt k
  match x.readsBack n k, x.readsBack (n + 1) k with
  | true, false => some n
  | false, true => some (n + 1)
  | false, false => none
  | true, true =>
    let v := x.value
    let mid := gridPoint (2 * n + 1) k
    if below (2 * v.1, v.2) mid then some n else some (n + 1)

/-- The first power of ten, going down from `k` for at most the given number of steps, at which
some multiple reads back as the value. -/
def shortestFrom (x : BinaryFraction) : Nat → Int → Decimal
  | 0, k => ⟨x.floorAt k, k⟩
  | steps + 1, k =>
    match x.candidate? k with
    | some n => ⟨n, k⟩
    | none => shortestFrom x steps (k - 1)

/-- The number of decimal digits of a natural number. -/
def digitCount (n : Nat) : Nat := (Nat.toDigits 10 n).length

/-- The decimal with the fewest digits that reads back as the value. The search starts above the
value; seventeen digits always suffice, so it ends within twenty steps. -/
def shortest (x : BinaryFraction) : Decimal :=
  let v := x.value
  x.shortestFrom 20 ((digitCount v.1 : Int) - (digitCount v.2 : Int) + 1)

end BinaryFraction

namespace Decimal

/-- The decimal written positionally, without an exponent. -/
def text (d : Decimal) : String :=
  let ds := Nat.toDigits 10 d.digits
  if 0 ≤ d.exponent then
    String.ofList (ds ++ List.replicate d.exponent.toNat '0')
  else
    let places := (-d.exponent).toNat
    let padded := List.replicate (places + 1 - ds.length) '0' ++ ds
    let whole := padded.length - places
    String.ofList (padded.take whole ++ '.' :: padded.drop whole)

end Decimal

namespace Binary64

/-- The number of values of the fraction bits. -/
def fractionSize : Nat := 0x10000000000000

/-- The value of a positive finite double without its sign; the boundary is a fraction part of
zero with a smaller exponent below it. -/
def fraction (x : Binary64) : BinaryFraction :=
  let e : Nat := x.magnitude / fractionSize
  let f : Nat := x.magnitude % fractionSize
  if e = 0 then ⟨f, -1074, false⟩
  else ⟨fractionSize + f, (e : Int) - 1075, f == 0 && decide (1 < e)⟩

/-- The text of a double: a sign where it is negative, then what the function for positive finite
values says. -/
def signedText (x : Binary64) (finite : BinaryFraction → String) : String :=
  if x.isNaN then "NaN"
  else
    let sign := if x.isNegative then "-" else ""
    if x.magnitude = 0x7ff0000000000000 then sign ++ "inf"
    else sign ++ finite x.fraction

/-- The fewest digits that read back as the double, without an exponent and without a fraction
part for whole numbers. -/
def text (x : Binary64) : String :=
  x.signedText fun v => if v.mantissa = 0 then "0" else v.shortest.text

/-- The double rounded to one decimal place; a value halfway between two goes to the even one. -/
def tenths (x : Binary64) : String :=
  x.signedText fun v =>
    let r := roundDiv (10 * v.value.1) v.value.2 .even
    toString (r / 10) ++ "." ++ toString (r % 10)

/-- Sixteen hexadecimal digits for the bits. -/
def hexText (x : Binary64) : String :=
  let ds := Nat.toDigits 16 x.bits.toNat
  String.ofList (List.replicate (16 - ds.length) '0' ++ ds)

/-- The value of a hexadecimal digit. -/
def hexDigit? (c : Char) : Option Nat :=
  if '0' ≤ c ∧ c ≤ '9' then some (c.toNat - '0'.toNat)
  else if 'a' ≤ c ∧ c ≤ 'f' then some (c.toNat - 'a'.toNat + 10)
  else if 'A' ≤ c ∧ c ≤ 'F' then some (c.toNat - 'A'.toNat + 10)
  else none

/-- The double whose bits are written as hexadecimal digits. -/
def ofHex? (s : String) : Option Binary64 :=
  (s.toList.foldlM (fun acc c => (hexDigit? c).map (16 * acc + ·)) 0).map
    fun n => ⟨UInt64.ofNat n⟩

end Binary64

end ClauseLearning
