/-!
# Shortest decimal text of binary floating-point values

A finite binary value `m · 2 ^ q` is read back from every real number in its rounding
interval: the reals closer to it than to either neighbour, ends included exactly when `m`
is even. The shortest decimal is the decimal with the fewest significant digits inside that
interval; among several with that many digits the one nearest the value is chosen, and an
exact tie goes to the even last digit.

Everything is computed in exact `Nat` arithmetic from the bit pattern, for any binary
interchange format described by a `BinaryFormat` record.
-/

namespace TaylorOde

/-- A binary interchange format: the number of stored fraction bits, the number of exponent
bits, and the most significant digits a shortest decimal can need. -/
structure BinaryFormat where
  fractionBits : Nat
  exponentBits : Nat
  maxDigits : Nat

namespace BinaryFormat

/-- IEEE binary64. -/
def binary64 : BinaryFormat := ⟨52, 11, 17⟩

/-- IEEE binary32. -/
def binary32 : BinaryFormat := ⟨23, 8, 9⟩

/-- The exponent bias. -/
def bias (f : BinaryFormat) : Nat := Nat.pow 2 (f.exponentBits - 1) - 1

/-- The all-ones biased exponent, which marks infinities and NaNs. -/
def exponentAllOnes (f : BinaryFormat) : Nat := Nat.pow 2 f.exponentBits - 1

end BinaryFormat

/-- What a bit pattern denotes: a NaN, a signed infinity, or a signed finite value
`significand · 2 ^ power`, with the flag `tight` set when the gap to the next smaller
magnitude is half the gap to the next larger one (the significand is a power of two and
the exponent is not the smallest). -/
inductive BinaryValue where
  | nan
  | infinite (negative : Bool)
  | finite (negative : Bool) (significand : Nat) (power : Int) (tight : Bool)
  deriving Repr, BEq

namespace BinaryFormat

/-- Splits a bit pattern into sign, exponent and fraction fields and decodes them. -/
def decode (f : BinaryFormat) (bits : Nat) : BinaryValue :=
  let fraction := bits % Nat.pow 2 f.fractionBits
  let exponent := (bits / Nat.pow 2 f.fractionBits) % Nat.pow 2 f.exponentBits
  let negative := decide (Nat.pow 2 (f.fractionBits + f.exponentBits) ≤ bits)
  if exponent = f.exponentAllOnes then
    if fraction = 0 then .infinite negative else .nan
  else if exponent = 0 then
    .finite negative fraction (1 - (f.bias : Int) - f.fractionBits) false
  else
    .finite negative (Nat.pow 2 f.fractionBits + fraction)
      ((exponent : Int) - f.bias - f.fractionBits) (fraction = 0 && exponent > 1)

end BinaryFormat

/-- The number of decimal digits of a positive number (one for zero). -/
def decimalLength (n : Nat) : Nat :=
  if n < 10 then 1 else decimalLength (n / 10) + 1
termination_by n
decreasing_by omega

/-- `10 ^ e` for a non-negative part and the matching scale for a negative one: the pair
`(num, den)` with `num / den = 10 ^ e`. -/
def tenPow (e : Int) : Nat × Nat :=
  if 0 ≤ e then (Nat.pow 10 e.toNat, 1) else (1, Nat.pow 10 (-e).toNat)

/-- `2 ^ e` as a pair `(num, den)`, in the manner of `tenPow`. -/
def twoPow (e : Int) : Nat × Nat :=
  if 0 ≤ e then (Nat.pow 2 e.toNat, 1) else (1, Nat.pow 2 (-e).toNat)

/-- The decimal exponent `⌊log₁₀ (n / d)⌋` of a positive fraction. -/
def decimalExponent (n d : Nat) : Int :=
  if d ≤ n then (decimalLength (n / d) : Int) - 1
  else
    let t := decimalLength (d / n) - 1
    if d ≤ n * Nat.pow 10 t then -(t : Int) else -((t : Int) + 1)

/-- A decimal `digits · 10 ^ exponent`. -/
structure Decimal where
  digits : Nat
  exponent : Int
  deriving Repr, BEq, DecidableEq

namespace Decimal

/-- Removes trailing zero digits, raising the exponent to keep the value. -/
def normalize (d : Decimal) : Decimal :=
  if d.digits ≠ 0 ∧ d.digits % 10 = 0 then
    normalize ⟨d.digits / 10, d.exponent + 1⟩
  else d
termination_by d.digits
decreasing_by omega

end Decimal

/-- The rounding interval of the positive value `m · 2 ^ q`, measured in units of
`2 ^ (q - 2)`: the value itself, the lower end and the upper end. -/
def roundingInterval (m : Nat) (tight : Bool) : Nat × Nat × Nat :=
  (4 * m, (if tight then 4 * m - 1 else 4 * m - 2), 4 * m + 2)

/-- The candidate of the grid `10 ^ k` nearest the value, if one lies in the rounding
interval. Compares `c · 10 ^ k` with `x · 2 ^ (q - 2)` as `c · p` with `x · s`. -/
def gridCandidate (m : Nat) (q : Int) (tight : Bool) (k : Int) : Option Nat :=
  let (v, lo, hi) := roundingInterval m tight
  let inclusive := m % 2 == 0
  let (tn, td) := tenPow k
  let (bn, bd) := twoPow (q - 2)
  -- `c · 10 ^ k` against `x · 2 ^ (q - 2)` becomes `c · p` against `x · s`
  let p := tn * bd
  let s := bn * td
  let inside (c : Nat) : Bool :=
    (lo * s < c * p || (inclusive && lo * s == c * p)) &&
      (c * p < hi * s || (inclusive && c * p == hi * s))
  let below := v * s / p
  let above := below + 1
  let distBelow := v * s - below * p
  let distAbove := above * p - v * s
  match inside below, inside above with
  | true, true =>
    if distBelow < distAbove then some below
    else if distAbove < distBelow then some above
    else if below % 2 == 0 then some below else some above
  | true, false => some below
  | false, true => some above
  | false, false => none

/-- The shortest decimal of the positive value `m · 2 ^ q`: the first of the grids with
`1, 2, …, maxDigits` significant digits that holds a point of the rounding interval. -/
def shortestDecimal (maxDigits : Nat) (m : Nat) (q : Int) (tight : Bool) : Decimal :=
  let (bn, bd) := twoPow q
  let e := decimalExponent (m * bn) bd
  let found := (List.range (maxDigits + 1)).findSome? fun (i : Nat) =>
    let k := e - (i : Int)
    (gridCandidate m q tight k).map fun c => Decimal.mk c k
  match found with
  | some d => d.normalize
  | none =>
    -- the exact value lies in its own interval; interchange formats never get here
    if 0 ≤ q then Decimal.normalize ⟨m * Nat.pow 2 q.toNat, 0⟩
    else Decimal.normalize ⟨m * Nat.pow 5 (-q).toNat, q⟩

/-- What a float shows in decimal: NaN, a signed infinity, a signed zero, or a signed
nonzero shortest decimal. -/
inductive DecimalValue where
  | nan
  | infinite (negative : Bool)
  | zero (negative : Bool)
  | finite (negative : Bool) (value : Decimal)
  deriving Repr, BEq

namespace BinaryFormat

/-- The shortest decimal text value of a bit pattern of this format. -/
def toDecimal (f : BinaryFormat) (bits : Nat) : DecimalValue :=
  match f.decode bits with
  | .nan => .nan
  | .infinite s => .infinite s
  | .finite s m q tight =>
    if m = 0 then .zero s else .finite s (shortestDecimal f.maxDigits m q tight)

end BinaryFormat

/-- The shortest decimal of a binary64 value. -/
def Float.toDecimal (x : Float) : DecimalValue :=
  BinaryFormat.binary64.toDecimal x.toBits.toNat

/-- The shortest decimal of a binary32 value. -/
def Float32.toDecimal (x : Float32) : DecimalValue :=
  BinaryFormat.binary32.toDecimal x.toBits.toNat

end TaylorOde
