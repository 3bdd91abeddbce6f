import TaylorOde.Decimal.Shortest
/-!
# Exact values of binary data and correct rounding back to them

Every finite datum of a binary format is a signed dyadic number `± m · 2 ^ q`. Sums and
products of such numbers are again dyadic and are computed here without any rounding, as an
integer significand over a common power of two. `BinaryFormat.encode` rounds an exact dyadic
number once to the nearest datum, a tie going to the even significand, with gradual underflow
below the normal range and overflow to infinity above the largest finite magnitude.

`BinaryFormat.fusedMulAdd` is `x · y + z` rounded once: the exact product and sum, then
`encode`. Its special cases are those of IEEE 754: a NaN operand or `0 · ∞` or `∞ - ∞` gives
the quiet NaN, and an exact zero result is `-0` only when the product and the addend are both
negative zeros.

`BinaryFormat.hypot` is `√(x² + y²)` rounded once: the exact sum of squares, an integer square
root with enough extra bits that the remainder only decides ties, then `encode`. An infinite
operand gives infinity even beside a NaN.
-/

namespace TaylorOde

namespace BinaryFormat

/-- The bit that marks a negative datum. -/
def signMask (f : BinaryFormat) : Nat := Nat.pow 2 (f.fractionBits + f.exponentBits)

/-- The encoding of positive infinity. -/
def infinityBits (f : BinaryFormat) : Nat := f.exponentAllOnes * Nat.pow 2 f.fractionBits

/-- The encoding of the default quiet NaN. -/
def quietNaNBits (f : BinaryFormat) : Nat :=
  f.infinityBits + Nat.pow 2 (f.fractionBits - 1)

/-- The exponent of the least significant bit of every subnormal: the smallest positive datum
is `2 ^ minQuantum`. -/
def minQuantum (f : BinaryFormat) : Int := 1 - (f.bias : Int) - f.fractionBits

/-- `n / 2 ^ s` rounded to the nearest integer, a tie going to the even one. -/
def roundShift (n s : Nat) : Nat :=
  if s = 0 then n
  else
    let q := n / Nat.pow 2 s
    let r := n % Nat.pow 2 s
    let half := Nat.pow 2 (s - 1)
    if half < r ∨ (r = half ∧ q % 2 = 1) then q + 1 else q

/-- The datum nearest to `± m · 2 ^ e`, ties to even, as a bit pattern. -/
def encode (f : BinaryFormat) (negative : Bool) (m : Nat) (e : Int) : Nat :=
  let sign := if negative then f.signMask else 0
  if m = 0 then sign
  else
    let precision := f.fractionBits + 1
    let width : Int := (Nat.log2 m : Int) + 1
    let quantum := max (e + width - precision) f.minQuantum
    let shift := quantum - e
    let rounded := if shift ≤ 0 then m * Nat.pow 2 (-shift).toNat else roundShift m shift.toNat
    -- a carry out of the top bit moves to the next binade
    let (sig, quantum) :=
      if rounded = Nat.pow 2 precision then (Nat.pow 2 f.fractionBits, quantum + 1) else (rounded, quantum)
    if sig < Nat.pow 2 f.fractionBits then sign + sig
    else
      let field := quantum + f.bias + f.fractionBits
      if (f.exponentAllOnes : Int) ≤ field then sign + f.infinityBits
      else sign + field.toNat * Nat.pow 2 f.fractionBits + (sig - Nat.pow 2 f.fractionBits)

/-- An exact signed dyadic number `significand · 2 ^ power`. -/
structure Dyadic where
  significand : Int
  power : Int

namespace Dyadic

/-- The exact product. -/
def mul (a b : Dyadic) : Dyadic := ⟨a.significand * b.significand, a.power + b.power⟩

/-- The exact sum, over the smaller of the two powers. -/
def add (a b : Dyadic) : Dyadic :=
  let p := min a.power b.power
  ⟨a.significand * Nat.pow 2 (a.power - p).toNat + b.significand * Nat.pow 2 (b.power - p).toNat, p⟩

end Dyadic

/-- The exact value of a finite datum; `none` for NaN and the infinities. -/
def exactValue (f : BinaryFormat) (bits : Nat) : Option Dyadic :=
  match f.decode bits with
  | .finite negative m q _ => some ⟨if negative then -(m : Int) else m, q⟩
  | _ => none

/-- The datum nearest to an exact dyadic number; an exact zero takes the given sign. -/
def encodeDyadic (f : BinaryFormat) (d : Dyadic) (zeroNegative : Bool) : Nat :=
  if d.significand = 0 then (if zeroNegative then f.signMask else 0)
  else f.encode (d.significand < 0) d.significand.natAbs d.power

/-- `x · y + z` with a single rounding, on bit patterns. -/
def fusedMulAdd (f : BinaryFormat) (x y z : Nat) : Nat :=
  match f.decode x, f.decode y, f.decode z with
  | .nan, _, _ | _, .nan, _ | _, _, .nan => f.quietNaNBits
  | .infinite sx, .finite sy my _ _, vz =>
    if my = 0 then f.quietNaNBits else withInfinity f (sx != sy) vz
  | .finite sx mx _ _, .infinite sy, vz =>
    if mx = 0 then f.quietNaNBits else withInfinity f (sx != sy) vz
  | .infinite sx, .infinite sy, vz => withInfinity f (sx != sy) vz
  | .finite _ _ _ _, .finite _ _ _ _, .infinite sz =>
    f.infinityBits + (if sz then f.signMask else 0)
  | .finite sx mx qx _, .finite sy my qy _, .finite sz mz qz _ =>
    let signed (s : Bool) (m : Nat) : Int := if s then -(m : Int) else m
    let product := Dyadic.mul ⟨signed sx mx, qx⟩ ⟨signed sy my, qy⟩
    let total := Dyadic.add product ⟨signed sz mz, qz⟩
    let productNegative := sx != sy
    f.encodeDyadic total (productNegative && sz && (mx = 0 ∨ my = 0) && mz = 0)
where
  /-- An infinite product with the given sign plus `z`. -/
  withInfinity (f : BinaryFormat) (negative : Bool) : BinaryValue → Nat
    | .infinite sz => if sz != negative then f.quietNaNBits else
        f.infinityBits + (if negative then f.signMask else 0)
    | _ => f.infinityBits + (if negative then f.signMask else 0)

/-- The square root of `m · 2 ^ e` rounded once to the nearest datum. The significand is
widened so that the integer root has three bits below the rounding position, and the power
of two left over is even; a nonzero remainder sets the lowest bit, which breaks ties. -/
def sqrtDyadic (f : BinaryFormat) (m : Nat) (e : Int) : Nat :=
  let k := 2 * (f.fractionBits + 4)
  let shift : Nat := if (e - k) % 2 = 0 then k else k + 1
  let s := m * Nat.pow 2 shift
  let r := Nat.sqrt s
  let sticky := if r * r = s then 0 else 1
  f.encode false (2 * r + sticky) ((e - shift) / 2 - 1)

/-- `√(x² + y²)` with a single rounding, on bit patterns. -/
def hypot (f : BinaryFormat) (x y : Nat) : Nat :=
  match f.decode x, f.decode y with
  | .infinite _, _ | _, .infinite _ => f.infinityBits
  | .nan, _ | _, .nan => f.quietNaNBits
  | .finite _ mx qx _, .finite _ my qy _ =>
    let total := Dyadic.add (Dyadic.mul ⟨mx, qx⟩ ⟨mx, qx⟩) (Dyadic.mul ⟨my, qy⟩ ⟨my, qy⟩)
    if total.significand = 0 then 0 else f.sqrtDyadic total.significand.natAbs total.power

/-- A datum of one format re-encoded in another: its exact value rounded once, an infinity
kept with its sign, and a NaN made the quiet NaN. Between `binary32` and `binary64` this is
the conversion of IEEE 754 in either direction. -/
def convert (src dst : BinaryFormat) (bits : Nat) : Nat :=
  match src.decode bits with
  | .nan => dst.quietNaNBits
  | .infinite negative => dst.infinityBits + (if negative then dst.signMask else 0)
  | .finite negative m q _ => dst.encode negative m q

end BinaryFormat

/-- `√(x² + y²)` with a single rounding in binary64. -/
def Float.hypot (x y : Float) : Float :=
  Float.ofBits (BinaryFormat.binary64.hypot x.toBits.toNat y.toBits.toNat).toUInt64

/-- `x · y + z` with a single rounding in binary64. -/
def Float.fusedMulAdd (x y z : Float) : Float :=
  Float.ofBits (BinaryFormat.binary64.fusedMulAdd x.toBits.toNat y.toBits.toNat
    z.toBits.toNat).toUInt64

/-- `x` rounded to the nearest binary32 datum and read back in binary64, as converting to
binary32 and back does: ties to even, gradual underflow, overflow to infinity. -/
def Float.roundToBinary32 (x : Float) : Float :=
  Float.ofBits (BinaryFormat.binary32.convert .binary64
    (BinaryFormat.binary64.convert .binary32 x.toBits.toNat)).toUInt64

/-- `x · y + z` with a single rounding in binary32. -/
def Float32.fusedMulAdd (x y z : Float32) : Float32 :=
  Float32.ofBits (BinaryFormat.binary32.fusedMulAdd x.toBits.toNat y.toBits.toNat
    z.toBits.toNat).toUInt32

end TaylorOde
