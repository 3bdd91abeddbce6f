import TaylorOde.Scalar
import Mathlib.Algebra.Order.Field.Rat
/-!
# Exact readings of scalar arithmetic

The numerical kernels are written over a `Scalar`, a floating-point type. To say what they
compute, their scalars are read exactly in a commutative ring through a map `val`: a
`Scalar.RingReading val` says that `val` reads zero and one as themselves and sums and products
without rounding, and `Scalar.OrderReading val` that the comparisons compare the readings.
Binary64 and binary32 have no such reading into a nontrivial ring; the rationals, with the
scalar operations below, read themselves exactly (`ringReading_rat`, `orderReading_rat`).

The rational scalar takes binary64 values at their exact value (`exactValue`) and computes
sums, products, quotients, comparisons, `fma`, `floor` and `ceil` exactly; the elementary
functions, the encodings and the texts go through the nearest binary64 value.
-/

namespace TaylorOde

namespace Scalar

variable {α : Type} [Scalar α] {R : Type*}

/-- `val` reads the scalar arithmetic exactly in the commutative ring `R`: zero and one are read
as themselves, and sums and products are not rounded. -/
structure RingReading [CommRing R] (val : α → R) : Prop where
  zero : val zero = 0
  one : val one = 1
  add : ∀ a b, val (a + b) = val a + val b
  mul : ∀ a b, val (a * b) = val a * val b

/-- `val` reads the comparison `<` of scalars as the order of `R`. -/
structure OrderReading [LT R] (val : α → R) : Prop where
  lt : ∀ a b, Scalar.lt a b = true ↔ val a < val b

/-- `val` reads the scalars exactly in the ordered field `R`: sums, products and quotients are
not rounded, equality and `<` compare the readings, and the literal `0.5` is read as a half. -/
structure FieldReading [Field R] [LinearOrder R] (val : α → R) : Prop
    extends RingReading val, OrderReading val where
  div : ∀ a b, val (a / b) = val a / val b
  eq : ∀ a b, Scalar.eq a b = true ↔ val a = val b
  half : val (ofFloat 0.5) = 1 / 2

end Scalar

open Float.Model in
/-- The exact rational value of a binary64 value; NaN and the infinities read as zero. -/
def exactValue (x : Float) : ℚ :=
  match x.toModel.unpack with
  | .finite .positive m e _ => m * (2 : ℚ) ^ e
  | .finite .negative m e _ => -(m * (2 : ℚ) ^ e)
  | _ => 0

/-- The binary64 value nearest a rational, its numerator and denominator each rounded first. -/
def ratToFloat (q : ℚ) : Float := Float.ofInt q.num / Float.ofNat q.den

/-- The rationals as an exact scalar: binary64 values are read at their exact values, and
arithmetic, comparisons, `fma`, `floor` and `ceil` are exact. Nothing is NaN or infinite, and
the gap above one is zero. The elementary functions, encodings and texts are those of the
nearest binary64 value. -/
instance : Scalar ℚ where
  kind := .arbitrary
  ofFloat := exactValue
  toFloat := ratToFloat
  lt a b := decide (a < b)
  le a b := decide (a ≤ b)
  eq a b := decide (a = b)
  isNaN _ := false
  isFinite _ := true
  isInf _ := false
  abs a := |a|
  sqrt a := exactValue (ratToFloat a).sqrt
  exp a := exactValue (ratToFloat a).exp
  log a := exactValue (ratToFloat a).log
  pow a b := exactValue ((ratToFloat a).pow (ratToFloat b))
  sin a := exactValue (ratToFloat a).sin
  cos a := exactValue (ratToFloat a).cos
  tan a := exactValue (ratToFloat a).tan
  asin a := exactValue (ratToFloat a).asin
  acos a := exactValue (ratToFloat a).acos
  atan a := exactValue (ratToFloat a).atan
  atan2 a b := exactValue ((ratToFloat a).atan2 (ratToFloat b))
  sinh a := exactValue (ratToFloat a).sinh
  cosh a := exactValue (ratToFloat a).cosh
  tanh a := exactValue (ratToFloat a).tanh
  floor a := a.floor
  ceil a := a.ceil
  fma a b c := a * b + c
  epsilon := 0
  signBit a := decide (a < 0)
  byteWidth := 8
  bits a := (ratToFloat a).toBits.toNat
  ofBits n := exactValue (Float.ofBits n.toUInt64)
  generalText a := Float.generalText (ratToFloat a)
  plainText a := Float.plainText (ratToFloat a)
  scientificText a := Float.scientificText (ratToFloat a)

namespace Scalar

/-- The rational scalar reads itself exactly. -/
theorem ringReading_rat : RingReading (id : ℚ → ℚ) where
  zero := by decide +kernel
  one := by decide +kernel
  add _ _ := rfl
  mul _ _ := rfl

theorem orderReading_rat : OrderReading (id : ℚ → ℚ) where
  lt _ _ := decide_eq_true_iff

theorem fieldReading_rat : FieldReading (id : ℚ → ℚ) where
  toRingReading := ringReading_rat
  toOrderReading := orderReading_rat
  div _ _ := rfl
  eq _ _ := decide_eq_true_iff
  half := by decide +kernel

end Scalar

end TaylorOde
