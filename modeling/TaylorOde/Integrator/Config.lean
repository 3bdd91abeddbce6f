import TaylorOde.Error
import TaylorOde.Scalar
/-!
# Settings of the Taylor integrator

`TaylorConfig` holds the tolerance, the Taylor order, the code layout, the accuracy mode, the
safety factor of the step size and the sum split of the decomposition. `validate` accepts a
configuration exactly when an integrator can be built from it, and `defaultOrder` is the order
a tolerance calls for when none is given: `⌈-ln tol / 2 + 1⌉`, at least `minOrder`.
-/

namespace TaylorOde

/-- The smallest Taylor order. -/
def minOrder : Nat := 2

/-- The largest Taylor order. -/
def maxOrder : Nat := 255

/-- The largest 32-bit unsigned integer: orders are 32-bit counts. -/
def wordLimit32 : Nat := 4294967295

/-- The order for a tolerance: `⌈-ln tol / 2 + 1⌉`, at least `minOrder`, saturating at the
largest 32-bit count; a tolerance whose logarithm is not finite gives `minOrder`. -/
def defaultOrder (tol : Float) : Nat :=
  let p := (-(Float.log tol) / 2.0 + 1.0).ceil
  if p.isFinite then
    let p := if p < 2.0 then 2.0 else p
    if p ≥ 4294967296.0 then wordLimit32 else p.toUInt64.toNat
  else minOrder

/-- Settings of a Taylor integrator. -/
structure TaylorConfig where
  /-- the tolerance; the machine epsilon of the scalar type when absent -/
  tol : Option Float := none
  /-- the Taylor order; deduced from the tolerance when absent -/
  order : Option Nat := none
  /-- per-operator kernels looped over the decomposition instead of unrolled code -/
  compactMode : Bool := false
  /-- compensated state update -/
  highAccuracy : Bool := false
  /-- the factor applied to the estimated step size -/
  safetyFactor : Float := 0.9
  /-- sums with more terms are split before decomposition -/
  sumSplit : Nat := 8

namespace TaylorConfig

/-- Checks the tolerance (positive and finite), the order (from `minOrder` to `maxOrder`),
the safety factor (in `(0, 1]`) and the sum split (at least two), in that order. -/
def validate (c : TaylorConfig) : Outcome Unit := do
  c.tol.forM fun tol =>
    ensure (tol.isFinite && tol > 0.0)
      s!"the tolerance must be positive and finite, got {Float.plainText tol}"
  c.order.forM fun order =>
    ensure (minOrder ≤ order && order ≤ maxOrder)
      s!"the Taylor order must be between {minOrder} and {maxOrder}, got {order}"
  ensure (c.safetyFactor > 0.0 && c.safetyFactor ≤ 1.0)
    s!"the safety factor must lie in (0, 1], got {Float.plainText c.safetyFactor}"
  ensure (2 ≤ c.sumSplit) s!"sum_split must be at least 2, got {c.sumSplit}"

/-- The Taylor order of an integrator with tolerance `tol`: the order given, or else the order
the tolerance calls for, at most `maxOrder`. -/
def orderFor (c : TaylorConfig) (tol : Float) : Nat :=
  match c.order with
  | some o => o
  | none => Nat.min (defaultOrder tol) maxOrder

end TaylorConfig

end TaylorOde
