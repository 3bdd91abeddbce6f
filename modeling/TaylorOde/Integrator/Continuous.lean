import TaylorOde.Polynomial.Basic
import TaylorOde.Error
/-!
# Continuous output

The Taylor polynomials of every step of a propagation, kept so that the solution can be
evaluated at any time the propagation covered. Step `i` spans `times[i]` to `times[i + 1]`;
its polynomials, one per state component, are expanded around `times[i]`.

`eval t` picks the first step whose end lies past `t` in the direction of integration (the
last step for the final time) and evaluates its polynomials at `t - times[i]` by Horner's
rule. A time outside the covered range fails.
-/

namespace TaylorOde

/-- The Taylor polynomials of every step of a propagation. -/
structure ContinuousOutput (α : Type) where
  /-- the start of the first step, then the end of every step -/
  times : Array α
  /-- per step, the polynomial of every state component -/
  coeffs : Array (Array (Poly α))

namespace ContinuousOutput

variable {α : Type} [Scalar α]

open Scalar

/-- The output of a propagation starting at `t0`, with no step yet. -/
def start (t0 : α) : ContinuousOutput α := ⟨#[t0], #[]⟩

/-- Records a step ending at `tEnd`. -/
def push (c : ContinuousOutput α) (tEnd : α) (polys : Array (Poly α)) : ContinuousOutput α :=
  ⟨c.times.push tEnd, c.coeffs.push polys⟩

/-- The number of steps. -/
def nSteps (c : ContinuousOutput α) : Nat := c.coeffs.size

/-- The covered time range, the lower bound first. -/
def bounds (c : ContinuousOutput α) : α × α :=
  let first := c.times.getD 0 zero
  let last := c.times.back?.getD zero
  (Scalar.min first last, Scalar.max first last)

/-- The number of leading elements satisfying a test. -/
def countWhile (p : α → Bool) (xs : List α) : Nat := (xs.takeWhile p).length

/-- The state at time `t`. -/
def eval (c : ContinuousOutput α) (t : α) : Outcome (List α) :=
  let (lo, hi) := c.bounds
  if c.coeffs.isEmpty || !(Scalar.le lo t && Scalar.le t hi) then
    .error (.invalid s!"time {generalText t} is outside the continuous output range [{generalText lo}, {generalText hi}]")
  else
    let first := c.times.getD 0 zero
    let last := c.times.back?.getD zero
    let forward := Scalar.le first last
    let upper := countWhile (fun b => if forward then Scalar.lt b t else Scalar.lt t b)
      (c.times.toList.drop 1)
    let step := Nat.min upper (c.coeffs.size - 1)
    let dt := t - c.times.getD step zero
    .ok ((c.coeffs.getD step #[]).toList.map fun p => Poly.horner p dt)

end ContinuousOutput

end TaylorOde
