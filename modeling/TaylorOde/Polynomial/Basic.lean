import TaylorOde.Scalar
/-!
# Polynomials over a scalar type

A polynomial is the list of its coefficients in increasing degree. The operations are the
ones a Taylor stepper needs, each written as the exact sequence of rounded operations:

* `horner`: the value at a point, by Horner's rule from the top coefficient down;
* `twoSum`, `twoProd`: the error-free transforms `a + b = s + e` and `a · b = p + e`;
* `compensatedHorner`: Horner's rule with the rounding error of every step carried in a second
  accumulator and added back at the end;
* `derivative`, `taylorShift` (the coefficients of `p (x + a)`) and `rescale` (those of
  `p (s · x)`).
-/

namespace TaylorOde

/-- Coefficients of a polynomial in increasing degree. -/
abbrev Poly (α : Type) := List α

namespace Poly

open Scalar

variable {α : Type} [Scalar α]

/-- The value at `x` by Horner's rule: `(… (c_n · x + c_{n-1}) · x + …) + c_0`, starting from
zero above the top coefficient. -/
def horner (p : Poly α) (x : α) : α :=
  p.foldr (fun c acc => acc * x + c) zero

/-- The rounded sum and its exact rounding error: `a + b = s + e`. -/
def twoSum (a b : α) : α × α :=
  let s := a + b
  let bb := s - a
  (s, (a - (s - bb)) + (b - bb))

/-- The rounded product and its exact rounding error, by one fused multiply-add. -/
def twoProd (a b : α) : α × α :=
  let p := a * b
  (p, Scalar.fma a b (-p))

/-- One step of compensated Horner: the running value and the running error. -/
def compensatedStep (x c : α) (acc : α × α) : α × α :=
  let (s, err) := acc
  let (p, pe) := twoProd s x
  let (next, se) := twoSum p c
  (next, err * x + (pe + se))

/-- The value at `x` by Horner's rule with the rounding errors accumulated and added back. -/
def compensatedHorner (p : Poly α) (x : α) : α :=
  match p.getLast? with
  | none => zero
  | some top =>
    let (s, err) := p.dropLast.foldr (compensatedStep x) (top, zero)
    s + err

/-- The derivative: coefficient `n` times `n`, for `n ≥ 1`. -/
def derivative (p : Poly α) : Poly α :=
  (p.zipIdx.drop 1).map fun (c, n) => c * ofFloat (Float.ofNat n)

/-- One pass of synthetic division by `x - a`, from the top coefficient down: every
coefficient but the top one gains `a` times the new coefficient above it. -/
def shiftPass (a : α) : Poly α → Poly α
  | [] => []
  | c :: rest =>
    match shiftPass a rest with
    | [] => [c]
    | h :: t => (c + a * h) :: h :: t

theorem length_shiftPass (a : α) (p : Poly α) : (shiftPass a p).length = p.length := by
  induction p with
  | nil => rfl
  | cons c rest ih =>
    simp only [shiftPass]
    split <;> simp_all

/-- The coefficients of `p (x + a)`: a pass of synthetic division fixes the lowest coefficient,
and the remaining ones are shifted the same way. -/
def taylorShift (a : α) (p : Poly α) : Poly α :=
  match h : shiftPass a p with
  | [] => []
  | c :: rest =>
    have : rest.length < p.length := by
      have := length_shiftPass a p
      rw [h] at this
      simp at this
      omega
    c :: taylorShift a rest
termination_by p.length

/-- The coefficients of `p (s · x)`: coefficient `n` times `s ^ n`, the powers formed by
repeated multiplication. -/
def rescale (s : α) (p : Poly α) : Poly α :=
  go one p
where
  /-- Scales the remaining coefficients, starting with the factor `f`. -/
  go (f : α) : Poly α → Poly α
    | [] => []
    | c :: rest => c * f :: go (f * s) rest

end Poly

end TaylorOde
