import TaylorOde.Expr.Canonical
import TaylorOde.Binary.Exact
import TaylorOde.Error
/-!
# Poisson series

A Poisson series in a time expression `t` over fundamental arguments `λ_j` is

  `Σ_α t^α Σ_i (S_αi sin φ_αi + C_αi cos φ_αi)`,   `φ_αi = Σ_j m_αij λ_j`,

given as a table of terms, each with a power of time, the two coefficients and one integer
multiplier per argument. This is the shape of analytical planetary theories.

The series is built with the canonical constructors: the phase leaves out the arguments with
multiplier zero, a term leaves out a part whose coefficient is zero (of either sign), and the
terms of one power of time are summed and multiplied by `t`, or by `t ^ α` for a power above
one, the powers in increasing order. Every term must have one multiplier per argument and
finite coefficients.

`truncateTerms` keeps the terms whose amplitude `√(S² + C²)`, weighted by `|t_scale| ^ α`,
reaches a threshold. The weight is the integer power by repeated squaring, with the power of
time read as a 32-bit signed integer.
-/

namespace TaylorOde

/-- One row of a Poisson series table. -/
structure PoissonTerm where
  /-- the power of time multiplying the term -/
  tPower : Nat
  sinCoeff : Float
  cosCoeff : Float
  /-- the integer multipliers of the fundamental arguments -/
  multipliers : List Int

/-- `a ^ n` by repeated squaring: the squares of `a` for the one bits of `|n|` are multiplied
in from the lowest bit, and a negative `n` takes the reciprocal of the result. -/
def Float.powInt (a : Float) (n : Int) : Float :=
  let r := go a n.natAbs 1.0 (n.natAbs.log2 + 1)
  if n < 0 then 1.0 / r else r
where
  /-- Multiplies the squares of `a` for the bits of `k` into `acc`. -/
  go (a : Float) (k : Nat) (acc : Float) : Nat → Float
    | 0 => acc
    | fuel + 1 =>
      let acc := if k % 2 == 1 then acc * a else acc
      if k / 2 == 0 then acc else go (a * a) (k / 2) acc fuel

/-- A 32-bit word read as a signed integer. -/
def signedWord (n : Nat) : Int := if n % Nat.pow 2 32 < Nat.pow 2 31 then n % Nat.pow 2 32 else (n % Nat.pow 2 32 : Int) - Nat.pow 2 32

namespace PoissonTerm

/-- The amplitude of the term, `√(S² + C²)` rounded once. -/
def amplitude (term : PoissonTerm) : Float := Float.hypot term.sinCoeff term.cosCoeff

end PoissonTerm

/-- The terms whose amplitude, weighted by `|tScale| ^ tPower`, reaches `threshold`. -/
def truncateTerms (terms : List PoissonTerm) (threshold tScale : Float) : List PoissonTerm :=
  terms.filter fun term =>
    term.amplitude * Float.powInt (Float.abs tScale) (signedWord term.tPower) ≥ threshold

namespace Expr

/-- The literal of a binary64 value. -/
def literal (x : Float) : Expr := .num (Literal.ofFloat x)

/-- The argument `c0 + c1 · t`. -/
def linearArgument (tag : NodeTag) (c0 c1 : Float) (t : Expr) : Expr :=
  sum tag [literal c0, mul (tag.child 0) (literal c1) t]

/-- The phase `Σ_j m_j λ_j` over the nonzero multipliers. -/
def phase (tag : NodeTag) (multipliers : List Int) (args : List Expr) : Expr :=
  sum tag ((multipliers.zip args).zipIdx.filterMap fun ((m, a), j) =>
    if m == 0 then none else some (mul (tag.child j) (literal (Float.ofInt m)) a))

/-- The expression of one term, `S sin φ + C cos φ`, leaving out zero coefficients. -/
def poissonTerm (tag : NodeTag) (term : PoissonTerm) (args : List Expr) : Expr :=
  let phi := phase (tag.child 0) term.multipliers args
  let sinPart := if term.sinCoeff != 0.0 then
      [mul (tag.child 1) (literal term.sinCoeff) (sin (tag.child 2) phi)] else []
  let cosPart := if term.cosCoeff != 0.0 then
      [mul (tag.child 3) (literal term.cosCoeff) (cos (tag.child 4) phi)] else []
  sum tag (sinPart ++ cosPart)

/-- The terms of one power of time, multiplied by that power. -/
def poissonGroup (tag : NodeTag) (t : Expr) (power : Nat) (group : List PoissonTerm)
    (args : List Expr) : Expr :=
  let inner := sum (tag.child 0)
    (group.zipIdx.map fun (term, i) => poissonTerm ((tag.child 1).child i) term args)
  match power with
  | 0 => inner
  | 1 => mul tag t inner
  | p => mul tag (pow (tag.child 2) t (literal (Float.ofNat p))) inner

/-- The Poisson series of a table over the fundamental arguments `args` in the time
expression `t`. -/
def poissonSeries (tag : NodeTag) (terms : List PoissonTerm) (args : List Expr) (t : Expr) :
    Outcome Expr := do
  for (term, i) in terms.zipIdx do
    if term.multipliers.length != args.length then
      throw (.invalid
        s!"term {i} has {term.multipliers.length} multipliers for {args.length} fundamental arguments")
    if !(term.sinCoeff.isFinite && term.cosCoeff.isFinite) then
      throw (.invalid s!"term {i} has non-finite coefficients")
  let powers := ((terms.map (·.tPower)).mergeSort (· ≤ ·)).eraseDups
  return sum tag (powers.zipIdx.map fun (p, g) =>
    poissonGroup (tag.child g) t p (terms.filter (·.tPower == p)) args)

end Expr

end TaylorOde
