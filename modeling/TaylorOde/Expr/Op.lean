import TaylorOde.Error
import TaylorOde.Scalar
/-!
# Operators

The twenty operators of expressions, their names, how many arguments each takes, and their
numerical meaning over any `Scalar`. `kepE e M` is the eccentric anomaly: the root `E` of
Kepler's equation `E - e sin E = M`, defined for eccentricities `0 ≤ e < 1`.
-/

namespace TaylorOde

/-- The operators, in their fixed order. -/
inductive Op where
  | sum | mul | div | neg | square | sqrt | exp | log | pow
  | sin | cos | tan | asin | acos | atan | atan2 | sinh | cosh | tanh | kepE
  deriving Repr, BEq, DecidableEq, Inhabited

/-- How many arguments an operator takes. -/
inductive Arity where
  | fixed (n : Nat)
  /-- any positive number -/
  | variadic
  deriving Repr, BEq

namespace Op

/-- All operators in their fixed order. -/
def all : List Op :=
  [.sum, .mul, .div, .neg, .square, .sqrt, .exp, .log, .pow, .sin, .cos, .tan, .asin,
   .acos, .atan, .atan2, .sinh, .cosh, .tanh, .kepE]

/-- The position of the operator in the fixed order. -/
def index : Op → Nat
  | .sum => 0 | .mul => 1 | .div => 2 | .neg => 3 | .square => 4 | .sqrt => 5
  | .exp => 6 | .log => 7 | .pow => 8 | .sin => 9 | .cos => 10 | .tan => 11
  | .asin => 12 | .acos => 13 | .atan => 14 | .atan2 => 15 | .sinh => 16
  | .cosh => 17 | .tanh => 18 | .kepE => 19

/-- The operator's name. -/
def name : Op → String
  | .sum => "sum" | .mul => "mul" | .div => "div" | .neg => "neg" | .square => "square"
  | .sqrt => "sqrt" | .exp => "exp" | .log => "log" | .pow => "pow" | .sin => "sin"
  | .cos => "cos" | .tan => "tan" | .asin => "asin" | .acos => "acos" | .atan => "atan"
  | .atan2 => "atan2" | .sinh => "sinh" | .cosh => "cosh" | .tanh => "tanh"
  | .kepE => "kepE"

/-- The operator of a name. -/
def ofName? (s : String) : Option Op := all.find? (·.name == s)

/-- The operator at a position of the fixed order. -/
def ofIndex? (i : Nat) : Option Op := all[i]?

/-- How many arguments the operator takes. -/
def arity : Op → Arity
  | .sum => .variadic
  | .mul | .div | .pow | .atan2 | .kepE => .fixed 2
  | _ => .fixed 1

/-- Whether `n` arguments suit the operator. -/
def accepts (op : Op) (n : Nat) : Bool :=
  match op.arity with
  | .fixed k => k == n
  | .variadic => n > 0

/-- Fails unless `n` arguments suit the operator. -/
def checkArity (op : Op) (n : Nat) : Outcome Unit :=
  if op.accepts n then .ok ()
  else .error (.invalid s!"operator '{op.name}' cannot be applied to {n} argument(s)")

end Op

namespace Scalar

variable {α : Type} [Scalar α]

/-- One safeguarded Newton step loop for Kepler's equation inside the bracket `[lo, hi]`. -/
def keplerLoop (ecc m tol : α) : Nat → α → α → α → α
  | 0, _, _, x => x
  | fuel + 1, lo, hi, x =>
    let f := x - ecc * sin x - m
    if eq f zero then x
    else
      let (lo, hi) := if lt zero f then (lo, x) else (x, hi)
      let fp := one - ecc * cos x
      let next := x - f / fp
      let next := if lt lo next && lt next hi then next else (lo + hi) / (one + one)
      if le (abs (next - x)) tol then next
      else keplerLoop ecc m tol fuel lo hi next

/-- The eccentric anomaly `E` with `E - e sin E = M`, by at most 100 Newton steps kept
inside the bracket `[M - e, M + e]`; NaN unless `0 ≤ e < 1` and `M` is finite. -/
def solveKepler (ecc m : α) : α :=
  if !(le zero ecc && lt ecc one) || !isFinite m then nan
  else if eq ecc zero then m
  else
    let lo := m - ecc
    let hi := m + ecc
    let tol := epsilon * ofFloat 4.0 * max (abs m) one
    let x := min (max (m + ecc * sin m) lo) hi
    keplerLoop ecc m tol 100 lo hi x

end Scalar

namespace Op

variable {α : Type} [Scalar α]

/-- The operator's value at numerical arguments; a sum adds from zero, left to right, and
missing arguments read as zero. -/
def eval (op : Op) (args : List α) : α :=
  let a := args.getD 0 Scalar.zero
  let b := args.getD 1 Scalar.zero
  match op with
  | .sum => args.foldl (· + ·) Scalar.zero
  | .mul => a * b
  | .div => a / b
  | .neg => -a
  | .square => a * a
  | .sqrt => Scalar.sqrt a
  | .exp => Scalar.exp a
  | .log => Scalar.log a
  | .pow => Scalar.pow a b
  | .sin => Scalar.sin a
  | .cos => Scalar.cos a
  | .tan => Scalar.tan a
  | .asin => Scalar.asin a
  | .acos => Scalar.acos a
  | .atan => Scalar.atan a
  | .atan2 => Scalar.atan2 a b
  | .sinh => Scalar.sinh a
  | .cosh => Scalar.cosh a
  | .tanh => Scalar.tanh a
  | .kepE => Scalar.solveKepler a b

/-- Whether a scalar format has an evaluator and a Taylor recurrence for the operator:
binary32 lacks `kepE`, and arbitrary precision lacks `kepE` and `atan2`. -/
def supportedBy (kind : FloatKind) (op : Op) : Bool :=
  match kind with
  | .binary32 => op != .kepE
  | .arbitrary => op != .kepE && op != .atan2
  | _ => true

end Op

end TaylorOde
