import TaylorOde.Ir.Basic
/-!
# Taylor coefficient recurrences

For an entry `a = op(b, c)` the recurrence gives its order-`n` coefficient `a^[n]` from the
coefficients of order at most `n` of its arguments and of order below `n` of itself and of
its hidden dependencies. Each formula is written once over `CoeffOps`, the operations of
whatever the coefficients are built with: plain numbers when the recurrences are evaluated
directly, or IR instructions when they are compiled.

Coefficients of literal arguments vanish above order 0, and the formulas skip those terms;
`none` stands for an exact zero. Sums are reduced pairwise, left to right.

The formulas, for `n ≥ 1`, with `x^[j]` the order-`j` coefficient:

* `mul`: `Σ_{j=0}^{n} b^[j] c^[n-j]`
* `div`: `(b^[n] - Σ_{j=1}^{n} c^[j] a^[n-j]) / c^[0]`
* `square`: `2 Σ_{j=0}^{⌊(n-1)/2⌋} b^[j] b^[n-j]`, plus `(b^[n/2])²` for even `n`
* `sqrt`: `((b^[n] - Σ_{j=1}^{n-1} a^[j] a^[n-j]) / a^[0]) / 2`
* `exp`: `(Σ_{j=1}^{n} j b^[j] a^[n-j]) / n`
* `log`: `((n b^[n] - Σ_{j=1}^{n-1} j a^[j] b^[n-j]) / b^[0]) / n`
* `pow` (literal exponent `α`): `(Σ_{j=0}^{n-1} (α (n-j) - j) b^[n-j] a^[j] / b^[0]) / n`
* `sin`, `sinh`, `cosh` (partner `h`): `(Σ_{j=1}^{n} j b^[j] h^[n-j]) / n`; `cos` negated
* `tan`, `tanh` (`h = a²`): `b^[n] ± (Σ_{j=1}^{n} j b^[j] h^[n-j]) / n`
* `asin`, `acos`, `atan` (`h = √(1-b²)` or `b²`):
  `((± n b^[n] - Σ_{j=1}^{n-1} j a^[j] h^[n-j]) / d) / n`, `d = h^[0]` or `1 + h^[0]`
* `atan2 y x` (`h = y² + x²`):
  `((Σ j y^[j] x^[n-j] - Σ j x^[j] y^[n-j] - Σ_{j=1}^{n-1} j a^[j] h^[n-j]) / h^[0]) / n`
* `kepE e M` (`h = sin E, cos E`):
  `((n M^[n] + Σ j e^[j] s^[n-j] + Σ_{j=1}^{n-1} j a^[j] (e cos E)^[n-j]) / (1 - e^[0] c^[0])) / n`
-/

namespace TaylorOde

/-- A constant the recurrences build: a count `k` (an order or a summation index), its
negation, its reciprocal, or the negated reciprocal. Each is written as the binary64 value
the formulas compute for it (`toFloat`); the fixed constants are counts (`1.0` is `nat 1`,
`2.0` is `nat 2`) and a reciprocal (`0.5` is `inv 2`). -/
inductive Const where
  | nat (k : Nat)
  | negNat (k : Nat)
  | inv (k : Nat)
  | negInv (k : Nat)

/-- The binary64 value of a constant, computed as the formulas compute it. -/
def Const.toFloat : Const → Float
  | .nat k => k.toFloat
  | .negNat k => -k.toFloat
  | .inv k => 1.0 / k.toFloat
  | .negInv k => -1.0 / k.toFloat

/-- The operations the recurrences build with: loading a coefficient of a reference, telling
literal references apart, making constants, and applying operations. -/
structure CoeffOps (m : Type → Type) (V R : Type) where
  load : R → Nat → m V
  isConstant : R → Bool
  constant : Const → m V
  unary : UnaryFn → V → m V
  binary : BinaryFn → V → V → m V

namespace Op

/-- How many hidden dependencies the recurrence of an operator reads. -/
def hiddenCount : Op → Nat
  | .sin | .cos | .sinh | .cosh | .tan | .tanh => 1
  | .asin | .acos | .atan | .atan2 => 1
  | .kepE => 2
  | _ => 0

end Op

namespace CoeffOps

variable {m : Type → Type} [Monad m] {V R : Type} [Inhabited V] (b : CoeffOps m V R)

/-- One round of pairwise reduction: adjacent pairs are added, an odd last term is kept. -/
def pairRound : List V → m (List V)
  | x :: y :: rest => do
    let s ← b.binary .add x y
    let r ← pairRound rest
    pure (s :: r)
  | rest => pure rest

/-- Pairwise reduction of terms; none for no terms. -/
def pairwiseSumAux : Nat → List V → m (Option V)
  | _, [] => pure none
  | _, [x] => pure (some x)
  | 0, x :: _ => pure (some x)
  | fuel + 1, terms => do pairwiseSumAux fuel (← b.pairRound terms)

/-- Pairwise reduction of terms; none for no terms. -/
def pairwiseSum (terms : List V) : m (Option V) := b.pairwiseSumAux terms.length terms

/-- The order-`k` coefficient of a reference; none when it is a literal and `k > 0`. -/
def coeff (r : R) (k : Nat) : m (Option V) :=
  if k > 0 && b.isConstant r then pure none else some <$> b.load r k

/-- `c · x`, with `c = 1` and `c = -1` written as `x` and `-x`; the test is on the binary64
value of `c`. -/
def scale (c : Const) : Option V → m (Option V)
  | none => pure none
  | some x =>
    if c.toFloat == 1.0 then pure (some x)
    else if c.toFloat == -1.0 then some <$> b.unary .neg x
    else do
      let k ← b.constant c
      some <$> b.binary .mul k x

/-- `Σ_{j ∈ js} w(j) x^[j] y^[n-j]`, skipping vanishing terms. Both coefficients of a
term are requested before either is tested. -/
def conv (x y : R) (n : Nat) (js : List Nat) (w : Nat → Const) : m (Option V) := do
  let mut terms := #[]
  for j in js do
    let xj ← b.coeff x j
    let yk ← b.coeff y (n - j)
    match xj, yk with
    | some xj, some yk =>
      let prod ← b.binary .mul xj yk
      if let some t ← b.scale (w j) (some prod) then terms := terms.push t
    | _, _ => pure ()
  b.pairwiseSum terms.toList

/-- The product of two optional values. -/
def mulOpt : Option V → Option V → m (Option V)
  | some x, some y => some <$> b.binary .mul x y
  | _, _ => pure none

/-- The sum of two optional values. -/
def addOpt : Option V → Option V → m (Option V)
  | some x, some y => some <$> b.binary .add x y
  | x, none => pure x
  | none, y => pure y

/-- The negation of an optional value. -/
def negOpt : Option V → m (Option V)
  | some x => some <$> b.unary .neg x
  | none => pure none

/-- The difference of two optional values. -/
def subOpt : Option V → Option V → m (Option V)
  | some x, some y => some <$> b.binary .sub x y
  | x, none => pure x
  | none, y => b.negOpt y

/-- An optional value divided by `d`. -/
def divBy : Option V → V → m (Option V)
  | some x, d => some <$> b.binary .div x d
  | none, _ => pure none

/-- The value, or the constant zero. -/
def orZero : Option V → m V
  | some x => pure x
  | none => b.constant (.nat 0)

/-- `lo, lo + 1, …, hi` (empty when `hi < lo`). -/
def span (lo hi : Nat) : List Nat := List.range' lo (hi + 1 - lo)

/-- The order-0 coefficient: the operator applied to the order-0 coefficients. -/
def direct (op : Op) (args : List R) : m V := do
  let vals ← args.mapM fun a => b.load a 0
  let x := vals.getD 0 default
  match UnaryFn.ofOp? op with
  | some f => b.unary f x
  | none =>
    match op with
    | .sum => do
      match ← b.pairwiseSum vals with
      | some s => pure s
      | none => b.constant (.nat 0)
    | .square => b.binary .mul x x
    | _ =>
      let f : BinaryFn := match op with
        | .mul => .mul | .div => .div | .pow => .pow | .atan2 => .atan2 | _ => .kepler
      b.binary f x (vals.getD 1 default)

/-- The order-`n` coefficient for `n ≥ 1`; none for an exact zero. -/
def higher (op : Op) (this : R) (args hidden : List R) (n : Nat) : m (Option V) := do
  let one : Nat → Const := fun _ => .nat 1
  let arg (i : Nat) : R := args.getD i this
  let hid (i : Nat) : R := hidden.getD i this
  match op with
  | .sum => do
    let mut terms := #[]
    for a in args do
      if let some c ← b.coeff a n then terms := terms.push c
    b.pairwiseSum terms.toList
  | .neg => do b.negOpt (← b.coeff (arg 0) n)
  | .mul => b.conv (arg 0) (arg 1) n (span 0 n) one
  | .div => do
    let bn ← b.coeff (arg 0) n
    let s ← b.conv (arg 1) this n (span 1 n) one
    let num ← b.subOpt bn s
    let c0 ← b.load (arg 1) 0
    b.divBy num c0
  | .square => do
    let half ← b.conv (arg 0) (arg 0) n (span 0 ((n - 1) / 2)) one
    let twice ← b.scale (.nat 2) half
    if n % 2 == 0 then
      let mid ← b.coeff (arg 0) (n / 2)
      let sq ← b.mulOpt mid mid
      b.addOpt twice sq
    else pure twice
  | .sqrt => do
    let bn ← b.coeff (arg 0) n
    let s ← b.conv this this n (span 1 (n - 1)) one
    let num ← b.subOpt bn s
    let a0 ← b.load this 0
    let q ← b.divBy num a0
    b.scale (.inv 2) q
  | .exp => do
    let s ← b.conv (arg 0) this n (span 1 n) .nat
    b.scale (.inv n) s
  | .log => do
    let bn ← b.coeff (arg 0) n
    let nb ← b.scale (.nat n) bn
    let s ← b.conv this (arg 0) n (span 1 (n - 1)) .nat
    let num ← b.subOpt nb s
    let b0 ← b.load (arg 0) 0
    let q ← b.divBy num b0
    b.scale (.inv n) q
  | .pow => do
    let alpha ← b.load (arg 1) 0
    let mut terms := #[]
    for j in List.range n do
      let bk ← b.coeff (arg 0) (n - j)
      let aj ← b.coeff this j
      match bk, aj with
      | some bk, some aj =>
        let k ← b.constant (.nat (n - j))
        let mut w ← b.binary .mul alpha k
        if j > 0 then
          let jj ← b.constant (.nat j)
          w ← b.binary .sub w jj
        let prod ← b.binary .mul bk aj
        terms := terms.push (← b.binary .mul w prod)
      | _, _ => pure ()
    let s ← b.pairwiseSum terms.toList
    let b0 ← b.load (arg 0) 0
    let q ← b.divBy s b0
    b.scale (.inv n) q
  | .sin | .sinh | .cosh => do
    let s ← b.conv (arg 0) (hid 0) n (span 1 n) .nat
    b.scale (.inv n) s
  | .cos => do
    let s ← b.conv (arg 0) (hid 0) n (span 1 n) .nat
    b.scale (.negInv n) s
  | .tan | .tanh => do
    let bn ← b.coeff (arg 0) n
    let s ← b.conv (arg 0) (hid 0) n (span 1 n) .nat
    let s ← b.scale (.inv n) s
    if op == .tan then b.addOpt bn s else b.subOpt bn s
  | .asin | .acos | .atan => do
    let bn ← b.coeff (arg 0) n
    let nb ← b.scale (if op == .acos then .negNat n else .nat n) bn
    let s ← b.conv this (hid 0) n (span 1 (n - 1)) .nat
    let num ← b.subOpt nb s
    let h0 ← b.load (hid 0) 0
    let den ← if op == .atan then do
        let one ← b.constant (.nat 1)
        b.binary .add one h0
      else pure h0
    let q ← b.divBy num den
    b.scale (.inv n) q
  | .atan2 => do
    let yx ← b.conv (arg 0) (arg 1) n (span 1 n) .nat
    let xy ← b.conv (arg 1) (arg 0) n (span 1 n) .nat
    let cross ← b.subOpt yx xy
    let s ← b.conv this (hid 0) n (span 1 (n - 1)) .nat
    let num ← b.subOpt cross s
    let d0 ← b.load (hid 0) 0
    let q ← b.divBy num d0
    b.scale (.inv n) q
  | .kepE => do
    let e := arg 0
    let mn ← b.coeff (arg 1) n
    let t1 ← b.scale (.nat n) mn
    let t2 ← b.conv e (hid 0) n (span 1 n) .nat
    let mut t3 := #[]
    for j in span 1 (n - 1) do
      let w ← b.conv e (hid 1) (n - j) (span 0 (n - j)) one
      let aj ← b.coeff this j
      let aj ← b.scale (.nat j) aj
      if let some t ← b.mulOpt aj w then t3 := t3.push t
    let t3sum ← b.pairwiseSum t3.toList
    let num ← b.pairwiseSum (t1.toList ++ t2.toList ++ t3sum.toList)
    let e0 ← b.load e 0
    let co0 ← b.load (hid 1) 0
    let one ← b.constant (.nat 1)
    let ec ← b.binary .mul e0 co0
    let den ← b.binary .sub one ec
    let q ← b.divBy num den
    b.scale (.inv n) q

end CoeffOps

/-- The order-`n` coefficient of `this = op(args)` with hidden dependencies `hidden`, built
with `b`. Fails, before building anything, on a wrong number of arguments or hidden
dependencies, and for a power whose exponent is not a literal. -/
def coefficient {m : Type → Type} [Monad m] {V R : Type} [Inhabited V] (b : CoeffOps m V R)
    (op : Op) (this : R) (args hidden : List R) (n : Nat) : Outcome (m V) := do
  op.checkArity args.length
  if hidden.length != op.hiddenCount then
    throw (.invalid
      s!"operator '{op.name}' expects {op.hiddenCount} hidden dependencies, got {hidden.length}")
  if op == .pow && !b.isConstant (args.getD 1 this) then
    throw (.unsupported "the Taylor recurrence of pow requires a numeric exponent")
  if n == 0 then return b.direct op args
  return do b.orZero (← b.higher op this args hidden n)

namespace Recurrence

/-- An input column of a coefficient table: a truncated series, or a constant (coefficient
`c` at order 0 and exact zeros above). -/
inductive Input where
  | series (coeffs : List Float)
  | const (value : Float)

/-- An entry of a coefficient table: an operator over column indices, with hidden
dependencies. -/
structure TableEntry where
  op : Op
  args : List Nat
  hidden : List Nat

/-- The recurrence operations over a table of coefficient columns: loads read the table,
constants are numbers, operations are evaluated. -/
def numeric (cols : Array (Array Float)) (constant : Array Bool) : CoeffOps Id Float Nat where
  load r k := pure ((cols[r]?.bind (·[k]?)).getD (0.0 / 0.0))
  isConstant r := constant[r]?.getD false
  constant c := pure c.toFloat
  unary f a := let r : Float := f.eval a; pure r
  binary f a b := let r : Float := f.eval a b; pure r

/-- Fills the columns of the entries order by order, each entry from the columns before and
after it as its recurrence reads them. Input columns come first, then one column per entry,
starting as NaN. Returns the entry columns, or the first error. -/
def evaluate (inputs : List Input) (entries : List TableEntry) (n : Nat) :
    Outcome (List (List Float)) := do
  let pad (cs : List Float) : Array Float :=
    ((cs.take (n + 1)) ++ List.replicate (n + 1 - cs.length) 0.0).toArray
  let inCols := inputs.map fun i => match i with
    | .series cs => pad cs
    | .const c => pad [c]
  let constant := (inputs.map fun i => match i with | .const _ => true | _ => false) ++
    entries.map fun _ => false
  let nIn := inputs.length
  let mut cols : Array (Array Float) :=
    inCols.toArray ++ (entries.map fun _ => Array.replicate (n + 1) (0.0 / 0.0)).toArray
  for k in List.range (n + 1) do
    for (e, idx) in entries.zipIdx do
      let c ← coefficient (numeric cols constant.toArray) e.op (nIn + idx) e.args e.hidden k
      let v : Float := c
      cols := cols.modify (nIn + idx) (·.set! k v)
  return (cols.toList.drop nIn).map (·.toList)

end Recurrence

end TaylorOde
