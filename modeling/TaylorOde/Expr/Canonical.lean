import TaylorOde.Expr.Basic
/-!
# Canonical constructors

Each operator has a constructor that applies the canonical rules:

* `sum` flattens nested sums, sorts the other terms by `Expr.cmp` (a stable sort), adds
  the literals into one trailing literal of their widest format, drops that literal when it
  is a zero, and returns a lone term itself;
* `neg (neg x) = x`, `sin (neg x) = neg (sin x)`, `cos (neg x) = cos x`;
* literal arguments fold for `neg`, `square`, `exp` and the binary arithmetic operators
  whenever the folded value is not NaN, in the widest format of the folded literals;
* identities collapse: `1 * x`, `x / 1`, `x ^ 1`, `x ^ 0`, `1 ^ x`, `log 1`, and a zero
  factor collapses `0 * x` and `0 / x` to `0`;
* the two factors of a product are ordered by `Expr.cmp`.

Every constructor takes the tag of the node it builds; further nodes it builds get the
tag's children, so one tag fixes the identity of everything built.
-/

namespace TaylorOde

namespace Expr

/-- The literal expression of a value in a format, or nothing for NaN. -/
def fold? (value : Float) (kind : FloatKind) : Option Expr :=
  (Literal.fold? value kind).map .num

/-- Splits the arguments of a sum into its non-literal terms and its literals, reading
through nested sums, both in the order met. -/
def sumParts : List Expr → List Expr × List Literal
  | [] => ([], [])
  | e :: rest =>
    let (ts, ns) := sumParts rest
    match e with
    | .num n => (ts, n :: ns)
    | .func tag .sum inner h =>
      have : sizeOf inner < sizeOf (Expr.func tag .sum inner h) := by simp; omega
      let (ti, ni) := sumParts inner
      (ti ++ ts, ni ++ ns)
    | other => (other :: ts, ns)
termination_by l => sizeOf l

/-- The canonical sum of the arguments. -/
def sum (t : NodeTag) (args : List Expr) : Expr :=
  let (terms, numbers) := sumParts args
  let terms := terms.mergeSort (fun a b => a.cmp b != .gt)
  let terms :=
    if numbers.isEmpty then terms
    else
      let total := numbers.foldl (fun acc n => acc + n.value) 0.0
      let kind := numbers.foldl (fun k n => k.common n.kind) .binary32
      match fold? total kind with
      | some c => if c.isZero then terms else terms ++ [c]
      | none => terms ++ numbers.map .num
  match terms with
  | [] => zero
  | [x] => x
  | _ => node t .sum terms

/-- The canonical negation. -/
def neg (t : NodeTag) : Expr → Expr
  | .num n =>
    match fold? (-n.value) n.kind with
    | some c => c
    | none => node t .neg [.num n]
  | .func _ .neg [x] _ => x
  | e => node t .neg [e]

/-- The canonical sum of two terms. -/
def add (t : NodeTag) (a b : Expr) : Expr := sum t [a, b]

/-- The canonical difference: the sum of the first term and the negated second one. -/
def sub (t : NodeTag) (a b : Expr) : Expr := sum t [a, neg (t.child 0) b]

/-- The canonical product. -/
def mul (t : NodeTag) (a b : Expr) : Expr :=
  let folded := match a, b with
    | .num x, .num y => fold? (x.value * y.value) (x.kind.common y.kind)
    | _, _ => none
  match folded with
  | some c => c
  | none =>
    if a.isZero || b.isZero then zero
    else if a.isOne then b
    else if b.isOne then a
    else if a.isValue (-1.0) then neg t b
    else if b.isValue (-1.0) then neg t a
    else if b.cmp a == .lt then node t .mul [b, a]
    else node t .mul [a, b]

/-- The canonical quotient. -/
def div (t : NodeTag) (a b : Expr) : Expr :=
  let folded := match a, b with
    | .num x, .num y => fold? (x.value / y.value) (x.kind.common y.kind)
    | _, _ => none
  match folded with
  | some c => c
  | none =>
    if b.isOne then a
    else if a.isZero && !b.isZero then zero
    else node t .div [a, b]

/-- The canonical square. -/
def square (t : NodeTag) (a : Expr) : Expr :=
  match a with
  | .num x =>
    match fold? (x.value * x.value) x.kind with
    | some c => c
    | none => node t .square [a]
  | _ => node t .square [a]

/-- The canonical exponential. -/
def exp (t : NodeTag) (a : Expr) : Expr :=
  match a with
  | .num x =>
    match fold? x.value.exp x.kind with
    | some c => c
    | none => node t .exp [a]
  | _ => node t .exp [a]

/-- The canonical logarithm. -/
def log (t : NodeTag) (a : Expr) : Expr :=
  if a.isOne then zero else node t .log [a]

/-- The canonical power. -/
def pow (t : NodeTag) (base expo : Expr) : Expr :=
  if expo.isZero || base.isOne then one
  else if expo.isOne then base
  else
    let folded := match base, expo with
      | .num b, .num e => fold? (b.value.pow e.value) (b.kind.common e.kind)
      | _, _ => none
    match folded with
    | some c => c
    | none => node t .pow [base, expo]

/-- The canonical sine. -/
def sin (t : NodeTag) : Expr → Expr
  | .func _ .neg [x] _ => neg t (sin (t.child 0) x)
  | e => node t .sin [e]

/-- The canonical cosine. -/
def cos (t : NodeTag) : Expr → Expr
  | .func _ .neg [x] _ => cos t x
  | e => node t .cos [e]

/-- The canonical node of an operator that has no rules. -/
def plain (t : NodeTag) (op : Op) (args : List Expr) : Expr := node t op args

/-- The canonical form of an operator over arguments of the right number. -/
def build (t : NodeTag) (op : Op) (args : List Expr) : Expr :=
  let a := args.getD 0 zero
  let b := args.getD 1 zero
  match op with
  | .sum => sum t args
  | .mul => mul t a b
  | .div => div t a b
  | .pow => pow t a b
  | .neg => neg t a
  | .square => square t a
  | .exp => exp t a
  | .log => log t a
  | .sin => sin t a
  | .cos => cos t a
  | .atan2 | .kepE => node t op [a, b]
  | _ => node t op [a]

/-- Applies an operator through its canonical constructor, after checking the number of
arguments. -/
def apply (t : NodeTag) (op : Op) (args : List Expr) : Outcome Expr := do
  op.checkArity args.length
  return build t op args

/-- The function node of an operator over arguments, with no rule applied, after checking
the number of arguments. -/
def raw (t : NodeTag) (op : Op) (args : List Expr) : Outcome Expr := do
  op.checkArity args.length
  return node t op args

end Expr

end TaylorOde
