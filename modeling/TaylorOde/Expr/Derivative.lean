import TaylorOde.Expr.Canonical
import TaylorOde.Expr.Identity
import TaylorOde.Expr.Display
/-!
# Derivatives

`Expr.partials` gives the partial derivatives of an operator at its arguments, expressed
through the canonical constructors and, where shorter, through the node itself (`this`):
`exp' = exp`, `sqrt' = 1/(2 sqrt)`, `tan' = 1 + tan²`, `tanh' = 1 - tanh²`, and for
Kepler's `E(e, M)`: `∂E/∂e = sin E / (1 - e cos E)`, `∂E/∂M = 1 / (1 - e cos E)`.

`diff` is forward differentiation by the chain rule: a node whose arguments all have
derivative zero has derivative zero, and otherwise the derivative is the canonical sum of
`partial · derivative` over the arguments whose derivative is not zero.

`gradient` is reverse accumulation over the distinct nodes of an expression: every node
receives the adjoint contributions of its consumers, in the order the nodes are met from
the root, and passes its summed adjoint on to its arguments.
-/

namespace TaylorOde

namespace Expr

/-- The partial derivatives of an operator at its arguments; `this` is the node itself. Every
node built here gets its own tag derived from `t`. -/
def partials (op : Op) (args : List Expr) (this : Expr) (t : NodeTag) : List Expr :=
  let c := t.child
  let a := args.getD 0 zero
  let b := args.getD 1 zero
  match op with
  | .sum => args.map fun _ => one
  | .mul => [b, a]
  | .div => [div (c 0) one b, neg (c 1) (div (c 2) a (square (c 3) b))]
  | .neg => [Expr.lit (-1.0)]
  | .square => [mul (c 0) (Expr.lit 2.0) a]
  | .sqrt => [div (c 0) (Expr.lit 0.5) this]
  | .exp => [this]
  | .log => [div (c 0) one a]
  | .pow => [mul (c 0) b (pow (c 1) a (sub (c 2) b one)), mul (c 3) this (log (c 4) a)]
  | .sin => [cos (c 0) a]
  | .cos => [neg (c 0) (sin (c 1) a)]
  | .tan => [add (c 0) one (square (c 1) this)]
  | .asin => [div (c 0) one (Expr.node (c 1) .sqrt [sub (c 2) one (square (c 3) a)])]
  | .acos => [neg (c 0) (div (c 1) one (Expr.node (c 2) .sqrt [sub (c 3) one (square (c 4) a)]))]
  | .atan => [div (c 0) one (add (c 1) one (square (c 2) a))]
  | .atan2 =>
    let den := add (c 0) (square (c 1) a) (square (c 2) b)
    [div (c 3) b den, neg (c 4) (div (c 5) a den)]
  | .sinh => [Expr.node (c 0) .cosh [a]]
  | .cosh => [Expr.node (c 0) .sinh [a]]
  | .tanh => [sub (c 0) one (square (c 1) this)]
  | .kepE =>
    let den := sub (c 0) one (mul (c 1) a (cos (c 2) this))
    [div (c 3) (sin (c 4) this) den, div (c 5) one den]

/-- Fails unless the expression is a variable, a parameter or the time. -/
def checkDiffArg (a : Expr) : Outcome Unit :=
  match a with
  | .var _ | .param _ | .time => .ok ()
  | other => .error (.invalid
      s!"cannot differentiate with respect to '{other.display}': expected a variable, a parameter or time")

/-- The derivative with respect to an atom. -/
def diffBy (x : Expr) (e : Expr) : Expr :=
  match e with
  | .func _ op args _ =>
    let ds := args.map (diffBy x)
    if ds.all isZero then zero
    else
      let terms := ((partials op args e .anon).zip ds).filterMap fun (g, d) =>
        if d.isZero then none else some (mul .anon g d)
      sum .anon terms
  | _ => if e == x then one else zero

/-- The derivative with respect to a variable, a parameter or the time. -/
def diff (e x : Expr) : Outcome Expr := do
  checkDiffArg x
  return diffBy x e

/-- The post-order walk: visits a function node not seen yet, then its arguments from the
left, then records it. -/
def postOrderFrom (acc : Std.HashSet NodeKey × Array Expr) (e : Expr) :
    Std.HashSet NodeKey × Array Expr :=
  match e with
  | .func _ _ args _ =>
    if acc.1.contains e.key then acc
    else
      let acc := postOrderArgs (acc.1.insert e.key, acc.2) args
      (acc.1, acc.2.push e)
  | _ => acc
where
  /-- Walks the arguments from the left. -/
  postOrderArgs (acc : Std.HashSet NodeKey × Array Expr) : List Expr →
      Std.HashSet NodeKey × Array Expr
    | [] => acc
    | a :: rest => postOrderArgs (postOrderFrom acc a) rest

/-- The post-order walk as a loop over a work stack, top first. An entry that is not a function
node is dropped. An expanded entry is recorded. Any other is dropped if it was seen; if not, it
is marked seen and replaced by its arguments that are function nodes not seen yet, the first on
top, above the node itself, expanded. `fuel` bounds the passes; `postOrder` gives enough. -/
def postOrderLoop : Nat → List (Expr × Bool) → Std.HashSet NodeKey × Array Expr →
    Std.HashSet NodeKey × Array Expr
  | 0, _, acc => acc
  | _ + 1, [], acc => acc
  | fuel + 1, (node, expanded) :: stack, acc =>
    match node with
    | .func _ _ args _ =>
      if expanded then postOrderLoop fuel stack (acc.1, acc.2.push node)
      else if acc.1.contains node.key then postOrderLoop fuel stack acc
      else
        let seen := acc.1.insert node.key
        let unseen := args.filter fun a => a.isFunc && !seen.contains a.key
        postOrderLoop fuel (unseen.map (·, false) ++ (node, true) :: stack) (seen, acc.2)
    | _ => postOrderLoop fuel stack acc

/-- The distinct function nodes of an expression, each after all function nodes among its
arguments, the root last. Every node of the tree is pushed at most once unexpanded and once
expanded, so twice the size of the tree is fuel enough. -/
def postOrder (e : Expr) : Array Expr := (postOrderLoop (2 * e.treeSize) [(e, false)] ({}, #[])).2

/-- Adjoint contributions collected so far: per function node, and per differentiation
argument. -/
structure Adjoints where
  nodes : NodeMap (Array Expr) := {}
  atoms : Array (Array Expr)

/-- Passes the contribution of one argument of a node. -/
def Adjoints.push (wrt : List Expr) (s : Adjoints) (a contrib : Expr) : Adjoints :=
  match a with
  | .func .. => { s with nodes := s.nodes.alter a.key fun l => some ((l.getD #[]).push contrib) }
  | _ =>
    { s with atoms := (wrt.zipIdx.foldl (fun acc (target, i) =>
        if target == a then acc.modify i (·.push contrib) else acc) s.atoms) }

/-- Passes the summed adjoint of a node on to its arguments; the nodes built for it get tags
derived from `t`. -/
def Adjoints.visit (wrt : List Expr) (t : NodeTag) (s : Adjoints) (n : Expr) : Adjoints :=
  match n with
  | .func _ op args _ =>
    let adj := sum (t.child 0) (s.nodes.getD n.key #[]).toList
    let s := { s with nodes := s.nodes.erase n.key }
    if adj.isZero then s
    else
      (args.zip (partials op args n (t.child 1))).zipIdx.foldl (fun s ((a, g), j) =>
        match a with
        | .num _ => s
        | _ =>
          let contrib := mul ((t.child 2).child j) adj g
          if contrib.isZero then s else s.push wrt a contrib) s
  | _ => s

/-- The derivatives of an expression with respect to each of `wrt` (variables, parameters or
the time), by reverse accumulation over its distinct nodes. The nodes built for the `i`-th
node of the walk get tags derived from `(t.child 0).child i`, the final sums from
`t.child 1`. -/
def gradientTagged (t : NodeTag) (e : Expr) (wrt : List Expr) : Outcome (List Expr) := do
  for a in wrt do checkDiffArg a
  let start : Adjoints := { atoms := Array.replicate wrt.length #[] }
  let start := match e with
    | .func .. => { start with nodes := start.nodes.insert e.key #[one] }
    | _ => start.push wrt e one
  let walk := (postOrder e).zipIdx
  let done := walk.foldr (fun (n, i) s => s.visit wrt ((t.child 0).child i) n) start
  return done.atoms.toList.zipIdx.map fun (l, k) => sum ((t.child 1).child k) l.toList

/-- The derivatives of an expression with respect to each of `wrt`, the nodes built for them
identified by structure. -/
def gradient (e : Expr) (wrt : List Expr) : Outcome (List Expr) :=
  gradientTagged .anon e wrt

end Expr

end TaylorOde
