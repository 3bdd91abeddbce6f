import TaylorOde.Decomposition.Passes
import TaylorOde.Expr.Canonical
import TaylorOde.Expr.Rewrite
import TaylorOde.Ode.System
/-!
# Building decompositions

Each expression is first prepared: its long sums are split, and every power with a
non-literal exponent `b ^ e` becomes `exp (e * log b)`. The entry table then gets one entry
per distinct node of the prepared expressions, arguments first, with the entries its
recurrence needs beside it:

* `sin`, `cos`, `sinh`, `cosh`: the partner function of the same argument right after it,
  each hiding the other;
* `tan`, `tanh`: the square of the entry right after it, hidden;
* `asin`, `acos`: the entries of `sqrt (-(b²) + 1)` before it, the root hidden;
* `atan`: the square of the argument before it, hidden;
* `atan2 y x`: the entries of `y² + x²` before it, the sum hidden;
* `kepE`: `sin E` and `cos E` of the entry right after it, both hidden, each hiding the other.

The time, if used, gets one entry. Afterwards the passes of `DecomposeOptions` run: common
subexpressions are merged and dead entries removed, then entries are ordered by level.
-/

namespace TaylorOde

/-- How a decomposition is built. -/
structure DecomposeOptions where
  /-- the most terms a sum entry may have; at least 2 -/
  sumSplit : Nat := 8
  /-- merge common subexpressions, then remove dead entries -/
  cse : Bool := true
  /-- order the function entries by level -/
  reorder : Bool := true

namespace Expr

/-- Rewrites every power with a non-literal exponent `b ^ e` into `exp (e * log b)`. New nodes
get tags derived from the power and the pass number. -/
def expandPow (pass : Nat) (e : Expr) : Expr :=
  match e with
  | .func t op args _ =>
    let args' := args.map (expandPow pass)
    let b := args'.getD 0 zero
    let x := args'.getD 1 zero
    if op == .pow && !x.isNumber then
      exp ((t.child 6).child pass)
        (mul ((t.child 7).child pass) x (log ((t.child 8).child pass) b))
    else if sameNodes args' args then e
    else node ((t.child 9).child pass) op args'
  | _ => e

/-- Prepares an expression for decomposition as pass number `pass`: splits its sums of more
than `split` terms, then expands its powers with non-literal exponents. Fails when
`split < 2`. -/
def prepare (pass split : Nat) (e : Expr) : Outcome Expr := do
  let s ← e.splitSumsPass pass split
  pure (expandPow pass s)

end Expr

namespace Decomposition

/-- The table under construction. -/
structure Builder where
  entries : Array Entry
  varIndex : Std.HashMap String Nat
  parIndex : Std.HashMap UInt32 Nat
  memo : NodeMap Expr := {}
  time : Option Expr := none

namespace Builder

/-- The table holding the prefix of the variables and parameters. -/
def start (names : List String) (params : List UInt32) : Builder :=
  let vs := names.zipIdx
  let ps := params.zipIdx.map fun (p, i) => (p, i + names.length)
  { entries := (names.map fun v => ({ rhs := .var v } : Entry)).toArray ++
      (params.map fun p => ({ rhs := .param p } : Entry)).toArray
    varIndex := vs.foldl (fun m (v, i) => m.insert v i) {}
    parIndex := ps.foldl (fun m (p, i) => m.insert p i) {} }

/-- Appends an entry and returns its index. -/
def push (b : Builder) (rhs : Expr) (hidden : List Nat) : Builder × Nat :=
  let i := b.entries.size
  ({ b with entries := b.entries.push { rhs := rhs, hidden := hidden } }, i)

/-- The entries laid out for `op(args)` from index `a` on: the node's own entry with the
entries its recurrence needs, and the position of the node's own entry among them. -/
def layout (a : Nat) (op : Op) (args : List Expr) : Array Entry × Nat :=
  let raw := Expr.node .anon
  let x := args.getD 0 Expr.zero
  let y := args.getD 1 Expr.zero
  match op with
  | .sin | .cos | .sinh | .cosh =>
    let partner := match op with
      | .sin => Op.cos | .cos => .sin | .sinh => .cosh | _ => .sinh
    (#[{ rhs := raw op args, hidden := [a + 1] }, { rhs := raw partner args, hidden := [a] }], 0)
  | .tan | .tanh =>
    (#[{ rhs := raw op args, hidden := [a + 1] }, { rhs := raw .square [Expr.elem a] }], 0)
  | .asin | .acos =>
    (#[{ rhs := raw .square [x] }, { rhs := raw .neg [Expr.elem a] },
       { rhs := raw .sum [Expr.elem (a + 1), Expr.one] }, { rhs := raw .sqrt [Expr.elem (a + 2)] },
       { rhs := raw op args, hidden := [a + 3] }], 4)
  | .atan => (#[{ rhs := raw .square [x] }, { rhs := raw op args, hidden := [a] }], 1)
  | .atan2 =>
    (#[{ rhs := raw .square [x] }, { rhs := raw .square [y] },
       { rhs := raw .sum [Expr.elem a, Expr.elem (a + 1)] },
       { rhs := raw op args, hidden := [a + 2] }], 3)
  | .kepE =>
    (#[{ rhs := raw op args, hidden := [a + 1, a + 2] },
       { rhs := raw .sin [Expr.elem a], hidden := [a + 2] },
       { rhs := raw .cos [Expr.elem a], hidden := [a + 1] }], 0)
  | _ => (#[{ rhs := raw op args }], 0)

/-- Appends the entries of `op(args)` with the entries its recurrence needs, returning the
index of the entry itself. -/
def append (b : Builder) (op : Op) (args : List Expr) : Builder × Nat :=
  let a := b.entries.size
  let (block, k) := layout a op args
  ({ b with entries := b.entries ++ block }, a + k)

/-- The literal or elementary variable standing for an expression, adding the entries of
its nodes not met before. -/
def lower (e : Expr) : StateT Builder (Except Error) Expr :=
  match e with
  | .num _ => pure e
  | .var v => do
    match (← get).varIndex.get? v with
    | some i => pure (Expr.elem i)
    | none => throw (.invalid s!"unknown variable '{v}'")
  | .param p => do
    match (← get).parIndex.get? p with
    | some i => pure (Expr.elem i)
    | none => throw (.invalid s!"unknown parameter p[{p}]")
  | .time => do
    match (← get).time with
    | some t => pure t
    | none =>
      modifyGet fun b =>
        let (b, i) := b.push .time []
        (Expr.elem i, { b with time := some (Expr.elem i) })
  | .func _ op args _ => do
    match (← get).memo.get? e.key with
    | some done => pure done
    | none =>
      let xs ← args.mapM lower
      modifyGet fun b =>
        let (b, i) := b.append op xs
        (Expr.elem i, { b with memo := b.memo.insert e.key (Expr.elem i) })

end Builder

/-- The parameters of prepared expressions, without repeats, ascending. -/
def paramsOf (prepared : List Expr) : List UInt32 :=
  ((prepared.flatMap Expr.params).mergeSort (· ≤ ·)).eraseDups.map Nat.toUInt32

/-- The decomposition of prepared expressions over the given variables, before any pass. -/
def ofPrepared (names : List String) (prepared : List Expr) : Outcome Decomposition := do
  let params := paramsOf prepared
  let (refs, b) ← (prepared.mapM Builder.lower).run (Builder.start names params)
  return { entries := b.entries ++ (refs.map fun r => ({ rhs := r } : Entry)).toArray
           varNames := names, params := params, nOutputs := prepared.length }

/-- Builds the decomposition of expressions over the given variables: prepares each
expression, lowers them all, then runs the passes. -/
def build (names : List String) (outputs : List Expr) (opts : DecomposeOptions) :
    Outcome Decomposition := do
  let prepared ← outputs.zipIdx.mapM fun (e, i) => e.prepare i opts.sumSplit
  let d ← ofPrepared names prepared
  let d := if opts.cse then (cse d).dce else d
  let d := if opts.reorder then d.reorder else d
  return d

/-- The decomposition of one expression, its variables numbered by name. -/
def ofExpr (e : Expr) (opts : DecomposeOptions) : Outcome Decomposition := do
  let vars := e.varNames
  if let some v := vars.find? Variable.isElementary then
    throw (.invalid s!"the variable name '{v}' is reserved for internal use")
  build vars [e] opts

/-- The decomposition of the right-hand sides of a system followed by extra expressions
(event functions), its variables numbered in state order. -/
def ofSystem (sys : OdeSystem) (extra : List Expr) (opts : DecomposeOptions) :
    Outcome Decomposition := do
  for e in extra do
    if let some v := e.varNames.find? (fun v => (sys.indexOf? v).isNone) then
      throw (.invalid
        s!"the expression '{e.display}' refers to '{v}', which is not a state variable")
  build sys.state (sys.rhs ++ extra) opts

end Decomposition

end TaylorOde
