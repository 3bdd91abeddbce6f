import TaylorOde.Ode.System
import TaylorOde.Expr.Derivative
/-!
# Variational equations

For a system `x_k' = f_k(x, p, t)` and a list of arguments drawn from the initial state, the
parameters and the initial time, the variational system adds one state variable per partial
derivative `∂^m x_k / ∂a^m` of total order `1 … K`, named `∂[(i,e),…]x_k` after the nonzero
entries of the multi-index `m`.

Equations are built layer by layer. The right-hand side for `m` is the total derivative, with
respect to the first argument `a` with `m_a > 0`, of the right-hand side for `m - e_a`:
`D_a E = Σ_s ∂E/∂s · ∂s/∂a (+ ∂E/∂a for a parameter)`, the sum over the state variables `s` of
`E`, where `∂s/∂a` is the variable one order up in direction `a`. The initial values follow the
same recursion on the identity map `x_k(t₀) = x₀_k`; for the initial time the flow is
subtracted, since moving `t₀` moves the start of the trajectory.
-/

namespace TaylorOde

/-- An argument of the variational equations: the initial value of a state variable, a
parameter, or the initial time. -/
inductive VarArg where
  | var (name : String)
  | param (index : Nat)
  | time
  deriving BEq, Inhabited, Repr

namespace VarArg

/-- The argument as written in diagnostics. -/
def describe : VarArg → String
  | .var n => s!"Var(Variable({quotedLiteral n}))"
  | .param i => s!"Param({i})"
  | .time => "Time"

/-- Every state variable of a system, in state order. -/
def allVars (sys : OdeSystem) : List VarArg := sys.state.map .var

/-- The argument as an expression to differentiate by; none for the initial time. -/
def toExpr? : VarArg → Option Expr
  | .var n => some (.var n)
  | .param i => some (.param i.toUInt32)
  | .time => none

end VarArg

/-- The multi-indices over `n` arguments with total order `k`, in decreasing lexicographic
order. -/
def multiIndices : Nat → Nat → List (List Nat)
  | 0, _ => []
  | 1, k => [[k]]
  | n + 2, k =>
    (List.range (k + 1)).reverse.flatMap fun e => (multiIndices (n + 1) (k - e)).map (e :: ·)

/-- The name of the variable `∂^m x`: the nonzero entries of `m` as `(position,order)`. -/
def variationalName (base : String) (m : List Nat) : String :=
  let parts := m.zipIdx.filterMap fun (e, i) => if e > 0 then some s!"({i},{e})" else none
  Variable.variationalPrefix ++ "[" ++ ",".intercalate parts ++ "]" ++ base

/-- An ODE system augmented with its variational equations. -/
structure VarSystem where
  /-- the augmented system -/
  system : OdeSystem
  /-- the dimension of the original system -/
  nOrig : Nat
  args : List VarArg
  order : Nat
  /-- the component and multi-index of every state variable -/
  mindices : List (Nat × List Nat)
  /-- the initial value of every state variable from the original state, parameters and time -/
  ics : List Expr
  deriving Inhabited

namespace VarSystem

/-- The tables of the construction: names, indices and expressions built so far. -/
structure Tables where
  names : Array String
  mindices : Array (Nat × List Nat)
  rhs : Array Expr
  ics : Array Expr
  lookup : Std.HashMap (Nat × List Nat) Nat
  byName : Std.HashMap String Nat

/-- `D_a E`: the total derivative of `E` with respect to argument `a`, the nodes built for it
tagged under `t`. `bump` names the variable one order up in direction `a`. -/
def totalDerivative (t : NodeTag) (e : Expr) (arg : Option Expr)
    (byName : Std.HashMap String Nat) (bump : Nat → Option String) : Outcome Expr := do
  let vars := e.varNames
  let direct := match arg with
    | some (.param _) => true
    | _ => false
  let wrt := vars.map Expr.var ++ (if direct then arg.toList else [])
  let grads ← Expr.gradientTagged (t.child 0) e wrt
  let mut terms : Array Expr := #[]
  for ((v, g), q) in (vars.zip grads).zipIdx do
    if g.isZero then continue
    let some idx := byName.get? v
      | throw (.invalid s!"'{v}' is not a variable of the variational system")
    let some dv := bump idx
      | throw (.invalid s!"no variational variable above '{v}'")
    terms := terms.push (Expr.mul ((t.child 1).child q) g (.var dv))
  if direct then
    if let some g := grads.getLast? then terms := terms.push g
  return Expr.sum (t.child 2) terms.toList

/-- The right-hand side and initial value of `∂^m x_k`, element `i` of layer `j`. -/
def entryOf (args : List VarArg) (tb : Tables) (start j i k : Nat) (m : List Nat) :
    Outcome (Expr × Expr) := do
  let a := (m.findIdx? (· > 0)).getD 0
  let parent := m.modify a (· - 1)
  let p := tb.lookup.getD (k, parent) 0
  let bump (idx : Nat) : Option String := do
    let (kk, mm) ← tb.mindices[idx]?
    let up ← tb.lookup.get? (kk, mm.modify a (· + 1))
    tb.names[up]?
  let arg := (args.getD a .time).toExpr?
  let rhsP := tb.rhs.getD p Expr.zero
  let icP := tb.ics.getD p Expr.zero
  let rhsM ← totalDerivative (.path [1, j, i]) rhsP arg tb.byName bump
  let icM ← match arg with
    | some x => Expr.diff icP x
    | none => do
      let atStart := Substitution.ofList
        ((tb.names.toList.take start).zip tb.ics.toList |>.map fun (n, ic) => (.var n, ic))
      let flow ← (rhsP.subst atStart).normalise
      (Expr.sub .anon (← Expr.diff icP .time) flow).normalise
  return (rhsM, icM)

/-- Adds the layer of total order `j`. -/
def addLayer (args : List VarArg) (dim nArgs : Nat) (state : List String) (tb : Tables)
    (j : Nat) : Outcome Tables := do
  let layer := (multiIndices nArgs j).flatMap fun m => (List.range dim).map fun k => (k, m)
  let start := tb.names.size
  let tb := layer.zipIdx.foldl (fun tb ((k, m), i) =>
    let v := variationalName (state.getD k "") m
    { tb with
      lookup := tb.lookup.insert (k, m) (start + i)
      byName := tb.byName.insert v (start + i)
      names := tb.names.push v
      mindices := tb.mindices.push (k, m) }) tb
  let built ← layer.zipIdx.mapM fun ((k, m), i) => entryOf args tb start j i k m
  return { tb with rhs := tb.rhs ++ built.map (·.1), ics := tb.ics ++ built.map (·.2) }

/-- The variational system of `sys` over `args` up to total order `order`. -/
def ofSystem (sys : OdeSystem) (args : List VarArg) (order : Nat) : Outcome VarSystem := do
  if order == 0 then throw (.invalid "the variational order must be at least 1")
  if args.isEmpty then throw (.invalid "the variational equations need at least one argument")
  let mut seen : List VarArg := []
  for a in args do
    if seen.contains a then throw (.invalid s!"duplicate variational argument {a.describe}")
    seen := a :: seen
    if let .var v := a then
      if (sys.indexOf? v).isNone then
        throw (.invalid s!"'{v}' is not a state variable of the system")
  if let some v := sys.state.find? Variable.isVariational then
    throw (.invalid
      s!"the state variable '{v}' uses the prefix reserved for variational variables")
  let dim := sys.dimension
  let nArgs := args.length
  let zeros := List.replicate nArgs 0
  let start : Tables := {
    names := sys.state.toArray
    mindices := ((List.range dim).map fun k => (k, zeros)).toArray
    rhs := sys.rhs.toArray
    ics := (sys.state.map Expr.var).toArray
    lookup := (List.range dim).foldl (fun m k => m.insert (k, zeros) k) {}
    byName := sys.state.zipIdx.foldl (fun m (v, k) => m.insert v k) {} }
  let tb ← (List.range order).foldlM (fun tb j => addLayer args dim nArgs sys.state tb (j + 1))
    start
  let augmented ← OdeSystem.ofEquations (tb.names.toList.map Expr.var |>.zip tb.rhs.toList)
  return { system := augmented, nOrig := dim, args := args, order := order,
           mindices := tb.mindices.toList, ics := tb.ics.toList }

/-- The number of equations of the augmented system. -/
def nEq (v : VarSystem) : Nat := v.system.dimension

/-- The component and multi-index of state variable `i`. -/
def mindex? (v : VarSystem) (i : Nat) : Option (Nat × List Nat) := v.mindices[i]?

/-- The position of `∂^m x_k` in the augmented state. -/
def indexOf? (v : VarSystem) (k : Nat) (m : List Nat) : Option Nat :=
  v.mindices.findIdx? fun (kk, mm) => kk == k && mm == m

/-- The state indices of the derivatives of total order `j`. -/
def orderRange (v : VarSystem) (j : Nat) : Nat × Nat :=
  let total (m : List Nat) := m.foldl (· + ·) 0
  let n := v.mindices.length
  let start := (v.mindices.findIdx? fun (_, m) => total m ≥ j).getD n
  let stop := (v.mindices.findIdx? fun (_, m) => total m > j).getD n
  (start, Nat.max stop start)

/-- The augmented initial state from the original one. -/
def initialState {α : Type} [Scalar α] (v : VarSystem) (x0 : List α) (pars : Array α)
    (t0 : α) : Outcome (List α) := do
  if x0.length != v.nOrig then
    throw (.invalid s!"expected {v.nOrig} initial values, got {x0.length}")
  let vars := ((v.system.state.take v.nOrig).zip x0).foldl (fun m (k, x) => m.insert k x)
    ({} : Std.HashMap String α)
  v.ics.mapM (Expr.eval { vars := vars, pars := pars, time := t0 })

end VarSystem

end TaylorOde
