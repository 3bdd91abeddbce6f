import TaylorOde.Expr.Basic
import Std.Data.HashMap
/-!
# Numerical evaluation

An expression evaluates over any `Scalar` once every variable it mentions has a value,
every parameter index is in range, and the time is given. Literals are rounded to the
scalar type; operators take their meaning from `Op.eval`, arguments from the left. The first
missing value met is the error.
-/

namespace TaylorOde

/-- Values for the atoms of an expression. -/
structure Valuation (α : Type) where
  vars : Std.HashMap String α := {}
  pars : Array α := #[]
  time : α

namespace Expr

variable {α : Type} [Scalar α]

/-- The value of an expression. -/
def eval (v : Valuation α) (e : Expr) : Outcome α :=
  match e with
  | .num n => .ok (Scalar.ofFloat n.value)
  | .param i =>
    match v.pars[i.toNat]? with
    | some x => .ok x
    | none => .error (.invalid
        s!"parameter index {i} is out of range for {v.pars.size} parameter(s)")
  | .var name =>
    match v.vars.get? name with
    | some x => .ok x
    | none => .error (.invalid s!"no value for variable '{name}'")
  | .time => .ok v.time
  | .func _ op args _ => do
    let xs ← args.mapM (eval v)
    return op.eval xs

end Expr

end TaylorOde
