import TaylorOde.Expr.Rewrite
import TaylorOde.Expr.Display
import TaylorOde.Expr.Eval
import TaylorOde.Expr.Variable
/-!
# Systems of ordinary differential equations

A system is an ordered list of equations `x_k' = f_k(x, p, t)`. Its state variables are the
left-hand sides, in order; they are distinct, none has an elementary name, and every
right-hand side mentions state variables only. The number of parameters is one more than the
largest parameter index mentioned, and the system is autonomous when no right-hand side
mentions the time.
-/

namespace TaylorOde

/-- A validated system of equations. -/
structure OdeSystem where
  state : List String
  rhs : List Expr
  deriving Inhabited

namespace OdeSystem

/-- Checks the left-hand sides one equation at a time, collecting the state. -/
def collectState : List (Expr × Expr) → List String → Outcome (List String)
  | [], seen => .ok seen.reverse
  | (lhs, _) :: rest, seen =>
    match lhs with
    | .var v =>
      if Variable.isElementary v then
        .error (.invalid s!"the state variable name '{v}' is reserved for internal use")
      else if seen.contains v then .error (.invalid s!"duplicate state variable '{v}'")
      else collectState rest (v :: seen)
    | other => .error (.invalid
        s!"the left-hand side of an equation must be a variable, got '{other.display}'")

/-- The system of a list of equations `(lhs, rhs)`. -/
def ofEquations (eqs : List (Expr × Expr)) : Outcome OdeSystem := do
  if eqs.isEmpty then throw (.invalid "an ODE system needs at least one equation")
  let state ← collectState eqs []
  let rhs := eqs.map (·.2)
  for f in rhs do
    match f.varNames.find? (fun v => !state.contains v) with
    | some u => throw (.invalid
        s!"the right-hand side '{f.display}' refers to the variable '{u}', which is not a state variable")
    | none => pure ()
  return ⟨state, rhs⟩

/-- The number of state variables. -/
def dimension (s : OdeSystem) : Nat := s.state.length

/-- The position of a state variable. -/
def indexOf? (s : OdeSystem) (v : String) : Option Nat := s.state.idxOf? v

/-- The length of the shortest parameter vector covering every parameter mentioned. -/
def nParams (s : OdeSystem) : Nat :=
  (s.rhs.flatMap Expr.params).foldl (fun m p => Nat.max m (p + 1)) 0

/-- Whether no right-hand side mentions the time. -/
def isAutonomous (s : OdeSystem) : Bool := !s.rhs.any Expr.hasTime

/-- The right-hand sides evaluated at a state, parameters and time; a component that cannot
be evaluated is NaN. -/
def apply {α : Type} [Scalar α] (s : OdeSystem) (pars : Array α) (t : α) (x : List α) :
    List α :=
  let vars := (s.state.zip x).foldl (fun m (k, v) => m.insert k v) ({} : Std.HashMap String α)
  s.rhs.map fun f =>
    match f.eval { vars := vars, pars := pars, time := t } with
    | .ok v => v
    | .error _ => Scalar.nan

end OdeSystem

end TaylorOde
