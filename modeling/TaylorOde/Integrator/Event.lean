import TaylorOde.Polynomial.Roots
import TaylorOde.Expr.Basic
/-!
# Events

An event is an expression `g(x, p, t)` whose zero crossings are located on the Taylor
polynomial of `g` over every step. A terminal event ends the step at its earliest crossing; a
non-terminal event is only reported.

`crossings` lists the roots of the event polynomial in `[0, |h|)` in time order, with the sign
of `dg/dt` at each root as its direction, keeping those the event's direction filter accepts.
A backward step reads the polynomial in the distance variable `τ = -δ`, which flips the odd
coefficients. `deduceCooldown` is the window after a terminal event during which the event is
ignored when the event gives none: ten tolerances of `g` over its slope, and never less than
four units in the last place of the event time.
-/

namespace TaylorOde

/-- The direction of a zero crossing, or the crossings an event reacts to. -/
inductive EventDirection where
  | any
  | positive
  | negative
  deriving BEq, Inhabited, Repr

namespace EventDirection

/-- Whether a filter lets a crossing of this direction through. -/
def accepts (filter crossing : EventDirection) : Bool := filter == .any || filter == crossing

/-- The direction's name. -/
def name : EventDirection → String
  | .any => "any"
  | .positive => "positive"
  | .negative => "negative"

/-- The direction of a name. -/
def ofName? : String → Option EventDirection
  | "any" => some .any
  | "positive" => some .positive
  | "negative" => some .negative
  | _ => none

end EventDirection

/-- What runs when a terminal event triggers. -/
inductive TerminalAction where
  /-- an instrument that writes the trigger to the journal and lets a propagation carry on past
  it exactly when `resume` -/
  | journal (resume : Bool)
  /-- the closure `id` of the callback code, run on the integrator with the direction of the
  crossing; its answer tells whether a propagation carries on -/
  | closure (id : Nat)
  deriving Inhabited

/-- What runs when a non-terminal event triggers. -/
inductive NonTerminalAction where
  /-- an instrument that writes the trigger to the journal -/
  | journal
  /-- the closure `id` of the callback code, run on the integrator with the time and the
  direction of the crossing -/
  | closure (id : Nat)
  deriving Inhabited

/-- An event that ends the step at its earliest crossing. -/
structure TerminalEvent (α : Type) where
  expr : Expr
  direction : EventDirection := .any
  /-- the window after a trigger during which the event is ignored; deduced when absent -/
  cooldown : Option α := none
  /-- what runs at every trigger; without it a propagation stops at the trigger -/
  callback : Option TerminalAction := none
  deriving Inhabited

/-- An event that is reported without ending the step. -/
structure NonTerminalEvent where
  expr : Expr
  direction : EventDirection := .any
  /-- what runs at every trigger -/
  callback : Option NonTerminalAction := none
  deriving Inhabited

/-- A non-terminal event triggered during the last step. -/
structure EventHit (α : Type) where
  index : Nat
  time : α
  direction : EventDirection

/-- An entry of the journal of event triggers. -/
inductive EventNote (α : Type) where
  /-- a terminal event triggered; the integrator's time after the step -/
  | terminal (index : Nat) (time : α) (direction : EventDirection)
  /-- a non-terminal event triggered at a time inside the step -/
  | nonTerminal (index : Nat) (time : α) (direction : EventDirection)

/-- A root of an event polynomial inside a step. -/
structure Crossing (α : Type) where
  /-- the distance from the start of the step, never negative -/
  tau : α
  direction : EventDirection
  /-- `|dg/dt|` at the root -/
  slope : α

variable {α : Type} [Scalar α]

open Scalar

/-- The crossings of `g` in `[0, hAbs)` that pass the direction filter, in time order.
`coeffs` are the Taylor coefficients of `g` in the signed step variable. -/
def crossings (coeffs : Poly α) (hAbs : α) (backward : Bool) (filter : EventDirection) :
    List (Crossing α) :=
  let signed := coeffs.zipIdx.map fun (c, n) => if backward && n % 2 == 1 then -c else c
  let der := Poly.derivative coeffs
  (Poly.rootsIn signed hAbs).filterMap fun tau =>
    let delta := if backward then -tau else tau
    let d := Poly.horner der delta
    let direction :=
      if Scalar.lt zero d then EventDirection.positive
      else if Scalar.lt d zero then .negative
      else .any
    if filter.accepts direction then some ⟨tau, direction, Scalar.abs d⟩ else none

/-- The cooldown of a terminal event that has none: `10 · tol · max(|g|, 1) / slope`, at least
`4 · ε · |t|`; only the floor when the slope is zero or not finite. -/
def deduceCooldown (tol gScale slope time : α) : α :=
  let floor := ofFloat 4.0 * epsilon * Scalar.abs time
  if Scalar.lt zero slope && isFinite slope then
    Scalar.max (ofFloat 10.0 * tol * Scalar.max gScale one / slope) floor
  else floor

end TaylorOde
