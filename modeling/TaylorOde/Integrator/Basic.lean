import TaylorOde.Integrator.Config
import TaylorOde.Integrator.Event
import TaylorOde.Integrator.Callback
import TaylorOde.Integrator.Continuous
import TaylorOde.Ode.Variational
import TaylorOde.Ir.Emit
import TaylorOde.Ir.Machine
import TaylorOde.Ir.Text
import TaylorOde.Decomposition.Build
/-!
# The adaptive Taylor integrator

An integrator holds an ODE system compiled to IR, its state, the time as an unevaluated sum
`hi + lo`, the parameters, and the events and the step callback that watch the integration.
The IR computes the Taylor coefficients of the state, and of every event function, up to the
integrator's order on a tape; the tape of the last step is kept, so that coefficients can be
read and the solution evaluated inside the last step.

Building checks the settings, the size of the state (a variational system may start from the
original state alone), that the time is finite and that the parameter vector covers every
parameter mentioned, then deduces the tolerance and the order and compiles the system with
its event functions.

The integrator also keeps what its watchers observe: the journal of event triggers and the
readings of the probe callbacks.
-/

namespace TaylorOde

/-- A possibly empty step callback; an empty callback behaves as no callback. -/
abbrev Callback := Option StepCallback

/-- An adaptive Taylor integrator over the scalar type `α`. -/
structure Integrator (α : Type) where
  system : OdeSystem
  variational : Option VarSystem
  state : Array α
  /-- the time as the unevaluated sum `hi + lo` -/
  time : α × α
  pars : Array α
  tol : α
  order : Nat
  config : TaylorConfig
  dc : Decomposition
  outputs : Array OutputRef
  ir : IrModule
  /-- the Taylor coefficients of the last step, order by order -/
  tape : Array α
  terminal : Array (TerminalEvent α)
  nonTerminal : Array NonTerminalEvent
  /-- the time and length of the last cooldown of each terminal event -/
  cooldowns : Array (Option (α × α))
  /-- the signed size of the last step -/
  lastH : α
  /-- the non-terminal events triggered during the last step -/
  lastHits : List (EventHit α)
  callback : Callback
  /-- the event triggers reported so far -/
  journal : Array (EventNote α)
  /-- the readings of the probe callbacks: calls and pre-hook runs -/
  readings : Array (Nat × Nat)

/-- The inputs of an integrator. -/
structure Builder (α : Type) where
  system : OdeSystem
  variational : Option VarSystem := none
  state : List α
  time : Option α := none
  pars : List α := []
  config : TaylorConfig := {}
  terminal : List (TerminalEvent α) := []
  nonTerminal : List NonTerminalEvent := []
  callback : Callback := none
  readings : Array (Nat × Nat) := #[]

namespace Builder

variable {α : Type} [Scalar α]

open Scalar

/-- A builder for a system and an initial state. -/
def ofSystem (sys : OdeSystem) (state : List α) : Builder α :=
  { system := sys, state := state }

/-- A builder for a variational system. The state may hold the original state only, from
which the variational components are initialised, or the full augmented state. -/
def ofVariational (v : VarSystem) (state : List α) : Builder α :=
  { system := v.system, variational := some v, state := state }

/-- The length of the shortest parameter vector covering the system and the events. -/
def parametersNeeded (b : Builder α) (extra : List Expr) : Nat :=
  (extra.flatMap Expr.params).foldl (fun m p => Nat.max m (p + 1)) b.system.nParams

/-- The initial state: the given one, or, for a variational system given the original state
only, that state with the variational components initialised. -/
def initialState (b : Builder α) (time : α) : Outcome (List α) :=
  match b.variational with
  | some v =>
    if b.state.length == v.nOrig then v.initialState b.state b.pars.toArray time
    else pure b.state
  | none => pure b.state

/-- Builds the integrator. -/
def build (b : Builder α) : Outcome (Integrator α) := do
  let config := b.config
  config.validate
  let time := b.time.getD zero
  let state ← b.initialState time
  ensure (state.length == b.system.dimension)
    s!"the initial state has {state.length} components, the system has dimension {b.system.dimension}"
  ensure (isFinite time) "the initial time must be finite"
  let extra := b.terminal.map (·.expr) ++ b.nonTerminal.map (·.expr)
  let needed := b.parametersNeeded extra
  ensure (needed ≤ b.pars.length)
    s!"parameter index {needed - 1} is out of range for a parameter vector of length {b.pars.length}"
  let tol : α := match config.tol with
    | some t => ofFloat t
    | none => epsilon
  let order := config.orderFor (toFloat tol)
  let dc ← Decomposition.ofSystem b.system extra { sumSplit := config.sumSplit }
  let ir ← dc.emit (Scalar.kind (α := α)) order config.compactMode
  return {
    system := b.system, variational := b.variational, state := state.toArray,
    time := (time, zero), pars := b.pars.toArray, tol := tol, order := order,
    config := config, dc := dc, outputs := dc.outputRefs.toArray, ir := ir,
    tape := Array.replicate ir.tapeLen zero, terminal := b.terminal.toArray,
    nonTerminal := b.nonTerminal.toArray,
    cooldowns := Array.replicate b.terminal.length none, lastH := zero, lastHits := [],
    callback := b.callback, journal := #[], readings := b.readings }

end Builder

namespace Integrator

variable {α : Type} [Scalar α]

open Scalar

/-- The number of state components. -/
def dimension (ta : Integrator α) : Nat := ta.state.size

/-- The state variables. -/
def stateVars (ta : Integrator α) : List String := ta.system.state

/-- Replaces the state; its size must not change. -/
def updateState (ta : Integrator α) (state : List α) : Outcome (Integrator α) :=
  if state.length != ta.state.size then
    .error (.invalid s!"expected a state with {ta.state.size} components, got {state.length}")
  else .ok { ta with state := state.toArray }

/-- Writes state component `k` in place, as through the mutable view of the state: the size
does not change, and a write past the end is dropped. -/
def writeState (ta : Integrator α) (k : Nat) (x : α) : Integrator α :=
  { ta with state := ta.state.set! k x }

/-- Writes parameter `k` in place, as through the mutable view of the parameters: the size
does not change, and a write past the end is dropped. -/
def writePar (ta : Integrator α) (k : Nat) (x : α) : Integrator α :=
  { ta with pars := ta.pars.set! k x }

/-- Sets the time, with no low part. -/
def setTime (ta : Integrator α) (t : α) : Integrator α := { ta with time := (t, zero) }

/-- Replaces the step callback. -/
def setCallback (ta : Integrator α) (cb : Callback) : Integrator α := { ta with callback := cb }

/-- Forgets every cooldown of the terminal events. -/
def resetCooldowns (ta : Integrator α) : Integrator α :=
  { ta with cooldowns := ta.cooldowns.map fun _ => none }

/-- The Taylor coefficient of order `n` of state component `k` from the last step, expanded
around the start of that step. -/
def taylorCoefficient (ta : Integrator α) (k n : Nat) : Option α :=
  if k ≥ ta.state.size || n > ta.order then none
  else ta.tape[n * ta.ir.nEntries + k]?

/-- The listing of the IR of the Taylor function. -/
def dumpIr (ta : Integrator α) : String := ta.ir.dump (Scalar.kind (α := α))

/-- The coefficients of output `j` at every order. -/
def outputCoeffs (ta : Integrator α) (j : Nat) : Poly α :=
  let n := ta.ir.nEntries
  (List.range (ta.order + 1)).map fun m =>
    match ta.outputs[j]? with
    | some (.entry i) => ta.tape.getD (m * n + i) zero
    | some (.number c) => if m == 0 then ofFloat c else zero
    | none => zero

/-- The polynomial of state component `k` over the last step. -/
def statePoly (ta : Integrator α) (k : Nat) : Poly α :=
  let n := ta.ir.nEntries
  (List.range (ta.order + 1)).map fun m => ta.tape.getD (m * n + k) zero

/-- The state polynomials of the last step evaluated at `delta` from its start. -/
def evalStep (ta : Integrator α) (delta : α) : List α :=
  (List.range ta.state.size).map fun k =>
    let p := ta.statePoly k
    if ta.config.highAccuracy then Poly.compensatedHorner p delta else Poly.horner p delta

/-- The polynomials of every state component over the last step. -/
def stepPolys (ta : Integrator α) : Array (Poly α) :=
  ((List.range ta.state.size).map ta.statePoly).toArray

/-- What the callbacks see of the integrator. -/
def scope (ta : Integrator α) : CallbackScope α :=
  ⟨ta.state, ta.time, ta.stateVars, ta.readings⟩

/-- Takes back what a callback changed. -/
def withScope (ta : Integrator α) (s : CallbackScope α) : Integrator α :=
  { ta with state := s.state, time := s.time, readings := s.readings }

/-- Takes the journal entries written since the last call. -/
def takeJournal (ta : Integrator α) : List (EventNote α) × Integrator α :=
  (ta.journal.toList, { ta with journal := #[] })

/-- The readings of the first `n` probes. -/
def probeReadings (ta : Integrator α) (n : Nat) : List (Nat × Nat) :=
  (List.range n).map fun i => ta.readings.getD i (0, 0)

end Integrator

end TaylorOde
