import TaylorOde.Integrator.Code
/-!
# One step of the integrator

A step runs the Taylor function on the tape at the current state and time, then:

* gives up with `nonFinite` if any coefficient of the state is not finite;
* deduces the step size from the last two orders: with `ρ_m = (tol · max(max|x|, 1) / ‖x_m‖) ^ (1/m)`
  (infinite for a zero coefficient vector), the size is `min(ρ_{p-1}, ρ_p)` times the safety
  factor, capped at the requested limit, in which case the outcome is `timeLimit`;
* shortens the step to the earliest crossing of a terminal event not in its cooldown, with
  the outcome `terminalEvent`, and collects the crossings of the non-terminal events inside
  the step in time order;
* evaluates the state polynomials at the signed step and gives up if the result is not
  finite;
* commits the new state, adds the step to the time with an error-free sum, starts the
  cooldown of the terminal event and runs the callbacks of the events that triggered: the
  terminal one first, then the non-terminal ones in time order. An event callback is an
  instrument that writes the trigger to the journal or a closure of the callback code, which
  may do to the integrator whatever its public operations do.

A step that gives up changes nothing but the tape.
-/

namespace TaylorOde

/-- How a step or a propagation ended. -/
inductive StepOutcome where
  | success
  | timeLimit
  | stepLimit
  | callbackStop
  | nonFinite
  | terminalEvent (index : Nat)
  deriving BEq, Inhabited, Repr

namespace StepOutcome

/-- The outcome's name. -/
def name : StepOutcome → String
  | .success => "success"
  | .timeLimit => "time_limit"
  | .stepLimit => "step_limit"
  | .callbackStop => "cb_stop"
  | .nonFinite => "err_nf_state"
  | .terminalEvent i => s!"terminal_event({i})"

/-- Whether the outcome is a terminal event. -/
def isTerminal : StepOutcome → Bool
  | .terminalEvent _ => true
  | _ => false

end StepOutcome

/-- The result of one step: the outcome, the signed step size, and whether a terminal event
that ended the step lets a propagation carry on. -/
structure StepReport (α : Type) where
  outcome : StepOutcome
  h : α
  resume : Bool

namespace Integrator

variable {α : Type} [Scalar α]

open Scalar

/-- The tape after running the Taylor function at the current state and time. -/
def computeTape (ta : Integrator α) : Array α :=
  let tape := ta.state.zipIdx.foldl (fun t (x, k) => t.set! k x) ta.tape
  ta.ir.run tape ta.pars ta.time.1

/-- Whether every coefficient of the state on the tape is finite. -/
def finiteCoefficients (ta : Integrator α) : Bool :=
  let n := ta.ir.nEntries
  (List.range (ta.order + 1)).all fun m =>
    (List.range ta.state.size).all fun k => isFinite (ta.tape.getD (m * n + k) zero)

/-- The largest magnitude among the state coefficients of order `m`. -/
def coefficientNorm (ta : Integrator α) (m : Nat) : α :=
  let n := ta.ir.nEntries
  (List.range ta.state.size).foldl (fun acc k => Scalar.max acc (Scalar.abs (ta.tape.getD (m * n + k) zero)))
    zero

/-- The step size the coefficients of order `m` allow. -/
def orderRadius (ta : Integrator α) (scaledTol : α) (m : Nat) : α :=
  let nm := ta.coefficientNorm m
  if Scalar.eq nm zero then inf
  else pow (scaledTol / nm) (one / ofFloat (Float.ofNat m))

/-- The step size deduced from the last two orders. -/
def deducedStep (ta : Integrator α) : α :=
  let maxAbs := ta.state.foldl (fun m x => Scalar.max m (Scalar.abs x)) zero
  let scaledTol := ta.tol * Scalar.max maxAbs one
  Scalar.min (ta.orderRadius scaledTol (ta.order - 1)) (ta.orderRadius scaledTol ta.order) *
    ofFloat ta.config.safetyFactor

/-- The earliest crossing of a terminal event inside a step of size `h`, skipping crossings in
the event's cooldown: the event, the crossing, and `|g|` at the start of the step. -/
def firstTerminal (ta : Integrator α) (h : α) (forward : Bool) :
    Option (Nat × Crossing α × α) :=
  let dim := ta.state.size
  let t0 := ta.time.1
  (List.range ta.terminal.size).foldl (fun best i =>
    let coeffs := ta.outputCoeffs (dim + i)
    let ev := ta.terminal[i]!
    let open_ (c : Crossing α) : Bool :=
      let tAbs := if forward then t0 + c.tau else t0 - c.tau
      match ta.cooldowns[i]? with
      | some (some (tLast, cd)) => !(Scalar.lt (Scalar.abs (tAbs - tLast)) cd)
      | _ => true
    match (crossings coeffs h (!forward) ev.direction).find? open_ with
    | none => best
    | some c =>
      let better := match best with
        | none => true
        | some (_, b, _) => Scalar.lt c.tau b.tau
      if better then some (i, c, Scalar.abs (coeffs.headD zero)) else best) none

/-- The crossings of the non-terminal events inside a step of size `h`, in time order. -/
def nonTerminalHits (ta : Integrator α) (h : α) (forward : Bool) : List (EventHit α) :=
  let dim := ta.state.size
  let t0 := ta.time.1
  let hits := (List.range ta.nonTerminal.size).flatMap fun i =>
    let coeffs := ta.outputCoeffs (dim + ta.terminal.size + i)
    (crossings coeffs h (!forward) ta.nonTerminal[i]!.direction).map fun c =>
      (c.tau, ({ index := i, time := if forward then t0 + c.tau else t0 - c.tau,
                 direction := c.direction } : EventHit α))
  (hits.mergeSort fun a b => !(Scalar.lt b.1 a.1)).map (·.2)

variable [CallbackCode α]

/-- Runs the callback of terminal event `i` at a crossing in direction `dir`; the answer tells
whether a propagation carries on past it, and is `false` without a callback. -/
def runTerminalCallback (ta : Integrator α) (i : Nat) (dir : EventDirection) : Integrator α × Bool :=
  match (ta.terminal[i]?).bind (·.callback) with
  | some (.journal r) => ({ ta with journal := ta.journal.push (.terminal i ta.time.1 dir) }, r)
  | some (.closure id) => CallbackCode.terminal id ta dir
  | none => (ta, false)

/-- Runs the callback of the non-terminal event of a hit, if it has one. -/
def runNonTerminalCallback (ta : Integrator α) (hit : EventHit α) : Integrator α :=
  match (ta.nonTerminal[hit.index]?).bind (·.callback) with
  | some .journal =>
    { ta with journal := ta.journal.push (.nonTerminal hit.index hit.time hit.direction) }
  | some (.closure id) => CallbackCode.nonTerminal id ta hit.time hit.direction
  | none => ta

/-- Commits a step of signed size `hs` that ends at the state `next`: the state, the time (an
error-free sum), the last step and its non-terminal hits; then the cooldown and the callback of
the terminal event that ended the step, if any; then the callbacks of the non-terminal hits, in
time order. Also returns whether the terminal event lets a propagation carry on. -/
def commitStep (ta : Integrator α) (next : List α) (hs : α) (hits : List (EventHit α))
    (first : Option (Nat × Crossing α × α)) : Integrator α × Bool :=
  let (hi, lo) := ta.time
  let (s, e) := Poly.twoSum hi hs
  let ta := { ta with state := next.toArray, time := Poly.twoSum s (lo + e), lastH := hs,
                      lastHits := hits }
  let (ta, resume) := match first with
    | none => (ta, false)
    | some (i, c, gScale) =>
      let tEvent := ta.time.1
      let ev := ta.terminal[i]!
      let cd := ev.cooldown.getD (deduceCooldown ta.tol gScale c.slope tEvent)
      let ta := { ta with cooldowns := ta.cooldowns.set! i (some (tEvent, cd)) }
      ta.runTerminalCallback i c.direction
  let ta := ta.lastHits.foldl runNonTerminalCallback ta
  (ta, resume)

/-- What a step of magnitude at most `limit` decides before it commits, from an integrator
whose tape holds the coefficients at its state and time: its signed size, its outcome, the
crossings of the non-terminal events inside it and the terminal crossing that ends it, if
any. Nothing when the step gives up: a coefficient, the step size or the new state is not
finite. -/
def stepPlan (ta : Integrator α) (limit : α) (forward : Bool) :
    Option (α × StepOutcome × List (EventHit α) × Option (Nat × Crossing α × α)) :=
  if !ta.finiteCoefficients then none
  else
    let h := ta.deducedStep
    let (h, outcome) := if Scalar.le limit h then (limit, StepOutcome.timeLimit) else (h, .success)
    if !isFinite h then none
    else
      let first := ta.firstTerminal h forward
      let (h, outcome) := match first with
        | some (i, c, _) => (c.tau, StepOutcome.terminalEvent i)
        | none => (h, outcome)
      let hits := ta.nonTerminalHits h forward
      let hs := if forward then h else -h
      if (ta.evalStep hs).any (fun x => !isFinite x) then none
      else some (hs, outcome, hits, first)

/-- One step of magnitude at most `limit` in the given direction, from an integrator whose
tape holds the coefficients at its state and time. -/
def stepFrom (ta : Integrator α) (limit : α) (forward : Bool) : Integrator α × StepReport α :=
  match ta.stepPlan limit forward with
  | none => (ta, ⟨.nonFinite, zero, false⟩)
  | some (hs, outcome, hits, first) =>
    let (ta, resume) := ta.commitStep (ta.evalStep hs) hs hits first
    (ta, ⟨outcome, hs, resume⟩)

/-- One step of magnitude at most `limit` in the given direction. -/
def stepCore (ta : Integrator α) (limit : α) (forward : Bool) : Integrator α × StepReport α :=
  { ta with tape := ta.computeTape }.stepFrom limit forward

/-- One forward step of the deduced size. -/
def step (ta : Integrator α) : Integrator α × StepReport α := ta.stepCore inf true

/-- One backward step of the deduced size. -/
def stepBackward (ta : Integrator α) : Integrator α × StepReport α := ta.stepCore inf false

/-- One step of magnitude at most `|dt|`, in the direction of the sign of `dt`. -/
def stepWith (ta : Integrator α) (dt : α) : Outcome (Integrator α × StepReport α) :=
  if isNaN dt then .error (.invalid "the maximum step size must not be NaN")
  else .ok (ta.stepCore (Scalar.abs dt) (Scalar.le zero dt))

end Integrator

end TaylorOde
