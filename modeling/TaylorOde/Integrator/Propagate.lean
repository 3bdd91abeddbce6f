import TaylorOde.Integrator.Step
/-!
# Propagation

A propagation steps towards a final time until it gets there (`timeLimit`), takes the
allowed number of steps (`stepLimit`), meets a terminal event that does not let it carry on
(`terminalEvent`), is stopped by its callback (`callbackStop`) or meets a step that gives up
(`nonFinite`). Every step is bounded by the time still to go and by the largest step allowed;
a step that reaches the final time sets the time to it exactly.

The step callback is the one given with the propagation, or else the integrator's own; its
pre-hook runs before the first step, and it runs after every step that does not end the
propagation at a terminal event. A callback that fails ends the propagation with its failure,
and one that changes the time breaks the event protocol. A callback given with the
propagation is handed back at the end.

A propagation may record the polynomials of every step as continuous output, and a
propagation over a grid of times collects the state at every grid point it passes.
-/

namespace TaylorOde

/-- Options of a propagation. -/
structure PropagateOptions (α : Type) where
  maxSteps : Option Nat := none
  /-- an upper bound on the magnitude of every step -/
  maxDeltaT : Option α := none
  /-- replaces the integrator's own callback for this propagation -/
  callback : Option Callback := none
  /-- records the polynomials of every step -/
  continuous : Bool := false

/-- The result of a propagation. -/
structure PropagateResult (α : Type) where
  outcome : StepOutcome
  /-- the smallest step magnitude; infinite when no step was taken -/
  minH : α
  /-- the largest step magnitude; zero when no step was taken -/
  maxH : α
  nSteps : Nat
  continuous : Option (ContinuousOutput α)
  /-- the callback given with the propagation, handed back -/
  handedBack : Option Callback

/-- The grid points still to be reached, and the states collected at those passed. -/
structure GridCursor (α : Type) where
  grid : Array α
  next : Nat
  forward : Bool
  states : Array (List α)

/-- The state of a running propagation. -/
structure PropagateState (α : Type) where
  ta : Integrator α
  callback : Callback
  dense : Option (ContinuousOutput α)
  minH : α
  maxH : α
  nSteps : Nat
  cursor : Option (GridCursor α)

/-- The most steps one propagation takes; a propagation that would take more ends with the
step limit. -/
def propagationStepBound : Nat := Nat.pow 2 32

namespace StepReport

/-- Whether a step ends the propagation at a terminal event that does not let it carry on;
the callback does not run after such a step. -/
def stops {α : Type} (report : StepReport α) : Bool := report.outcome.isTerminal && !report.resume

end StepReport

namespace GridCursor

variable {α : Type} [Scalar α]

open Scalar

/-- Collects the states at the grid points passed by the step that started at `tPrev`. -/
def collect (c : GridCursor α) (ta : Integrator α) (tPrev : α × α) : GridCursor α :=
  go c (c.grid.size + 1)
where
  /-- Collects while grid points remain behind the current time. -/
  go (c : GridCursor α) : Nat → GridCursor α
    | 0 => c
    | fuel + 1 =>
      let now := ta.time.1
      match c.grid[c.next]? with
      | none => c
      | some g =>
        let passed := if c.forward then Scalar.le g now else Scalar.le now g
        if !passed then c
        else
          let x := if Scalar.eq g now then ta.state.toList
            else ta.evalStep ((g - tPrev.1) - tPrev.2)
          go { c with next := c.next + 1, states := c.states.push x } fuel

end GridCursor

namespace Integrator

variable {α : Type} [Scalar α] [CallbackCode α]

open Scalar

/-- Runs the callback after a step; the result tells whether to go on. -/
def runCallback (ps : PropagateState α) : PropagateState α × Outcome Bool :=
  match ps.callback with
  | none => (ps, .ok true)
  | some cb =>
    let before := ps.ta.time
    let r := cb.call ps.ta
    let ps := { ps with ta := r.ta, callback := some r.callback }
    match r.result with
    | .error e => (ps, .error e)
    | .ok keep =>
      let after := ps.ta.time
      if !(Scalar.eq after.1 before.1 && Scalar.eq after.2 before.2) then
        (ps, .error (Error.protocol
          s!"a step callback changed the time from {generalText before.1} to {generalText after.1}"))
      else (ps, .ok keep)

/-- The first half of a turn of the propagation loop: the step limit, the time still to go,
the step and its booking. It ends the propagation before a step is committed (`.inl`), or
gives the state after a committed step with the step's report and whether the step reached
the final time (`.inr`). -/
def advance (tEnd : α) (maxSteps : Option Nat) (maxDeltaT : α) (forward : Bool)
    (ps : PropagateState α) :
    (PropagateState α × StepOutcome) ⊕ (PropagateState α × StepReport α × Bool) :=
  if maxSteps.any (ps.nSteps ≥ ·) then .inl (ps, .stepLimit)
  else
    let ta := ps.ta
    let remaining := Scalar.abs ((tEnd - ta.time.1) - ta.time.2)
    if Scalar.eq remaining zero then .inl (ps, .timeLimit)
    else
      let limit := Scalar.min remaining maxDeltaT
      let tPrev := ta.time
      let (ta, report) := ta.stepCore limit forward
      let ps := { ps with ta := ta }
      if report.outcome == .nonFinite then .inl (ps, .nonFinite)
      else
        let ps := { ps with nSteps := ps.nSteps + 1, minH := Scalar.min ps.minH (Scalar.abs report.h),
                            maxH := Scalar.max ps.maxH (Scalar.abs report.h) }
        let reached := report.outcome == .timeLimit && Scalar.eq limit remaining
        let ps := if reached then { ps with ta := ps.ta.setTime tEnd } else ps
        let ps := { ps with dense := ps.dense.map fun d => ContinuousOutput.push d ps.ta.time.1 ps.ta.stepPolys }
        let ps := { ps with cursor := ps.cursor.map fun c => GridCursor.collect c ps.ta tPrev }
        .inr (ps, report, reached)

/-- The callback's part in a turn: nothing after a step that stops the propagation, and a run
of the callback after any other. -/
def callbackTurn (ps : PropagateState α) (report : StepReport α) : PropagateState α × Outcome Bool :=
  if report.stops then (ps, .ok true) else runCallback ps

/-- The second half of a turn: the callback's part, and whether the propagation ends (`.inl`,
with its result) or goes on (`.inr`). -/
def settle (ps : PropagateState α) (report : StepReport α) (reached : Bool) :
    (PropagateState α × Outcome StepOutcome) ⊕ PropagateState α :=
  let (ps, keep) := callbackTurn ps report
  match keep with
  | .error e => .inl (ps, .error e)
  | .ok false => .inl (ps, .ok .callbackStop)
  | .ok true =>
    match report.outcome with
    | .timeLimit => if reached then .inl (ps, .ok .timeLimit) else .inr ps
    | .terminalEvent i => if !report.resume then .inl (ps, .ok (.terminalEvent i)) else .inr ps
    | _ => .inr ps

/-- The steps of a propagation towards `tEnd`, at most `fuel` of them: every turn is
`advance`, then `settle`. -/
def propagateLoop (tEnd : α) (maxSteps : Option Nat) (maxDeltaT : α) (forward : Bool) :
    Nat → PropagateState α → PropagateState α × Outcome StepOutcome
  | 0, ps => (ps, .ok .stepLimit)
  | fuel + 1, ps =>
    match advance tEnd maxSteps maxDeltaT forward ps with
    | .inl (ps, o) => (ps, .ok o)
    | .inr (ps, report, reached) =>
      match settle ps report reached with
      | .inl r => r
      | .inr ps => propagateLoop tEnd maxSteps maxDeltaT forward fuel ps

/-- The largest step a propagation towards `tEnd` allows, or why its options are refused: the
final time must not be NaN, and the largest step must be positive. -/
def maxStepOf (tEnd : α) (opts : PropagateOptions α) : Outcome α :=
  if isNaN tEnd then .error (.invalid "the final time must not be NaN")
  else
    let maxDeltaT := opts.maxDeltaT.getD inf
    if !(Scalar.lt zero maxDeltaT) then
      .error (.invalid s!"the maximum step size must be positive, got {generalText maxDeltaT}")
    else .ok maxDeltaT

/-- The callback a propagation runs, and whether it is the integrator's own: the one given
with the propagation, or else the integrator's. -/
def effectiveCallback (ta : Integrator α) (opts : PropagateOptions α) : Callback × Bool :=
  match opts.callback with
  | some c => (c, false)
  | none => (ta.callback, true)

/-- The integrator a propagation runs on: it does not hold its own callback while the
propagation runs it. -/
def releaseCallback (ta : Integrator α) (opts : PropagateOptions α) : Integrator α :=
  if (effectiveCallback ta opts).2 then { ta with callback := none } else ta

/-- The state a propagation's loop starts from, after the callback's pre-hook, with the
pre-hook's result. -/
def propagateStart (ta : Integrator α) (opts : PropagateOptions α)
    (cursor : Option (GridCursor α)) : PropagateState α × Outcome Unit :=
  let cb := (effectiveCallback ta opts).1
  let ta := ta.releaseCallback opts
  let (ta, cb, pre) := match cb with
    | none => (ta, cb, Except.ok ())
    | some c =>
      let r := c.preHook ta
      (r.ta, some r.callback, r.result)
  ({ ta := ta, callback := cb, dense := if opts.continuous then some (.start ta.time.1) else none,
     minH := inf, maxH := zero, nSteps := 0, cursor := cursor }, pre)

/-- The end of a propagation whose loop ended at `ps` with `outcome`: the integrator, holding
its own callback again when the propagation ran it, and the result. -/
def propagateEnd (own : Bool) (ps : PropagateState α) (outcome : Outcome StepOutcome) :
    Integrator α × Outcome (PropagateResult α × Option (GridCursor α)) :=
  let ta := if own then { ps.ta with callback := ps.callback } else ps.ta
  match outcome with
  | .error e => (ta, .error e)
  | .ok o =>
    (ta, .ok ({ outcome := o, minH := ps.minH, maxH := ps.maxH, nSteps := ps.nSteps,
                continuous := ps.dense, handedBack := if own then none else some ps.callback },
              ps.cursor))

/-- A propagation towards `tEnd`, collecting grid states with `cursor` if given. -/
def propagateCore (ta : Integrator α) (tEnd : α) (opts : PropagateOptions α)
    (cursor : Option (GridCursor α)) :
    Integrator α × Outcome (PropagateResult α × Option (GridCursor α)) :=
  match maxStepOf tEnd opts with
  | .error e => (ta, .error e)
  | .ok maxDeltaT =>
    let (start, pre) := propagateStart ta opts cursor
    let forward := Scalar.le start.ta.time.1 tEnd
    let (ps, outcome) : PropagateState α × Outcome StepOutcome := match pre with
      | .error e => (start, .error e)
      | .ok () => propagateLoop tEnd opts.maxSteps maxDeltaT forward propagationStepBound start
    propagateEnd (effectiveCallback ta opts).2 ps outcome

/-- A propagation up to `tEnd`. -/
def propagateUntil (ta : Integrator α) (tEnd : α) (opts : PropagateOptions α) :
    Integrator α × Outcome (PropagateResult α) :=
  let (ta, r) := ta.propagateCore tEnd opts none
  (ta, r.map (·.1))

/-- A propagation over a time span `delta`, from the current time. -/
def propagateFor (ta : Integrator α) (delta : α) (opts : PropagateOptions α) :
    Integrator α × Outcome (PropagateResult α) :=
  ta.propagateUntil (ta.time.1 + (ta.time.2 + delta)) opts

/-- The final time of a propagation over a grid and the cursor that collects its states, or
why the grid is refused: it must be finite, strictly monotonic in the direction of
integration, and must not start behind the current time. -/
def gridStart (ta : Integrator α) (grid : List α) : Outcome (α × GridCursor α) :=
  match grid.getLast? with
  | none => .error (.invalid "the time grid is empty")
  | some tEnd =>
    if grid.any (fun t => !isFinite t) then
      .error (.invalid "the time grid contains non-finite values")
    else
      let t0 := ta.time.1
      let forward := Scalar.le t0 tEnd
      let pairs := grid.zip (grid.drop 1)
      let ordered := pairs.all fun (a, b) => if forward then Scalar.lt a b else Scalar.lt b a
      let first := grid.headD zero
      if !ordered then
        .error (.invalid "the time grid must be strictly monotonic in the direction of integration")
      else if (forward && Scalar.lt first t0) || (!forward && Scalar.lt t0 first) then
        .error (.invalid
          s!"the first grid point {generalText first} lies behind the current time {generalText t0}")
      else
        let atStart := (grid.takeWhile (Scalar.eq · t0)).length
        .ok (tEnd, { grid := grid.toArray, next := atStart, forward := forward,
                     states := Array.replicate atStart ta.state.toList })

/-- A propagation to the last point of a grid, with the state at every grid point reached. -/
def propagateGrid (ta : Integrator α) (grid : List α) (opts : PropagateOptions α) :
    Integrator α × Outcome (PropagateResult α × List (List α)) :=
  match gridStart ta grid with
  | .error e => (ta, .error e)
  | .ok (tEnd, cursor) =>
    let (ta, r) := ta.propagateCore tEnd opts (some cursor)
    (ta, r.map fun (res, c) => (res, (c.map (·.states.toList)).getD []))

end Integrator

end TaylorOde
