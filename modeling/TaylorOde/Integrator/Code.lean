import TaylorOde.Integrator.Basic
/-!
# The code of the callbacks

A step callback that is not one of the instruments is a closure, or a callback type of its own,
over the integrator: each call gets the whole integrator and may run any of its public operations
on it, steps and propagations included, keeping a state of its own from call to call. An event
callback likewise runs on the integrator, with the crossing it reacts to. The integrator holds
such a callback by its place in the code the program is linked with; `CallbackCode` is that
code. Every definition that runs callbacks takes it as an instance, so what is proved of them
holds whatever the closures do.

`StepCallback.preHook` and `StepCallback.call` run a callback on the integrator: an instrument on
the integrator's scope, a set member after member, each on the integrator the member before it
left and stopping at the first failure, and a closure through the code.
-/

namespace TaylorOde

/-- The closures that callbacks refer to, by their place in the code. -/
class CallbackCode (α : Type) where
  /-- the pre-hook of step-callback closure `id` holding `memo`: the integrator after it, what
  the closure holds then, and the result -/
  preHook : Nat → Nat → Integrator α → Integrator α × Nat × Outcome Unit
  /-- a call of step-callback closure `id` holding `memo` after a step; `true` lets the
  propagation go on -/
  call : Nat → Nat → Integrator α → Integrator α × Nat × Outcome Bool
  /-- terminal-event closure `id` at a crossing in the given direction; `true` lets a
  propagation carry on past it -/
  terminal : Nat → Integrator α → EventDirection → Integrator α × Bool
  /-- non-terminal-event closure `id` at a crossing at the given time and direction -/
  nonTerminal : Nat → Integrator α → α → EventDirection → Integrator α

/-- The code of a program that links no closures of its own: a step-callback closure keeps the
integrator, answers and lets a propagation go on, and an event closure keeps the integrator and
does not let a propagation carry on past its event. -/
instance (priority := low) CallbackCode.inert {α : Type} : CallbackCode α where
  preHook _ memo ta := (ta, memo, .ok ())
  call _ memo ta := (ta, memo, .ok true)
  terminal _ ta _ := (ta, false)
  nonTerminal _ ta _ _ := ta

/-- The result of running a step callback: the value or the failure, with the callback and the
integrator as they are after the run, also after a failure. -/
structure CallbackRun (α β : Type) where
  result : Outcome β
  callback : StepCallback
  ta : Integrator α

namespace StepCallback

variable {α : Type} [Scalar α] [CallbackCode α]

mutual

/-- Runs the pre-hook on the integrator. -/
def preHook (c : StepCallback) (ta : Integrator α) : CallbackRun α Unit :=
  match c with
  | .set members =>
    let (r, members, ta) := preHookAll members ta
    ⟨r, .set members, ta⟩
  | .closure id memo =>
    let (ta, memo, r) := CallbackCode.preHook id memo ta
    ⟨r, .closure id memo, ta⟩
  | c =>
    let (r, c, s) := c.instrumentPreHook ta.scope
    ⟨r, c, ta.withScope s⟩

/-- Runs the pre-hooks of the members of a set in order, stopping at the first failure. -/
def preHookAll (cs : List StepCallback) (ta : Integrator α) :
    Outcome Unit × List StepCallback × Integrator α :=
  match cs with
  | [] => (.ok (), [], ta)
  | c :: rest =>
    let r := preHook c ta
    match r.result with
    | .error e => (.error e, r.callback :: rest, r.ta)
    | .ok () =>
      let (res, rest, ta) := preHookAll rest r.ta
      (res, r.callback :: rest, ta)

end

mutual

/-- Runs the callback on the integrator after a step; `true` lets the propagation go on. -/
def call (c : StepCallback) (ta : Integrator α) : CallbackRun α Bool :=
  match c with
  | .set members =>
    let (r, members, ta) := callAll members true ta
    ⟨r, .set members, ta⟩
  | .closure id memo =>
    let (ta, memo, r) := CallbackCode.call id memo ta
    ⟨r, .closure id memo, ta⟩
  | c =>
    let (r, c, s) := c.instrumentCall ta.scope
    ⟨r, c, ta.withScope s⟩

/-- Runs the members of a set in order, each at every step; the set lets the propagation go
on when every member does. A failure ends the run at once. -/
def callAll (cs : List StepCallback) (keep : Bool) (ta : Integrator α) :
    Outcome Bool × List StepCallback × Integrator α :=
  match cs with
  | [] => (.ok keep, [], ta)
  | c :: rest =>
    let r := call c ta
    match r.result with
    | .error e => (.error e, r.callback :: rest, r.ta)
    | .ok k =>
      let (res, rest, ta) := callAll rest (keep && k) r.ta
      (res, r.callback :: rest, ta)

end

end StepCallback

end TaylorOde
