import TaylorOde.Archive.Binary
import TaylorOde.Scalar
import TaylorOde.Error
import TaylorOde.Expr.Display
/-!
# Step callbacks

A step callback runs after every step of a propagation and may stop it by returning `false`.
Its pre-hook runs once, before the first step. A callback may change the state of the
integrator but not its time; the propagation checks that.

The callbacks are:

* `angleReducer`: wraps the listed state variables into `[0, 2π)` after every step; its
  pre-hook finds their positions in the state;
* `set`: runs its members in order, every member at every step, and asks to stop when any
  member does; a failing member ends the step at once;
* `countdown`: counts down from `left` and asks to stop when the count reaches zero; it is
  archived under a tag registered for countdowns;
* `probe`: an instrument that counts its calls and pre-hook runs in the readings table, and
  can fail, stop, scale the state or move the time at given calls;
* `closure`: any other callback, a closure or a callback type of its own, named by its place in
  the callback code and holding the state it keeps between calls. It runs on the whole
  integrator and may do there whatever the integrator's public operations do, steps and
  propagations included.

The instruments see only a scope of the integrator: its state, time, state variables and
readings. Sets and closures run on the integrator itself (`Integrator.Code`).

Callbacks are archived as a tag and a payload. Probes and closures have no archived form.
-/

namespace TaylorOde

/-- What a probe does beside counting. -/
structure ProbeSpec where
  /-- the probe's entry in the readings table -/
  id : Nat
  /-- the call after which the probe asks to stop -/
  stopAfter : Option Nat := none
  /-- the call at which the probe fails -/
  errorAfter : Option Nat := none
  /-- whether the pre-hook fails -/
  preError : Bool := false
  /-- whether every call moves the time on by one -/
  bumpTime : Bool := false
  /-- a factor every call applies to the state -/
  scaleState : Option Float := none
  deriving Inhabited

/-- A step callback. -/
inductive StepCallback where
  | angleReducer (vars : List String) (indices : List Nat)
  | set (members : List StepCallback)
  | countdown (tag : String) (left : Nat)
  | probe (spec : ProbeSpec)
  | closure (id : Nat) (memo : Nat)
  deriving Inhabited

/-- The archived form of a callback: a tag and a payload. -/
structure CallbackData where
  tag : String
  payload : ByteArray

namespace StepCallback

/-- The tag of a callback set. -/
def setTag : String := "jet.callback_set"

/-- The tag of an angle reducer. -/
def angleReducerTag : String := "jet.angle_reducer"

/-- An angle reducer over variables; fails on an expression that is not a variable and on an
empty list. -/
def angleReducerOf (vars : List Expr) : Outcome StepCallback := do
  let names ← vars.mapM fun e => match e with
    | .var v => pure v
    | other => throw (.invalid s!"the angle reducer expects variables, got '{other.display}'")
  if names.isEmpty then throw (.invalid "the angle reducer needs at least one variable")
  return .angleReducer names []

/-- The archive tag of a callback; none for probes and closures. -/
def tag? : StepCallback → Option String
  | .angleReducer .. => some angleReducerTag
  | .set _ => some setTag
  | .countdown t _ => some t
  | .probe _ => none
  | .closure .. => none

/-- Appends an archived callback. -/
def pushData (out : ByteArray) (d : CallbackData) : ByteArray :=
  Archive.pushBytes (Archive.pushString out d.tag) d.payload

mutual

/-- The archived form of a callback; a probe or a closure, alone or inside a set, has none. -/
def toData : StepCallback → Outcome CallbackData
  | .angleReducer vars _ =>
    .ok ⟨angleReducerTag, Archive.pushSeq ByteArray.empty vars Archive.pushString⟩
  | .set members => do
    let parts ← toDataList members
    return ⟨setTag, Archive.pushSeq ByteArray.empty parts pushData⟩
  | .countdown t left => .ok ⟨t, Archive.pushU32 ByteArray.empty left⟩
  | .probe _ => .error (Error.serialization "the step callback has no serialization tag")
  | .closure .. => .error (Error.serialization "the step callback has no serialization tag")

/-- The archived forms of the members of a set, in order. -/
def toDataList : List StepCallback → Outcome (List CallbackData)
  | [] => .ok []
  | c :: rest => do
    let d ← toData c
    return d :: (← toDataList rest)

end

/-- Reads an archived callback. -/
def readData : Archive.Reader CallbackData := do
  let tag ← Archive.readString
  let payload ← Archive.readBytes
  return ⟨tag, payload⟩

/-- Reads a payload, a read failure becoming a serialization error. -/
def readPayload {β : Type} (r : Archive.Reader β) (payload : ByteArray) : Outcome β :=
  match r.run' payload with
  | .ok v => .ok v
  | .error e => .error (Error.serialization e.text)

/-- The callback of an archived form. `countdownTags` are the tags registered for
countdowns, `kindName` names the scalar type in the failure for an unknown tag. Nested sets
have shorter payloads, which bounds the recursion by `fuel`. -/
def ofDataWith (countdownTags : List String) (kindName : String) :
    Nat → CallbackData → Outcome StepCallback
  | 0, _ => .error (Error.serialization "callback archive nested too deep")
  | fuel + 1, d =>
    if d.tag == setTag then do
      let parts ← readPayload (Archive.readSeq readData) d.payload
      let members ← parts.mapM (ofDataWith countdownTags kindName fuel)
      return .set members
    else if d.tag == angleReducerTag then do
      let names ← readPayload (Archive.readSeq Archive.readString) d.payload
      if names.any (·.isEmpty) then
        throw (Error.serialization "invalid input: variable names cannot be empty")
      return .angleReducer names []
    else if countdownTags.contains d.tag then do
      let left ← readPayload Archive.readU32 d.payload
      return .countdown d.tag left
    else
      .error (Error.serialization
        s!"no step callback is registered under the tag '{d.tag}' for {kindName}")

/-- The callback of an archived form. -/
def ofData (countdownTags : List String) (kindName : String) (d : CallbackData) :
    Outcome StepCallback :=
  ofDataWith countdownTags kindName (d.payload.size + 1) d

end StepCallback

/-- What a callback sees of the integrator: the state, the time, the state variables, and
the readings of the probes (calls and pre-hook runs). -/
structure CallbackScope (α : Type) where
  state : Array α
  time : α × α
  stateVars : List String
  readings : Array (Nat × Nat)

namespace CallbackScope

variable {α : Type}

/-- Changes the reading of a probe, the table growing as needed. -/
def updateReading (s : CallbackScope α) (id : Nat) (f : Nat × Nat → Nat × Nat) :
    CallbackScope α :=
  let rs := if id < s.readings.size then s.readings
    else s.readings ++ Array.replicate (id + 1 - s.readings.size) (0, 0)
  { s with readings := rs.modify id f }

/-- The reading of a probe. -/
def reading (s : CallbackScope α) (id : Nat) : Nat × Nat := s.readings.getD id (0, 0)

end CallbackScope

namespace StepCallback

variable {α : Type} [Scalar α]

open Scalar

/-- An angle wrapped into `[0, 2π)`; a result that rounds outside is zero. -/
def reduceAngle (x : α) : α :=
  let tau := ofFloat 6.283185307179586
  let r := x - tau * floor (x / tau)
  if Scalar.le tau r || Scalar.lt r zero then zero else r

/-- The pre-hook of an instrument, on its scope: an angle reducer finds its variables, a probe
counts the run and may fail; a countdown does nothing. -/
def instrumentPreHook (c : StepCallback) (s : CallbackScope α) :
    Outcome Unit × StepCallback × CallbackScope α :=
  match c with
  | .angleReducer vars _ =>
    let found : Outcome (List Nat) := vars.mapM fun v =>
      match s.stateVars.idxOf? v with
      | some i => .ok i
      | none => .error (Error.callback s!"the angle reducer variable '{v}' is not a state variable")
    match found with
    | .ok indices => (.ok (), .angleReducer vars indices, s)
    | .error e => (.error e, c, s)
  | .probe p =>
    let s := s.updateReading p.id fun (calls, pre) => (calls, pre + 1)
    if p.preError then (.error (Error.callback s!"probe {p.id} pre-hook failed"), c, s)
    else (.ok (), c, s)
  | c => (.ok (), c, s)

/-- The call of an instrument after a step, on its scope; `true` lets the propagation go on. -/
def instrumentCall (c : StepCallback) (s : CallbackScope α) :
    Outcome Bool × StepCallback × CallbackScope α :=
  match c with
  | .angleReducer vars indices =>
    let state := indices.foldl (fun st i => st.modify i reduceAngle) s.state
    (.ok true, .angleReducer vars indices, { s with state := state })
  | .countdown t left =>
    let left := left - 1
    (.ok (decide (left > 0)), .countdown t left, s)
  | .probe p =>
    let s := s.updateReading p.id fun (calls, pre) => (calls + 1, pre)
    let n := (s.reading p.id).1
    if p.errorAfter == some n then
      (.error (Error.callback s!"probe {p.id} failed at call {n}"), c, s)
    else
      let s := match p.scaleState with
        | some f => { s with state := s.state.map (· * ofFloat f) }
        | none => s
      let s := if p.bumpTime then { s with time := (s.time.1 + one, zero) } else s
      (.ok (p.stopAfter != some n), c, s)
  | c => (.ok true, c, s)

end StepCallback

end TaylorOde
