import TaylorOde.Integrator.Basic
import TaylorOde.Expr.Archive
/-!
# Archives of integrators

An integrator is archived field by field in the binary archive format: the system, the
variational system if any, the state, the time, the parameters, the tolerance, the order,
the settings, the decomposition, the IR, the tape, the events, the cooldowns, the last step
and its non-terminal triggers, and the step callback in its archived form. Event triggers are
not archived: an event read back reports to no journal and lets no propagation carry on.

Reading an archive checks that the IR is well formed, that the tape fits the IR and that
every terminal event has a cooldown slot, and loads the callback. `reload` archives an
integrator and reads it back, from the whole archive or from its first half; the journal and
the probe readings, which are observations and not state, are kept.
-/

namespace TaylorOde

namespace Archive

/-- Appends a natural number as a 64-bit word. -/
def pushNat (out : ByteArray) (n : Nat) : ByteArray := pushU64 out n

/-- Appends a scalar by its encoding. -/
def pushScalar {α : Type} [Scalar α] (out : ByteArray) (x : α) : ByteArray :=
  pushWord out (Scalar.bits x) (Scalar.byteWidth (α := α))

/-- Reads a scalar. -/
def readScalar {α : Type} [Scalar α] : Reader α := do
  return Scalar.ofBits (← readWord (Scalar.byteWidth (α := α)))

/-- Appends a pair of scalars. -/
def pushPair {α : Type} [Scalar α] (out : ByteArray) (p : α × α) : ByteArray :=
  pushScalar (pushScalar out p.1) p.2

/-- Reads a pair of scalars. -/
def readPair {α : Type} [Scalar α] : Reader (α × α) := do
  let a ← readScalar
  let b ← readScalar
  return (a, b)

end Archive

open Archive

namespace OdeSystem

/-- Appends the archive of a system: its equations. -/
def write (out : ByteArray) (s : OdeSystem) : ByteArray :=
  pushSeq out (s.state.zip s.rhs) fun o (v, f) => Expr.writeArchive (pushString o v) f

/-- Reads a system. -/
def read : Reader OdeSystem := do
  let eqs ← readSeq do
    let v ← readString
    let f ← Expr.readArchive (.path [3])
    return (v, f)
  return ⟨eqs.map (·.1), eqs.map (·.2)⟩

end OdeSystem

namespace VarSystem

/-- Appends a variational argument. -/
def writeArg (out : ByteArray) : VarArg → ByteArray
  | .var v => pushString (pushU32 out 0) v
  | .param i => pushU32 (pushU32 out 1) i
  | .time => pushU32 out 2

/-- Reads a variational argument. -/
def readArg : Reader VarArg := do
  match ← readVariant 3 with
  | 0 => return .var (← readString)
  | 1 => return .param (← readU32)
  | _ => return .time

/-- Appends the archive of a variational system. -/
def write (out : ByteArray) (v : VarSystem) : ByteArray :=
  let out := OdeSystem.write out v.system
  let out := pushNat out v.nOrig
  let out := pushSeq out v.args writeArg
  let out := pushU32 out v.order
  let out := pushSeq out v.mindices fun o (k, m) => pushSeq (pushNat o k) m pushU32
  pushSeq out v.ics Expr.writeArchive

/-- Reads a variational system. -/
def read : Reader VarSystem := do
  let system ← OdeSystem.read
  let nOrig ← readU64
  let args ← readSeq readArg
  let order ← readU32
  let mindices ← readSeq do
    let k ← readU64
    let m ← readSeq readU32
    return (k, m)
  let ics ← readSeq (Expr.readArchive (.path [4]))
  return { system, nOrig, args, order, mindices, ics }

end VarSystem

namespace TaylorConfig

/-- Appends the archive of the settings. -/
def write (out : ByteArray) (c : TaylorConfig) : ByteArray :=
  let out := pushOption out c.tol pushF64
  let out := pushOption out c.order pushU32
  let out := pushBool (pushBool out c.compactMode) c.highAccuracy
  pushNat (pushF64 out c.safetyFactor) c.sumSplit

/-- Reads the settings. -/
def read : Reader TaylorConfig := do
  let tol ← readOption readF64
  let order ← readOption readU32
  let compactMode ← readBool
  let highAccuracy ← readBool
  let safetyFactor ← readF64
  let sumSplit ← readU64
  return { tol, order, compactMode, highAccuracy, safetyFactor, sumSplit }

end TaylorConfig

namespace Decomposition

/-- Appends the archive of a decomposition. -/
def write (out : ByteArray) (d : Decomposition) : ByteArray :=
  let out := pushSeq out d.entries.toList fun o e => pushSeq (Expr.writeArchive o e.rhs) e.hidden pushNat
  let out := pushSeq out d.varNames pushString
  let out := pushSeq out d.params fun o p => pushU32 o p.toNat
  pushNat out d.nOutputs

/-- Reads a decomposition. -/
def read : Reader Decomposition := do
  let entries ← readSeq do
    let rhs ← Expr.readArchive (.path [5])
    let hidden ← readSeq readU64
    return ({ rhs, hidden } : Entry)
  let varNames ← readSeq readString
  let params ← readSeq readU32
  let nOutputs ← readU64
  return { entries := entries.toArray, varNames, params := params.map (·.toUInt32), nOutputs }

end Decomposition

namespace IrModule

/-- Appends a slot. -/
def writeSlot (out : ByteArray) : Slot → ByteArray
  | .fixed i => pushNat (pushU32 out 0) i
  | .row k => pushNat (pushU32 out 1) k

/-- Reads a slot. -/
def readSlot : Reader Slot := do
  match ← readVariant 2 with
  | 0 => return .fixed (← readU64)
  | _ => return .row (← readU64)

/-- Appends an instruction. -/
def writeInstr (out : ByteArray) : Instr → ByteArray
  | .loadConst v => pushF64 (pushU32 out 0) v
  | .loadCoeff s o => pushNat (writeSlot (pushU32 out 1) s) o
  | .loadRowLiteral k => pushNat (pushU32 out 2) k
  | .loadParam p => pushNat (pushU32 out 3) p
  | .loadTime => pushU32 out 4
  | .unary f a => pushNat (pushU32 (pushU32 out 5) (UnaryFn.all.idxOf f)) a
  | .binary f a b => pushNat (pushNat (pushU32 (pushU32 out 6) (BinaryFn.all.idxOf f)) a) b
  | .storeCoeff s o v => pushNat (pushNat (writeSlot (pushU32 out 7) s) o) v

/-- Reads an instruction. -/
def readInstr : Reader Instr := do
  match ← readVariant 8 with
  | 0 => return .loadConst (← readF64)
  | 1 =>
    let s ← readSlot
    return .loadCoeff s (← readU64)
  | 2 => return .loadRowLiteral (← readU64)
  | 3 => return .loadParam (← readU64)
  | 4 => return .loadTime
  | 5 =>
    let f := UnaryFn.all.getD (← readVariant UnaryFn.all.length) .neg
    return .unary f (← readU64)
  | 6 =>
    let f := BinaryFn.all.getD (← readVariant BinaryFn.all.length) .add
    let a ← readU64
    return .binary f a (← readU64)
  | _ =>
    let s ← readSlot
    let o ← readU64
    return .storeCoeff s o (← readU64)

/-- Appends a kernel row. -/
def writeRow (out : ByteArray) (r : KernelRow) : ByteArray :=
  pushSeq (pushSeq out r.slots pushNat) r.literals pushF64

/-- Reads a kernel row. -/
def readRow : Reader KernelRow := do
  let slots ← readSeq readU64
  let literals ← readSeq readF64
  return { slots, literals }

/-- Appends a block. -/
def writeBlock (out : ByteArray) : Block → ByteArray
  | .straight code => pushSeq (pushU32 out 0) code.toList writeInstr
  | .loop body rows => pushSeq (pushSeq (pushU32 out 1) body.toList writeInstr) rows writeRow

/-- Reads a block. -/
def readBlock : Reader Block := do
  match ← readVariant 2 with
  | 0 => return .straight (← readSeq readInstr).toArray
  | _ =>
    let body ← readSeq readInstr
    return .loop body.toArray (← readSeq readRow)

/-- Appends the archive of a module. -/
def write (out : ByteArray) (m : IrModule) : ByteArray :=
  let out := pushU32 (pushU32 (pushU32 out m.order) m.nEntries) m.nParams
  pushSeq (pushBool out m.compact) m.blocks writeBlock

/-- Reads a module. -/
def read : Reader IrModule := do
  let order ← readU32
  let nEntries ← readU32
  let nParams ← readU32
  let compact ← readBool
  let blocks ← readSeq readBlock
  return { order, nEntries, nParams, compact, blocks }

end IrModule

namespace EventDirection

/-- Appends a direction. -/
def write (out : ByteArray) (d : EventDirection) : ByteArray :=
  pushU32 out (match d with | .any => 0 | .positive => 1 | .negative => 2)

/-- Reads a direction. -/
def read : Reader EventDirection := do
  match ← readVariant 3 with
  | 0 => return .any
  | 1 => return .positive
  | _ => return .negative

end EventDirection

/-- The archived form of an event: its function, direction and cooldown. -/
structure EventRecord (α : Type) where
  expr : Expr
  direction : EventDirection
  cooldown : Option α

namespace EventRecord

variable {α : Type} [Scalar α]

/-- Appends an event record. -/
def write (out : ByteArray) (e : EventRecord α) : ByteArray :=
  pushOption (EventDirection.write (Expr.writeArchive out e.expr) e.direction) e.cooldown
    pushScalar

/-- Reads an event record. -/
def read : Reader (EventRecord α) := do
  let expr ← Expr.readArchive (.path [6])
  let direction ← EventDirection.read
  let cooldown ← readOption readScalar
  return { expr, direction, cooldown }

end EventRecord

namespace Integrator

variable {α : Type} [Scalar α]

/-- The archive of an integrator; fails when the step callback has no archived form. -/
def toArchive (ta : Integrator α) : Outcome ByteArray := do
  let cb ← match ta.callback with
    | some c => some <$> c.toData
    | none => pure none
  let out := OdeSystem.write ByteArray.empty ta.system
  let out := pushOption out ta.variational VarSystem.write
  let out := pushSeq out ta.state.toList pushScalar
  let out := pushPair out ta.time
  let out := pushSeq out ta.pars.toList pushScalar
  let out := pushScalar out ta.tol
  let out := pushU32 out ta.order
  let out := TaylorConfig.write out ta.config
  let out := Decomposition.write out ta.dc
  let out := IrModule.write out ta.ir
  let out := pushSeq out ta.tape.toList pushScalar
  let out := pushSeq out ta.terminal.toList fun o e =>
    EventRecord.write o ({ expr := e.expr, direction := e.direction, cooldown := e.cooldown } : EventRecord α)
  let out := pushSeq out ta.nonTerminal.toList fun o e =>
    EventRecord.write o ({ expr := e.expr, direction := e.direction, cooldown := none } : EventRecord α)
  let out := pushSeq out ta.cooldowns.toList fun o c => pushOption o c pushPair
  let out := pushScalar out ta.lastH
  let out := pushSeq out ta.lastHits fun o h =>
    EventDirection.write (pushScalar (pushNat o h.index) h.time) h.direction
  return pushOption out cb StepCallback.pushData

/-- The fields of an archived integrator. -/
structure Record (α : Type) where
  system : OdeSystem
  variational : Option VarSystem
  state : List α
  time : α × α
  pars : List α
  tol : α
  order : Nat
  config : TaylorConfig
  dc : Decomposition
  ir : IrModule
  tape : List α
  terminal : List (EventRecord α)
  nonTerminal : List (EventRecord α)
  cooldowns : List (Option (α × α))
  lastH : α
  lastHits : List (EventHit α)
  callback : Option CallbackData

/-- Reads the fields of an archived integrator. -/
def readRecord : Reader (Record α) := do
  let system ← OdeSystem.read
  let variational ← readOption VarSystem.read
  let state ← readSeq readScalar
  let time ← readPair
  let pars ← readSeq readScalar
  let tol ← readScalar
  let order ← readU32
  let config ← TaylorConfig.read
  let dc ← Decomposition.read
  let ir ← IrModule.read
  let tape ← readSeq readScalar
  let terminal ← readSeq EventRecord.read
  let nonTerminal ← readSeq EventRecord.read
  let cooldowns ← readSeq (readOption readPair)
  let lastH ← readScalar
  let lastHits ← readSeq do
    let index ← readU64
    let time ← readScalar
    let direction ← EventDirection.read
    return ({ index, time, direction } : EventHit α)
  let callback ← readOption StepCallback.readData
  return { system, variational, state, time, pars, tol, order, config, dc, ir, tape, terminal,
           nonTerminal, cooldowns, lastH, lastHits, callback }

/-- The integrator of an archive; callbacks are loaded with the countdown tags given. -/
def ofArchive (countdownTags : List String) (bytes : ByteArray) : Outcome (Integrator α) := do
  let r ← match (readRecord (α := α)).run' bytes with
    | .ok r => pure r
    | .error e => throw (Error.serialization e.text)
  match r.ir.validate with
  | .ok () => pure ()
  | .error e => throw (Error.serialization e.text)
  if r.tape.length != r.ir.tapeLen || r.cooldowns.length != r.terminal.length then
    throw (Error.serialization "inconsistent integrator archive")
  let callback ← match r.callback with
    | some d => some <$> StepCallback.ofData countdownTags (Scalar.kind (α := α)).name d
    | none => pure none
  return {
    system := r.system, variational := r.variational, state := r.state.toArray, time := r.time,
    pars := r.pars.toArray, tol := r.tol, order := r.order, config := r.config, dc := r.dc,
    outputs := r.dc.outputRefs.toArray, ir := r.ir, tape := r.tape.toArray,
    terminal := (r.terminal.map fun e =>
      ({ expr := e.expr, direction := e.direction, cooldown := e.cooldown } : TerminalEvent α)).toArray,
    nonTerminal := (r.nonTerminal.map fun e =>
      ({ expr := e.expr, direction := e.direction } : NonTerminalEvent)).toArray,
    cooldowns := r.cooldowns.toArray, lastH := r.lastH, lastHits := r.lastHits,
    callback := callback, journal := #[], readings := #[] }

/-- Archives the integrator and reads it back, from the whole archive or, when `truncate`, from
its first half; the journal and the probe readings are kept. -/
def reload (ta : Integrator α) (countdownTags : List String) (truncate : Bool) :
    Outcome (Integrator α) := do
  let bytes ← ta.toArchive
  let bytes := if truncate then bytes.extract 0 (bytes.size / 2) else bytes
  let back ← ofArchive countdownTags bytes
  return { back with journal := ta.journal, readings := ta.readings }

end Integrator

end TaylorOde
