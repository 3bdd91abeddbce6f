import TaylorOde.Ir.Validate
/-!
# Running IR modules

The register machine runs the blocks of a module in order. A tape read outside the tape, or
of a parameter not supplied, gives NaN; a tape write outside the tape is dropped. Loop bodies
run once per row, the row's slots and literals in scope.
-/

namespace TaylorOde

namespace IrModule

variable {α : Type} [Scalar α]

/-- The entry a slot names: a fixed entry, or the slot of the row in scope. -/
def resolve (row : Option KernelRow) : Slot → Option Nat
  | .fixed i => some i
  | .row k => row.bind fun r => r.slots[k]?

/-- The tape cell of a slot at an order, the tape holding `n` entries per order. -/
def cell (n : Nat) (row : Option KernelRow) (s : Slot) (o : Nat) : Option Nat :=
  (resolve row s).map (o * n + ·)

/-- Runs one instruction on the registers defined so far and the tape: every instruction
defines the next register, and a store also writes the tape. -/
def exec (n : Nat) (row : Option KernelRow) (pars : Array α) (time : α)
    (acc : Array α × Array α) (ins : Instr) : Array α × Array α :=
  let regs := acc.1
  let tape := acc.2
  let reg (v : Nat) : α := regs[v]?.getD Scalar.nan
  match ins with
  | .loadConst c => (regs.push (Scalar.ofFloat c), tape)
  | .loadCoeff s o =>
    (regs.push (((cell n row s o).bind fun c => tape[c]?).getD Scalar.nan), tape)
  | .loadRowLiteral k =>
    (regs.push ((row.bind fun r => r.literals[k]?).map Scalar.ofFloat |>.getD Scalar.nan), tape)
  | .loadParam p => (regs.push (pars[p]?.getD Scalar.nan), tape)
  | .loadTime => (regs.push time, tape)
  | .unary f a => (regs.push (f.eval (reg a)), tape)
  | .binary f a b => (regs.push (f.eval (reg a) (reg b)), tape)
  | .storeCoeff s o v =>
    let tape := match cell n row s o with
      | some c => if c < tape.size then tape.set! c (reg v) else tape
      | none => tape
    -- a store defines no value; its register keeps a placeholder
    (regs.push Scalar.zero, tape)

/-- Runs one body over the tape, with fresh registers. -/
def runBody (n : Nat) (code : Array Instr) (row : Option KernelRow)
    (pars : Array α) (time : α) (tape : Array α) : Array α :=
  (code.foldl (exec n row pars time) (#[], tape)).2

/-- Runs a module over a tape (any length) with parameters and time. -/
def run (m : IrModule) (tape : Array α) (pars : Array α) (time : α) : Array α :=
  m.blocks.foldl (fun tape b =>
    match b with
    | .straight code => runBody m.nEntries code none pars time tape
    | .loop body rows =>
      rows.foldl (fun tape r => runBody m.nEntries body (some r) pars time tape) tape) tape

end IrModule

end TaylorOde
