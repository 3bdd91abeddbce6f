import TaylorOde.Ir.Text
/-!
# Well-formed IR modules

A module is well formed when, in every block, every operand names an earlier instruction
that is not a store, parameters are below `nParams`, orders are at most the module's order,
fixed slots are below `nEntries`, and row slots and row literals occur in loops only and
exist, below `nEntries`, in every row. `validate` reports the first instruction that breaks
a rule.
-/

namespace TaylorOde

namespace IrModule

/-- Whether a slot is valid in a block. -/
def slotOk (m : IrModule) (b : Block) : Slot → Bool
  | .fixed i => i < m.nEntries
  | .row k => b.isLoop && b.rows.all fun r => match r.slots[k]? with
      | some i => i < m.nEntries
      | none => false

/-- Whether an operand names an earlier instruction that defines a value. -/
def definedAt (code : Array Instr) (i v : Nat) : Bool :=
  v < i && match code[v]? with
    | some (.storeCoeff ..) => false
    | _ => true

/-- Whether the `i`-th instruction of a block is well formed. -/
def instrOk (m : IrModule) (b : Block) (i : Nat) : Instr → Bool
  | .loadConst _ | .loadTime => true
  | .loadParam p => p < m.nParams
  | .loadRowLiteral k => b.isLoop && b.rows.all fun r => k < r.literals.length
  | .loadCoeff s o => o ≤ m.order && m.slotOk b s
  | .unary _ a => definedAt b.code i a
  | .binary _ a c => definedAt b.code i a && definedAt b.code i c
  | .storeCoeff s o v => o ≤ m.order && m.slotOk b s && definedAt b.code i v

/-- Checks every instruction of every block. -/
def validate (m : IrModule) : Outcome Unit :=
  let bad := m.blocks.zipIdx.findSome? fun (b, bi) =>
    b.code.toList.zipIdx.findSome? fun (ins, i) =>
      if m.instrOk b i ins then none
      else some s!"instruction {i} of block {bi}: {ins.describe}"
  match bad with
  | some msg => .error (.invalid s!"malformed IR: {msg}")
  | none => .ok ()

end IrModule

end TaylorOde
