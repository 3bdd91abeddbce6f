import TaylorOde.Ir.Basic
import TaylorOde.Recurrence
import TaylorOde.Decomposition.Basic
/-!
# Compiling decompositions to IR

`emit` lowers a decomposition of an ODE system into a module computing the Taylor
coefficients of orders `0 … order`. The first outputs of the decomposition are the
right-hand sides of the state variables, so the state coefficients follow from
`x_k^[n] = f_k^[n-1] / n`; parameters have order-0 coefficients `pars[p]` and zero above.

For each order one straight block holds the state and parameter coefficients and then, in
scalar mode, the coefficients of every function entry. In compact mode it holds the time
entry only, and loop blocks follow: the function entries of a level are grouped by operator,
literal pattern of the arguments and number of hidden dependencies, and each group becomes
one loop whose body is the recurrence over row slots. Within a block, equal constants are
loaded once.
-/

namespace TaylorOde

/-- What an argument of a recurrence reads: a tape entry, a literal, or a row literal. -/
inductive Operand where
  | coeff (slot : Slot)
  | literal (value : Float)
  | rowLiteral (k : Nat)

/-- The code of a block under construction, with the constants already loaded. -/
structure CodeBuilder where
  code : Array Instr := #[]
  consts : Std.HashMap UInt64 Nat := {}

namespace CodeBuilder

/-- Appends an instruction and returns the value it defines. The builder is consumed and
returned whole, so the append happens in place and a block of `k` instructions costs `O(k)`. -/
def push (i : Instr) : StateM CodeBuilder Nat :=
  modifyGet fun b => (b.code.size, { b with code := b.code.push i })

/-- A constant, loaded once per block. -/
def constant (v : Float) : StateM CodeBuilder Nat := do
  match (← get).consts.get? v.toBits with
  | some id => pure id
  | none =>
    let id ← push (.loadConst v)
    modify fun b => { b with consts := b.consts.insert v.toBits id }
    pure id

/-- The recurrence operations that emit instructions. -/
def ops : CoeffOps (StateM CodeBuilder) Nat Operand where
  load r k := match r with
    | .coeff s => push (.loadCoeff s k)
    | .literal v => constant v
    | .rowLiteral k => push (.loadRowLiteral k)
  isConstant r := match r with
    | .coeff _ => false
    | _ => true
  constant c := constant c.toFloat
  unary f a := push (.unary f a)
  binary f a c := push (.binary f a c)

/-- Stores a value into a slot at an order. -/
def store (s : Slot) (n v : Nat) : StateM CodeBuilder Unit := do
  let _ ← push (.storeCoeff s n v)

end CodeBuilder

/-- Where the value of an output lives: an entry or a literal. -/
inductive OutputRef where
  | entry (j : Nat)
  | number (v : Float)

namespace Decomposition

/-- Where each output lives. -/
def outputRefs (d : Decomposition) : List OutputRef :=
  d.outputs.map fun o =>
    match o.rhs.elemIndex?, o.rhs with
    | some j, _ => .entry j
    | none, .num x => .number x.value
    | none, _ => .number (0.0 / 0.0)

/-- The operand of an argument of a right-hand side. -/
def operand (a : Expr) : Operand :=
  match a.elemIndex?, a with
  | some j, _ => .coeff (.fixed j)
  | none, .num x => .literal x.value
  | none, _ => .literal (0.0 / 0.0)

/-- The state coefficients from the outputs of the previous order, and the parameters. -/
def emitPrefix (d : Decomposition) (outs : List OutputRef) (n : Nat) :
    StateM CodeBuilder Unit := do
  let b := CodeBuilder.ops
  if n > 0 then
    for (out, k) in (outs.take d.varNames.length).zipIdx do
      let v ← match out with
        | .entry j => do
          let prev ← b.load (.coeff (.fixed j)) (n - 1)
          let inv ← b.constant (.inv n)
          b.binary .mul inv prev
        | .number c => if n == 1 then CodeBuilder.constant c else b.constant (.nat 0)
      CodeBuilder.store (.fixed k) n v
  for (p, k) in d.params.zipIdx do
    let v ← if n == 0 then CodeBuilder.push (.loadParam p.toNat) else b.constant (.nat 0)
    CodeBuilder.store (.fixed (d.varNames.length + k)) n v

/-- The order-`n` coefficient of one function entry. -/
def emitEntry (d : Decomposition) (i n : Nat) : Outcome (StateM CodeBuilder Unit) := do
  let e := d.entry i
  match e.rhs with
  | .time =>
    return do
      let v ← match n with
        | 0 => CodeBuilder.push .loadTime
        | 1 => CodeBuilder.constant 1.0
        | _ => CodeBuilder.constant 0.0
      CodeBuilder.store (.fixed i) n v
  | .func _ op args _ =>
    let hidden := e.hidden.map fun h => Operand.coeff (.fixed h)
    let c ← coefficient CodeBuilder.ops op (.coeff (.fixed i)) (args.map operand) hidden n
    return do
      let v ← c
      CodeBuilder.store (.fixed i) n v
  | other => throw (.invalid s!"entry {i} ('{other.display}') cannot be lowered")

/-- The shape shared by the rows of one kernel. -/
structure KernelClass where
  op : Op
  literalArgs : List Bool
  nHidden : Nat
  deriving Inhabited

/-- The order of kernel groups: level, operator, literal pattern, hidden count. -/
def groupLe (a b : Nat × KernelClass) : Bool :=
  let boolList (x y : List Bool) : Ordering :=
    compareOfLessAndEq (x.map fun v => if v then 1 else 0) (y.map fun v => if v then 1 else 0)
  let c := (compare a.1 b.1).then <| (compare a.2.op.index b.2.op.index).then <|
    (boolList a.2.literalArgs b.2.literalArgs).then (compare a.2.nHidden b.2.nHidden)
  c != .gt

/-- Same key for grouping. -/
def groupKeyEq (a b : Nat × KernelClass) : Bool :=
  a.1 == b.1 && a.2.op == b.2.op && a.2.literalArgs == b.2.literalArgs && a.2.nHidden == b.2.nHidden

/-- The loop blocks of order `n` in compact mode. -/
def emitKernels (d : Decomposition) (levels : Array Nat) (n : Nat) : Outcome (List Block) := do
  let members := d.functions.filterMap fun i =>
    match (d.entry i).rhs with
    | .func _ op args _ =>
      let cls : KernelClass :=
        { op := op, literalArgs := args.map (·.elemIndex?.isNone), nHidden := (d.entry i).hidden.length }
      some ((levels[i]?.getD 0, cls), i)
    | _ => none
  -- group by key in key order, keeping entry order inside a group
  let sorted := members.mergeSort fun a b => groupLe a.1 b.1
  let groups := sorted.splitBy fun a b => groupKeyEq a.1 b.1
  groups.mapM fun group => do
    let ((_, cls), _) := group.head!
    let nSlots := 1 + (cls.literalArgs.filter (!·)).length + cls.nHidden
    if nSlots > 255 || cls.literalArgs.length > 255 then
      throw (.invalid s!"operator '{cls.op.name}' with {cls.literalArgs.length} arguments exceeds the compact kernel width")
    let (args, nextSlot, _) := cls.literalArgs.foldl (fun (acc, s, l) lit =>
      if lit then (acc.push (Operand.rowLiteral l), s, l + 1)
      else (acc.push (Operand.coeff (.row s)), s + 1, l)) (#[], 1, 0)
    let hidden := (List.range cls.nHidden).map fun k => Operand.coeff (.row (nextSlot + k))
    let c ← coefficient CodeBuilder.ops cls.op (.coeff (.row 0)) args.toList hidden n
    let body := (do let v ← c; CodeBuilder.store (.row 0) n v).run {} |>.2.code
    let rows := group.map fun (_, i) =>
      let e := d.entry i
      let (slots, lits) := e.rhs.args.foldl (fun (s, l) a =>
        match a.elemIndex?, a with
        | some j, _ => (s ++ [j], l)
        | none, .num x => (s, l ++ [x.value])
        | none, _ => (s, l ++ [0.0 / 0.0])) ([i], [])
      ({ slots := slots ++ e.hidden, literals := lits } : KernelRow)
    pure (Block.loop body rows)

/-- Compiles the decomposition of an ODE system into IR for a scalar format, computing the
coefficients of orders `0 … order`. -/
def emit (d : Decomposition) (kind : FloatKind) (order : Nat) (compact : Bool) :
    Outcome IrModule := do
  let nState := d.varNames.length
  if d.nOutputs < nState then
    throw (.invalid s!"a decomposition with {nState} variables needs at least as many outputs, got {d.nOutputs}")
  for i in d.functions do
    if let some op := (d.entry i).op? then
      if !op.supportedBy kind then
        throw (.unsupported s!"the operator '{op.name}' is not available for {kind.name} scalars")
  let outs := d.outputRefs
  let levels := d.levels
  let timeEntry := d.functions.find? fun i => match (d.entry i).rhs with | .time => true | _ => false
  let mut blocks : Array Block := #[]
  for n in List.range (order + 1) do
    let entries := if compact then timeEntry.toList else d.functions
    let steps ← entries.mapM fun i => d.emitEntry i n
    let code := (do
      d.emitPrefix outs n
      for s in steps do s).run {} |>.2.code
    blocks := blocks.push (.straight code)
    if compact then
      blocks := blocks ++ (← d.emitKernels levels n).toArray
  -- the parameter count is the largest index plus one, a 32-bit sum that must not overflow
  if d.params.any fun p => p.toNat + 1 = UInt32.size then
    throw (.panic "attempt to add with overflow")
  return { order := order, nEntries := d.functionsEnd
           nParams := d.params.foldl (fun m p => Nat.max m (p.toNat + 1)) 0
           compact := compact, blocks := blocks.toList }

end Decomposition

end TaylorOde
