import TaylorOde.Expr.Op
/-!
# Coefficient IR

A module of the coefficient IR describes a function of `(tape, pars, time)`: it reads the
parameters, the time and the order-0 state coefficients from the tape, and writes every other
coefficient of orders `0 … order`. The tape is laid out by order: the coefficient of entry `i`
at order `n` sits at `n * nEntries + i`.

A module is a list of blocks. A straight block runs once; a loop block runs its body once per
row, in row order, a row naming the tape entries (`Slot.row k` is the row's `k`-th slot) and
literals it works on. Each body is in SSA form: every instruction except a store defines one
value, named by its position, and operands refer to earlier values only.
-/

namespace TaylorOde

/-- One-argument operations; all but `neg` are calls of a mathematics routine. -/
inductive UnaryFn where
  | neg | sqrt | exp | log | sin | cos | tan | asin | acos | atan | sinh | cosh | tanh
  deriving Repr, BEq, DecidableEq, Inhabited

/-- Two-argument operations; `pow`, `atan2` and `kepler` are calls. -/
inductive BinaryFn where
  | add | sub | mul | div | pow | atan2 | kepler
  deriving Repr, BEq, DecidableEq, Inhabited

namespace UnaryFn

/-- All one-argument operations, in their fixed order. -/
def all : List UnaryFn :=
  [.neg, .sqrt, .exp, .log, .sin, .cos, .tan, .asin, .acos, .atan, .sinh, .cosh, .tanh]

/-- The routine name. -/
def name : UnaryFn → String
  | .neg => "neg" | .sqrt => "sqrt" | .exp => "exp" | .log => "log" | .sin => "sin"
  | .cos => "cos" | .tan => "tan" | .asin => "asin" | .acos => "acos" | .atan => "atan"
  | .sinh => "sinh" | .cosh => "cosh" | .tanh => "tanh"

/-- The variant name, capitalised. -/
def tag : UnaryFn → String
  | .neg => "Neg" | .sqrt => "Sqrt" | .exp => "Exp" | .log => "Log" | .sin => "Sin"
  | .cos => "Cos" | .tan => "Tan" | .asin => "Asin" | .acos => "Acos" | .atan => "Atan"
  | .sinh => "Sinh" | .cosh => "Cosh" | .tanh => "Tanh"

/-- The operation of a capitalised variant name. -/
def ofTag? (s : String) : Option UnaryFn := all.find? (·.tag == s)

/-- Whether the operation is a call. -/
def isCall (f : UnaryFn) : Bool := f != .neg

/-- The value of the operation. -/
def eval {α : Type} [Scalar α] (f : UnaryFn) (a : α) : α :=
  match f with
  | .neg => -a
  | .sqrt => Scalar.sqrt a
  | .exp => Scalar.exp a
  | .log => Scalar.log a
  | .sin => Scalar.sin a
  | .cos => Scalar.cos a
  | .tan => Scalar.tan a
  | .asin => Scalar.asin a
  | .acos => Scalar.acos a
  | .atan => Scalar.atan a
  | .sinh => Scalar.sinh a
  | .cosh => Scalar.cosh a
  | .tanh => Scalar.tanh a

/-- The operation computing a one-argument operator, if it has one. -/
def ofOp? : Op → Option UnaryFn
  | .neg => some .neg | .sqrt => some .sqrt | .exp => some .exp | .log => some .log
  | .sin => some .sin | .cos => some .cos | .tan => some .tan | .asin => some .asin
  | .acos => some .acos | .atan => some .atan | .sinh => some .sinh | .cosh => some .cosh
  | .tanh => some .tanh
  | _ => none

end UnaryFn

namespace BinaryFn

/-- All two-argument operations, in their fixed order. -/
def all : List BinaryFn := [.add, .sub, .mul, .div, .pow, .atan2, .kepler]

/-- The routine or instruction name. -/
def name : BinaryFn → String
  | .add => "fadd" | .sub => "fsub" | .mul => "fmul" | .div => "fdiv" | .pow => "pow"
  | .atan2 => "atan2" | .kepler => "kepE"

/-- The variant name, capitalised. -/
def tag : BinaryFn → String
  | .add => "Add" | .sub => "Sub" | .mul => "Mul" | .div => "Div" | .pow => "Pow"
  | .atan2 => "Atan2" | .kepler => "Kepler"

/-- The operation of a capitalised variant name. -/
def ofTag? (s : String) : Option BinaryFn := all.find? (·.tag == s)

/-- Whether the operation is a call. -/
def isCall (f : BinaryFn) : Bool := f == .pow || f == .atan2 || f == .kepler

/-- The value of the operation. -/
def eval {α : Type} [Scalar α] (f : BinaryFn) (a b : α) : α :=
  match f with
  | .add => a + b
  | .sub => a - b
  | .mul => a * b
  | .div => a / b
  | .pow => Scalar.pow a b
  | .atan2 => Scalar.atan2 a b
  | .kepler => Scalar.solveKepler a b

end BinaryFn

/-- A tape entry addressed by an instruction: a fixed entry, or the `k`-th slot of the row a
loop body is processing. -/
inductive Slot where
  | fixed (i : Nat)
  | row (k : Nat)
  deriving Repr, BEq, Inhabited

/-- Instructions of the IR. -/
inductive Instr where
  | loadConst (value : Float)
  | loadCoeff (slot : Slot) (order : Nat)
  | loadRowLiteral (k : Nat)
  | loadParam (p : Nat)
  | loadTime
  | unary (f : UnaryFn) (a : Nat)
  | binary (f : BinaryFn) (a b : Nat)
  | storeCoeff (slot : Slot) (order : Nat) (value : Nat)
  deriving Repr, Inhabited

/-- The entries and literals of one loop iteration. -/
structure KernelRow where
  slots : List Nat
  literals : List Float
  deriving Repr, Inhabited

/-- A block: straight code, or a body looped over rows. -/
inductive Block where
  | straight (code : Array Instr)
  | loop (body : Array Instr) (rows : List KernelRow)
  deriving Repr, Inhabited

/-- A module of the IR. -/
structure IrModule where
  order : Nat
  nEntries : Nat
  nParams : Nat
  compact : Bool
  blocks : List Block
  deriving Repr, Inhabited

namespace Block

/-- The instructions of the block. -/
def code : Block → Array Instr
  | .straight c => c
  | .loop b _ => b

/-- The rows of the block; none for straight code. -/
def rows : Block → List KernelRow
  | .straight _ => []
  | .loop _ r => r

/-- Whether the block is a loop. -/
def isLoop : Block → Bool
  | .straight _ => false
  | .loop _ _ => true

end Block

namespace IrModule

/-- The number of tape cells: every entry at every order. -/
def tapeLen (m : IrModule) : Nat := m.nEntries * (m.order + 1)

/-- The number of instructions over all blocks. -/
def nInstructions (m : IrModule) : Nat := m.blocks.foldl (fun s b => s + b.code.size) 0

end IrModule

end TaylorOde
