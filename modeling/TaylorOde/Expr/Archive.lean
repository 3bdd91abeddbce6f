import TaylorOde.Expr.Identity
import TaylorOde.Expr.Canonical
import TaylorOde.Archive.Binary
import TaylorOde.Archive.JsonText
/-!
# Archives of expressions

An expression is archived as a flat list of nodes in post-order: a function node refers to
its arguments by their positions in the list, and a node that occurs several times is written
once, at its first completion. Atoms are written at every occurrence.

Reading an archive rebuilds the nodes in order: an argument must refer to an earlier node,
every function node must have an arity its operator accepts, and the last node is the
expression. Nodes referred to several times become one node.
-/

namespace TaylorOde

/-- One node of an archived expression. -/
inductive ArchiveNode where
  | number (n : Literal)
  | param (i : UInt32)
  | var (name : String)
  | time
  | func (op : Op) (args : List Nat)
  deriving Inhabited

namespace FloatKind

/-- The position of a format among the formats. -/
def index : FloatKind → Nat
  | .binary32 => 0
  | .binary64 => 1
  | .binary80 => 2
  | .binary128 => 3
  | .arbitrary => 4

/-- The format at a position. -/
def ofIndex? : Nat → Option FloatKind
  | 0 => some .binary32
  | 1 => some .binary64
  | 2 => some .binary80
  | 3 => some .binary128
  | 4 => some .arbitrary
  | _ => none

/-- The format's name in archives. -/
def archiveName : FloatKind → String
  | .binary32 => "Binary32"
  | .binary64 => "Binary64"
  | .binary80 => "Binary80"
  | .binary128 => "Binary128"
  | .arbitrary => "Arbitrary"

end FloatKind

namespace Expr

/-- The post-order walk that writes nodes: a function node already written is referred to
by its position. -/
def flattenFrom (acc : NodeMap Nat × Array ArchiveNode) (e : Expr) :
    (NodeMap Nat × Array ArchiveNode) × Nat :=
  match e with
  | .func _ op args _ =>
    match acc.1.get? e.key with
    | some pos => (acc, pos)
    | none =>
      let (acc, refs) := flattenArgs acc args
      let pos := acc.2.size
      ((acc.1.insert e.key pos, acc.2.push (.func op refs)), pos)
  | .num n => ((acc.1, acc.2.push (.number n)), acc.2.size)
  | .param i => ((acc.1, acc.2.push (.param i)), acc.2.size)
  | .var v => ((acc.1, acc.2.push (.var v)), acc.2.size)
  | .time => ((acc.1, acc.2.push .time), acc.2.size)
where
  /-- Writes the arguments from the left, collecting their positions. -/
  flattenArgs (acc : NodeMap Nat × Array ArchiveNode) : List Expr →
      (NodeMap Nat × Array ArchiveNode) × List Nat
    | [] => (acc, [])
    | a :: rest =>
      let (acc, p) := flattenFrom acc a
      let (acc, ps) := flattenArgs acc rest
      (acc, p :: ps)

/-- The archive nodes of an expression. -/
def archiveNodes (e : Expr) : List ArchiveNode := (flattenFrom ({}, #[]) e).1.2.toList

/-- Rebuilds an expression from archive nodes; the `i`-th function node is tagged under
`t` with `i`. -/
def ofArchiveNodes (t : NodeTag) (nodes : List ArchiveNode) : Outcome Expr := do
  let mut built : Array Expr := #[]
  for node in nodes do
    let e ← match node with
      | .number n => pure (Expr.num n)
      | .param i => pure (.param i)
      | .var v => pure (.var v)
      | .time => pure .time
      | .func op refs => do
        let args ← refs.mapM fun i => match built[i]? with
          | some a => pure a
          | none => throw (Error.serialization s!"expression node refers to unknown node {i}")
        op.checkArity args.length
        pure (Expr.node (t.child built.size) op args)
    built := built.push e
  match built.back? with
  | some e => return e
  | none => throw (Error.serialization "empty expression archive")

end Expr

namespace ArchiveNode

/-- Appends the binary form of a node. -/
def write (out : ByteArray) : ArchiveNode → ByteArray
  | .number n => Archive.pushU32 (Archive.pushF64 (Archive.pushU32 out 0) n.value) n.kind.index
  | .param i => Archive.pushU32 (Archive.pushU32 out 1) i.toNat
  | .var v => Archive.pushString (Archive.pushU32 out 2) v
  | .time => Archive.pushU32 out 3
  | .func op args =>
    Archive.pushSeq (Archive.pushU32 (Archive.pushU32 out 4) op.index) args Archive.pushU32

/-- Reads a node; a literal that is NaN fails. -/
def read : Archive.Reader ArchiveNode := do
  match ← Archive.readVariant 5 with
  | 0 =>
    let value ← Archive.readF64
    let kind := (FloatKind.ofIndex? (← Archive.readVariant 5)).getD .binary64
    match Literal.ofKind value kind with
    | .ok n => return .number n
    | .error e => throw (.invalid e.text)
  | 1 => return .param (← Archive.readU32).toUInt32
  | 2 => return .var (← Archive.readString)
  | 3 => return .time
  | _ =>
    let op := (Op.ofIndex? (← Archive.readVariant Op.all.length)).getD .sum
    return .func op (← Archive.readSeq Archive.readU32)

/-- The JSON text of a node. -/
def json : ArchiveNode → String
  | .number n => JsonText.object [("Number", JsonText.object
      [("value", JsonText.number n.value), ("kind", JsonText.quoted n.kind.archiveName)])]
  | .param i => JsonText.object [("Param", toString i.toNat)]
  | .var v => JsonText.object [("Variable", JsonText.quoted v)]
  | .time => JsonText.quoted "Time"
  | .func op args => JsonText.object [("Func", JsonText.object
      [("op", JsonText.quoted op.name), ("args", JsonText.array (args.map toString))])]

end ArchiveNode

namespace Expr

/-- Appends the binary archive of an expression. -/
def writeArchive (out : ByteArray) (e : Expr) : ByteArray :=
  Archive.pushSeq out e.archiveNodes ArchiveNode.write

/-- The binary archive of an expression. -/
def toArchive (e : Expr) : ByteArray := writeArchive ByteArray.empty e

/-- The JSON text of the archive of an expression. -/
def archiveJson (e : Expr) : String :=
  JsonText.object [("nodes", JsonText.array (e.archiveNodes.map ArchiveNode.json))]

/-- Reads an archived expression, its function nodes tagged under `t`. -/
def readArchive (t : NodeTag) : Archive.Reader Expr := do
  let nodes ← Archive.readSeq ArchiveNode.read
  match ofArchiveNodes t nodes with
  | .ok e => return e
  | .error err => throw (.invalid err.text)

/-- The expression of a binary archive. -/
def ofArchive (t : NodeTag) (bytes : ByteArray) : Outcome Expr :=
  match (readArchive t).run' bytes with
  | .ok e => .ok e
  | .error err => .error (Error.serialization err.text)

end Expr

end TaylorOde
