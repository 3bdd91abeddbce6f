import TaylorOde.Expr.Archive
import TaylorOde.Json.Reader
/-!
# Reading the JSON form of expression archives

The JSON form of an archive is an object with the one field `nodes`, the nodes in post-order.
A node is `"Time"`, or an object whose one key names its kind: `{"Number": {"value": x,
"kind": k}}`, `{"Param": i}`, `{"Variable": name}` or `{"Func": {"op": name, "args": [i,
...]}}`, where `k` names a floating-point format and the arguments refer to earlier nodes by
position. A record may also be written as the sequence of its fields in order, unknown fields
are skipped, and `"Time"` may also be written `{"Time": null}`.

The expression is rebuilt as from the binary form. An error of the text is reported with its
position; an error of the rebuilding by its message alone.
-/

namespace TaylorOde

open Json Json.Read

namespace ArchiveNode

/-- The names of the node kinds. -/
def variantNames : List String := ["Number", "Param", "Variable", "Time", "Func"]

/-- The floating-point formats, in archive order. -/
def kinds : List FloatKind := (List.range 5).filterMap FloatKind.ofIndex?

/-- Reads the name of a floating-point format. -/
def readKindJson : Read FloatKind :=
  variant (kinds.map FloatKind.archiveName) fun i braced => do
    unitContent braced
    pure (kinds.getD i .binary64)

/-- Reads an operator name. -/
def readOpJson : Read Op :=
  variant (Op.all.map Op.name) fun i braced => do
    unitContent braced
    pure (Op.all.getD i .sum)

/-- Reads a literal: its value and its format; the value must not be NaN. -/
def readLiteralJson : Read Literal := do
  let fields : Fields (Option Float × Option FloatKind) := {
    names := ["value", "kind"]
    present := fun i acc => if i == 0 then acc.1.isSome else acc.2.isSome
    field := fun i acc =>
      if i == 0 then do pure (some (← float), acc.2) else do pure (acc.1, some (← readKindJson)) }
  let (value, kind) ← record "struct NumberRepr" fields (none, none) fun
    | (some v, some k) => .ok (v, k)
    | (none, _) => .error (missingField "value")
    | (_, none) => .error (missingField "kind")
  match Literal.ofKind value kind with
  | .ok n => pure n
  | .error e => raise e.text

/-- Reads a function node: its operator and the positions of its arguments. -/
def readFuncJson : Read ArchiveNode := do
  let fields : Fields (Option Op × Option (List Nat)) := {
    names := ["op", "args"]
    present := fun i acc => if i == 0 then acc.1.isSome else acc.2.isSome
    field := fun i acc =>
      if i == 0 then do pure (some (← readOpJson), acc.2) else do pure (acc.1, some (← seqOf word32)) }
  record "struct variant NodeData::Func" fields (none, none) fun
    | (some op, some args) => .ok (.func op args)
    | (none, _) => .error (missingField "op")
    | (_, none) => .error (missingField "args")

/-- Reads a node. -/
def readJson : Read ArchiveNode :=
  variant variantNames fun i braced =>
    match i with
    | 0 => newtypeContent braced (.number <$> readLiteralJson)
    | 1 => newtypeContent braced ((fun n => ArchiveNode.param n.toUInt32) <$> word32)
    | 2 => newtypeContent braced (.var <$> Read.text)
    | 3 => do
      unitContent braced
      pure .time
    | _ => structContent braced readFuncJson

/-- Reads the nodes of an archive. -/
def readAllJson : Read (List ArchiveNode) :=
  let fields : Fields (Option (List ArchiveNode)) := {
    names := ["nodes"]
    present := fun _ acc => acc.isSome
    field := fun _ _ => some <$> seqOf readJson }
  record "struct ExpressionData" fields none fun
    | some nodes => .ok nodes
    | none => .error (missingField "nodes")

end ArchiveNode

namespace Expr

/-- The expression of the JSON form of an archive, its function nodes tagged under `t`. -/
def ofArchiveJson (t : NodeTag) (source : String) : Except ReadError Expr :=
  Read.run (do
    match ofArchiveNodes t (← ArchiveNode.readAllJson) with
    | .ok e => pure e
    | .error err => raise err.text) source

end Expr

end TaylorOde
