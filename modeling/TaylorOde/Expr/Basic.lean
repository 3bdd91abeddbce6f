import TaylorOde.Expr.Op
import TaylorOde.Hash.Sip
/-!
# Expressions

An expression is a literal, a parameter `p[i]`, a named variable, the time `t`, or an
operator applied to argument expressions. Function nodes carry two further fields:

* a `NodeTag`, the identity of the node. Several algorithms treat two occurrences of the
  same node once (reverse-mode gradients, archives, the entry table of a decomposition), so
  identity is part of an expression's meaning beside its structure. Nodes built from
  distinct construction steps get distinct tags; a node built inside an algorithm from a
  tagged node gets a tag derived from it, so the same input node always leads to the same
  output node. Untagged (`anon`) nodes are identified by their structure.
* the node's structural hash, computed once when the node is built (`Expr.node`).

The structural hash is SipHash-1-3 under the key `(0, 0)` of a short message per node,
and it takes part in the canonical order `Expr.cmp` used to sort the arguments of sums and
products.
-/

namespace TaylorOde

/-- A numeric literal: a binary64 value, never NaN, with the format it is meant in. Two
literals are equal when their values have the same bits, whatever their formats. -/
structure Literal where
  bits : UInt64
  kind : FloatKind
  deriving Repr, Inhabited, DecidableEq

namespace Literal

/-- The literal's value. -/
def value (n : Literal) : Float := Float.ofBits n.bits

/-- Builds a literal of a format; a binary32 literal is rounded to binary32. Fails on NaN. -/
def ofKind (value : Float) (kind : FloatKind) : Outcome Literal :=
  if value.isNaN then .error (.invalid "NaN cannot be used as a numeric literal")
  else
    let v := if kind == .binary32 then Float.roundToBinary32 value else value
    .ok ⟨v.toBits, kind⟩

/-- The literal of a format, or nothing for NaN. -/
def fold? (value : Float) (kind : FloatKind) : Option Literal :=
  match ofKind value kind with
  | .ok n => some n
  | .error _ => none

/-- A binary64 literal of a value that is not NaN. -/
def ofFloat (value : Float) : Literal := ⟨value.toBits, .binary64⟩

/-- Whether the value is a zero of either sign. -/
def isZero (n : Literal) : Bool := n.value == 0.0

/-- Whether the value is one. -/
def isOne (n : Literal) : Bool := n.value == 1.0

/-- Equality of values bit for bit. -/
def same (a b : Literal) : Bool := a.bits == b.bits

end Literal

/-- The identity of a function node. -/
inductive NodeTag where
  /-- identified by structure alone -/
  | anon
  /-- the node with this derivation path -/
  | path (steps : List Nat)
  deriving Repr, Inhabited, DecidableEq, BEq, Hashable

namespace NodeTag

/-- The tag of the `i`-th node derived from this one; derived from `anon` is `anon`. -/
def child (t : NodeTag) (i : Nat) : NodeTag :=
  match t with
  | .anon => .anon
  | .path p => .path (p ++ [i])

end NodeTag

/-- Expressions. -/
inductive Expr where
  | num (n : Literal)
  | param (index : UInt32)
  | var (name : String)
  | time
  /-- an operator node: identity, operator, arguments and cached structural hash -/
  | func (tag : NodeTag) (op : Op) (args : List Expr) (hash : UInt64)
  deriving Repr, Inhabited

namespace Expr

/-- The structural hash of an expression; function nodes return the cached hash. -/
def hash : Expr → UInt64
  | .num n => Sip.hash13 (Sip.appendLE (ByteArray.empty.push 0) n.bits 8)
  | .param i => Sip.hash13 (Sip.appendLE (ByteArray.empty.push 1) i.toUInt64 4)
  | .var v => Sip.hash13 ((ByteArray.empty.push 2) ++ v.toUTF8)
  | .time => Sip.hash13 (ByteArray.empty.push 3)
  | .func _ _ _ h => h

/-- The structural hash of an operator node over arguments: the operator's position, the
number of arguments as a 64-bit word, and each argument's hash. -/
def nodeHash (op : Op) (args : List Expr) : UInt64 :=
  let msg := Sip.appendLE (ByteArray.empty.push op.index.toUInt8) args.length.toUInt64 8
  Sip.hash13 (args.foldl (fun b a => Sip.appendLE b a.hash 8) msg)

/-- The function node of an operator over arguments, with its hash. No argument count is
checked and no rule is applied. -/
def node (tag : NodeTag) (op : Op) (args : List Expr) : Expr :=
  .func tag op args (nodeHash op args)

/-- A binary64 literal expression. -/
def lit (x : Float) : Expr := .num (Literal.ofFloat x)

/-- The literal zero. -/
def zero : Expr := lit 0.0

/-- The literal one. -/
def one : Expr := lit 1.0

/-- The literal of the expression, if it is one. -/
def literal? : Expr → Option Literal
  | .num n => some n
  | _ => none

/-- Whether the expression is the literal zero (of either sign). -/
def isZero : Expr → Bool
  | .num n => n.isZero
  | _ => false

/-- Whether the expression is the literal one. -/
def isOne : Expr → Bool
  | .num n => n.isOne
  | _ => false

/-- Whether the expression is the literal with this value. -/
def isValue (x : Float) : Expr → Bool
  | .num n => n.value == x
  | _ => false

/-- Whether the expression is a function node of the operator. -/
def isOp (op : Op) : Expr → Bool
  | .func _ o _ _ => o == op
  | _ => false

/-- The arguments of a function node; none for an atom. -/
def args : Expr → List Expr
  | .func _ _ a _ => a
  | _ => []

/-- The number of nodes of the expression as a tree: atoms count one, function nodes one
more than their arguments. Shared subexpressions count once per occurrence. -/
def treeSize : Expr → Nat
  | .func _ _ args _ => 1 + (args.map treeSize).foldr (· + ·) 0
  | _ => 1

/-- Whether the expression is a function node. -/
def isFunc : Expr → Bool
  | .func .. => true
  | _ => false

/-- Structural equality: equal literals (bit for bit), parameters, variables and time, and
function nodes of equal hash, operator and arguments. Identity is not compared. -/
def beq : Expr → Expr → Bool
  | .num a, .num b => a.same b
  | .param a, .param b => a == b
  | .var a, .var b => a == b
  | .time, .time => true
  | .func _ o1 a1 h1, .func _ o2 a2 h2 =>
    h1 == h2 && o1 == o2 && a1.length == a2.length && beqArgs a1 a2
  | _, _ => false
where
  /-- Pairwise structural equality of argument lists. -/
  beqArgs : List Expr → List Expr → Bool
    | a :: as, b :: bs => beq a b && beqArgs as bs
    | [], [] => true
    | _, _ => false

instance : BEq Expr := ⟨beq⟩

/-- The rank of an expression's kind in the canonical order: literals, parameters, time,
variables, function nodes. -/
def rank : Expr → Nat
  | .num _ => 0
  | .param _ => 1
  | .time => 2
  | .var _ => 3
  | .func .. => 4

/-- The total order of binary64 values by bits: negative values below positive ones,
negative zero below zero, NaNs at the ends. -/
def totalKey (x : UInt64) : UInt64 :=
  if x >>> 63 == 1 then ~~~x else x ||| 0x8000000000000000

/-- The canonical order of expressions, which sorts the arguments of sums and products.
Literals compare by value in the total order, parameters by index, variables by name, and
function nodes by operator, then number of arguments, then structural hash, then arguments
from the left. Expressions of different kinds compare by `rank`. -/
def cmp : Expr → Expr → Ordering
  | .num a, .num b => compare (totalKey a.bits) (totalKey b.bits)
  | .param a, .param b => compare a b
  | .var a, .var b => compare a b
  | .time, .time => .eq
  | .func _ o1 a1 h1, .func _ o2 a2 h2 =>
    (compare o1.index o2.index).then <|
      (compare a1.length a2.length).then <| (compare h1 h2).then (cmpArgs a1 a2)
  | a, b => compare a.rank b.rank
where
  /-- Lexicographic comparison of argument lists up to the shorter one. -/
  cmpArgs : List Expr → List Expr → Ordering
    | a :: as, b :: bs =>
      match cmp a b with
      | .eq => cmpArgs as bs
      | o => o
    | _, _ => .eq

end Expr

end TaylorOde
