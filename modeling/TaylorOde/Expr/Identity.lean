import TaylorOde.Expr.Basic
import Std.Data.HashMap
/-!
# Node identity

Algorithms that visit every distinct node once key their tables by `NodeKey`: a tagged
function node by its tag, and every other expression by its structure. Two occurrences are
the same node (`Expr.sameNode`) when their keys are equal.
-/

namespace TaylorOde

/-- The key of an expression in tables of visited nodes. -/
inductive NodeKey where
  | tagged (steps : List Nat)
  | shape (e : Expr)

namespace NodeKey

instance : BEq NodeKey where
  beq
    | .tagged a, .tagged b => a == b
    | .shape a, .shape b => a == b
    | _, _ => false

instance : Hashable NodeKey where
  hash
    | .tagged a => hash a
    | .shape e => e.hash

end NodeKey

namespace Expr

/-- The identity key of an expression. -/
def key : Expr → NodeKey
  | .func (.path p) _ _ _ => .tagged p
  | e => .shape e

/-- Whether two expressions are the same node: the same tagged function node, or
structurally equal otherwise. -/
def sameNode (a b : Expr) : Bool := a.key == b.key

/-- Whether two argument lists are the same nodes position by position. -/
def sameNodes : List Expr → List Expr → Bool
  | a :: as, b :: bs => a.sameNode b && sameNodes as bs
  | [], [] => true
  | _, _ => false

/-- The tag of a function node (`anon` for atoms). -/
def tag : Expr → NodeTag
  | .func t _ _ _ => t
  | _ => .anon

end Expr

/-- Tables keyed by node identity. -/
abbrev NodeMap (α : Type) := Std.HashMap NodeKey α

end TaylorOde
