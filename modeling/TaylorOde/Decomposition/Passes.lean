import TaylorOde.Decomposition.Basic
/-!
# Passes over decompositions

Every pass keeps the prefix in place and the outputs last, and rewrites the references of
right-hand sides and hidden dependencies through a table from old to new positions.

* `cse` keeps the first of every group of structurally equal function entries (after
  their references are renamed) and points the others' users at it.
* `dce` removes the function entries that no output reaches through references and hidden
  dependencies.
* `reorder` sorts the function entries by level, and within a level by operator rank and
  renamed argument list, keeping the earlier entry first among equal keys.
-/

namespace TaylorOde

namespace Decomposition

/-- Renames the elementary variables of a right-hand side through `remap`. -/
def remapRhs (remap : Array Nat) : Expr → Expr
  | .func _ op args _ =>
    Expr.node .anon op (args.map fun a =>
      match a.elemIndex? with
      | some j => Expr.elem (remap[j]?.getD 0)
      | none => a)
  | other =>
    match other.elemIndex? with
    | some j => Expr.elem (remap[j]?.getD 0)
    | none => other

/-- The state of `cse` after a run of entries: the new position of each entry, the entries
kept, and the position of each right-hand side kept. -/
abbrev CseState := Array Nat × Array Entry × Std.HashMap NodeKey Nat

/-- `cse` at entry `i`: a prefix entry stays; an output is renamed and kept; a function entry
is renamed and then merged into the kept entry of the same right-hand side, or kept as the
first of its kind. -/
def cseStep (d : Decomposition) (acc : CseState) (i : Nat) : CseState :=
  let (remap, out, seen) := acc
  let e := d.entry i
  if i < d.nPrefix then (remap.set! i i, out.push e, seen)
  else
    let rhs := remapRhs remap e.rhs
    if d.functionsEnd ≤ i then (remap.set! i out.size, out.push { rhs := rhs }, seen)
    else
      match seen.get? (.shape rhs) with
      | some k => (remap.set! i k, out, seen)
      | none => (remap.set! i out.size, out.push { rhs := rhs, hidden := e.hidden },
          seen.insert (.shape rhs) out.size)

/-- Merges structurally equal function entries into the first of them. -/
def cse (d : Decomposition) : Decomposition :=
  let n := d.size
  let (remap, out, _) := (List.range n).foldl d.cseStep (Array.replicate n 0, #[], {})
  let out := out.mapIdx fun k e =>
    if k < d.nPrefix then e else { e with hidden := e.hidden.map fun h => remap[h]?.getD 0 }
  { d with entries := out }

/-- The entries reachable from the outputs, the prefix always included. -/
def liveSet (d : Decomposition) : Array Bool :=
  let n := d.size
  let np := d.nPrefix
  let live := (Array.replicate n false).mapIdx fun i _ => decide (i < np)
  let outs := (List.range n).drop d.functionsEnd
  let live := outs.foldl (fun l i => l.set! i true) live
  let stack := outs.flatMap fun i => (d.entry i).refs
  -- every entry is expanded at most once, so the pushes are bounded by this total
  let pushes := d.entries.foldl (fun s e => s + e.refs.length + e.hidden.length) 0
  go live stack (stack.length + pushes + 1)
where
  /-- Marks entries live from a work stack. -/
  go (live : Array Bool) : List Nat → Nat → Array Bool
    | [], _ => live
    | _, 0 => live
    | j :: stack, fuel + 1 =>
      if live[j]?.getD true then go live stack fuel
      else
        let e := d.entry j
        go (live.set! j true) ((e.hidden.reverse ++ e.refs.reverse) ++ stack) fuel

/-- One entry of `liveRemap`: a live entry takes the next position. -/
def liveRemapStep (acc : Array Nat × Nat) (alive : Bool) : Array Nat × Nat :=
  if alive then (acc.1.push acc.2, acc.2 + 1) else (acc.1.push 0, acc.2)

/-- The new position of every entry once the dead ones are gone: the number of live entries
before it, and zero for a dead entry. -/
def liveRemap (live : Array Bool) : Array Nat := (live.foldl liveRemapStep (#[], 0)).1

/-- Removes the function entries no output depends on. -/
def dce (d : Decomposition) : Decomposition :=
  let live := d.liveSet
  let np := d.nPrefix
  let remap := liveRemap live
  let kept := (List.range d.size).filter fun i => live[i]?.getD false
  let entries := kept.toArray.map fun i =>
    let e := d.entry i
    if i < np then e
    else { rhs := remapRhs remap e.rhs, hidden := e.hidden.map fun h => remap[h]?.getD 0 }
  { d with entries := entries }

/-- The key of one argument in the order of `reorder`: references before literals, references
by position, literals by bits. -/
inductive ArgKey where
  | ref (j : Nat)
  | number (bits : UInt64)
  deriving BEq

/-- The order of argument keys. -/
def ArgKey.cmp : ArgKey → ArgKey → Ordering
  | .ref a, .ref b => compare a b
  | .number a, .number b => compare a b
  | .ref _, .number _ => .lt
  | .number _, .ref _ => .gt

/-- Lexicographic order of argument key lists, a proper prefix first. -/
def ArgKey.cmpList : List ArgKey → List ArgKey → Ordering
  | [], [] => .eq
  | [], _ :: _ => .lt
  | _ :: _, [] => .gt
  | a :: as, b :: bs =>
    match a.cmp b with
    | .eq => cmpList as bs
    | o => o

/-- The largest position, standing for an argument that is neither a reference nor a literal. -/
def noRef : Nat := Nat.pow 2 64 - 1

/-- The sort key of a function entry within its level: its operator rank, then its arguments
with references renamed through `remap`. -/
def reorderKey (d : Decomposition) (remap : Array Nat) (i : Nat) : Nat × List ArgKey :=
  let e := d.entry i
  let rank := match e.op? with | some op => op.index + 1 | none => 0
  let args := match e.rhs with
    | .func _ _ args _ => args.map fun a =>
      match a.elemIndex?, a with
      | some j, _ => ArgKey.ref (remap[j]?.getD 0)
      | none, .num x => ArgKey.number x.bits
      | none, _ => ArgKey.ref noRef
    | _ => []
  (rank, args)

/-- The order of keyed entries within a level. -/
def reorderLe (a b : (Nat × List ArgKey) × Nat) : Bool :=
  a.1.1 < b.1.1 || (a.1.1 == b.1.1 && ArgKey.cmpList a.1.2 b.1.2 != .gt)

/-- Appends an entry to the order, recording its new position. -/
def place (acc : Array Nat × Array Nat) (i : Nat) : Array Nat × Array Nat :=
  (acc.1.set! i acc.2.size, acc.2.push i)

/-- Appends the function entries of one level, sorted by key. -/
def reorderLevel (d : Decomposition) (levels : Array Nat) (acc : Array Nat × Array Nat)
    (level : Nat) : Array Nat × Array Nat :=
  let members := d.functions.filter fun i => levels[i]?.getD 0 == level
  let keyed := (members.map fun i => (d.reorderKey acc.1 i, i)).mergeSort reorderLe
  (keyed.map Prod.snd).foldl place acc

/-- Groups the function entries by level, and within a level by operator rank and argument
keys. -/
def reorder (d : Decomposition) : Decomposition :=
  let n := d.size
  let np := d.nPrefix
  let levels := d.levels
  let maxLevel := d.functions.foldl (fun m i => Nat.max m (levels[i]?.getD 0)) 0
  let start := ((Array.range n), (Array.range np))
  let acc := (List.range (maxLevel + 1)).foldl (d.reorderLevel levels) start
  let (remap, order) := ((List.range n).drop d.functionsEnd).foldl place acc
  let entries := order.map fun old =>
    let e := d.entry old
    if old < np then e
    else { rhs := remapRhs remap e.rhs, hidden := e.hidden.map fun h => remap[h]?.getD 0 }
  { d with entries := entries }

end Decomposition

end TaylorOde
