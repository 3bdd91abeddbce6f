import TaylorOde.Expr.Display
import TaylorOde.Expr.Variable
import TaylorOde.Expr.Identity
/-!
# Taylor decompositions

A Taylor decomposition lowers expressions into a table of elementary assignments
`u_i = op(args)`, laid out as

* a prefix: the variables (in order) and then the parameters, each as itself;
* function entries, each an operator over literals and `u_j` with `j < i`, or the time;
* one output entry per decomposed expression: a `u_j` or a literal.

An entry may also list hidden dependencies: other function entries whose coefficients the
entry's Taylor recurrence reads. They may point forward, because a recurrence of order `n`
only reads coefficients of lower order of them.

`reconstruct` expands the outputs back into expressions over the original atoms, and
`check` verifies the layout and compares the expansions with the expressions decomposed.
-/

namespace TaylorOde

namespace Expr

/-- The elementary variable `u_i`. -/
def elem (i : Nat) : Expr := .var (Variable.elementary i)

/-- The index of an elementary variable. -/
def elemIndex? : Expr → Option Nat
  | .var v => Variable.elementaryIndex? v
  | _ => none

/-- Whether the expression is a literal. -/
def isNumber : Expr → Bool
  | .num _ => true
  | _ => false

/-- The operator of a function node. -/
def op? : Expr → Option Op
  | .func _ op _ _ => some op
  | _ => none

end Expr

/-- One elementary assignment: its right-hand side and its hidden dependencies. -/
structure Entry where
  rhs : Expr
  hidden : List Nat := []
  deriving Inhabited

namespace Entry

/-- The indices of the elementary variables among the arguments (or of the right-hand side
itself when it is not a function node). -/
def refs (e : Entry) : List Nat :=
  match e.rhs with
  | .func _ _ args _ => args.filterMap Expr.elemIndex?
  | other => (Expr.elemIndex? other).toList

/-- The operator of the right-hand side. -/
def op? (e : Entry) : Option Op := e.rhs.op?

end Entry

/-- A Taylor decomposition. -/
structure Decomposition where
  entries : Array Entry
  varNames : List String
  params : List UInt32
  nOutputs : Nat
  deriving Inhabited

namespace Decomposition

/-- The number of prefix entries. -/
def nPrefix (d : Decomposition) : Nat := d.varNames.length + d.params.length

/-- The number of entries. -/
def size (d : Decomposition) : Nat := d.entries.size

/-- The index of the first output entry, which ends the function entries. -/
def functionsEnd (d : Decomposition) : Nat := d.entries.size - d.nOutputs

/-- The indices of the function entries. -/
def functions (d : Decomposition) : List Nat :=
  (List.range (d.functionsEnd - d.nPrefix)).map (· + d.nPrefix)

/-- The entry at an index (a default entry past the end). -/
def entry (d : Decomposition) (i : Nat) : Entry := d.entries[i]?.getD default

/-- The output entries. -/
def outputs (d : Decomposition) : List Entry := d.entries.toList.drop d.functionsEnd

/-- The deepest level, in `lv`, among the references of entry `i`. -/
def deepestRef (d : Decomposition) (lv : Array Nat) (i : Nat) : Nat :=
  (d.entry i).refs.foldl (fun m j => Nat.max m (lv[j]?.getD 0)) 0

/-- The longest path from the prefix to each entry: zero for the prefix and the outputs,
one more than the deepest argument for a function entry. -/
def levels (d : Decomposition) : Array Nat :=
  d.functions.foldl (fun lv i => lv.set! i (d.deepestRef lv i + 1)) (Array.replicate d.size 0)

/-- The outputs expanded into expressions over the original atoms. -/
def reconstruct (d : Decomposition) : List Expr :=
  let expand (built : Array Expr) (a : Expr) : Expr :=
    match a.elemIndex? with
    | some j => built[j]?.getD a
    | none => a
  let built := d.entries.foldl (fun built e =>
    let x := match e.rhs with
      | .func _ op args _ => Expr.node .anon op (args.map (expand built))
      | other => expand built other
    built.push x) #[]
  built.toList.drop d.functionsEnd

/-- An inconsistency in a decomposition. -/
def broken (message : String) : Error := .invalid s!"inconsistent decomposition: {message}"

/-- Checks the layout of a decomposition and that its outputs expand back into
`originals`, compared by structural hash. -/
def check (d : Decomposition) (originals : List Expr) : Outcome Unit := do
  let n := d.size
  let np := d.nPrefix
  if n < np + d.nOutputs then throw (broken s!"{n} entries cannot hold the prefix and outputs")
  let fEnd := d.functionsEnd
  for i in List.range np do
    let expected : Expr :=
      if i < d.varNames.length then .var (d.varNames.getD i "")
      else .param (d.params.getD (i - d.varNames.length) 0)
    let rhs := (d.entry i).rhs
    if !(rhs == expected) then throw (broken s!"prefix entry {i} is '{rhs.display}'")
  for i in d.functions do
    let e := d.entry i
    match e.rhs with
    | .time => pure ()
    | .func _ _ args _ =>
      for a in args do
        match a.elemIndex? with
        | some j => if j < i then pure () else throw (broken s!"entry {i} refers forward to u_{j}")
        | none => if a.isNumber then pure () else
            throw (broken s!"entry {i} has the argument '{a.display}'")
    | other => throw (broken s!"entry {i} is '{other.display}'")
    match e.hidden.find? (fun h => !(np ≤ h && h < fEnd) || h == i) with
    | some h => throw (broken s!"entry {i} has the hidden dependency {h}")
    | none => pure ()
  for (e, k) in d.outputs.zipIdx do
    match e.rhs.elemIndex? with
    | some j => if j < fEnd then pure () else throw (broken s!"output {k} is '{e.rhs.display}'")
    | none => if e.rhs.isNumber then pure () else throw (broken s!"output {k} is '{e.rhs.display}'")
  let rebuilt := d.reconstruct
  if rebuilt.length != originals.length then
    throw (broken s!"{rebuilt.length} outputs for {originals.length} expressions")
  for ((r, o), k) in (rebuilt.zip originals).zipIdx do
    if r.hash != o.hash then
      throw (broken s!"output {k} expands to '{r.display}' instead of '{o.display}'")

end Decomposition

end TaylorOde
