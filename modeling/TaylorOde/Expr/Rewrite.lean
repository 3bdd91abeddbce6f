import TaylorOde.Expr.Canonical
import TaylorOde.Expr.Identity
/-!
# Substitution and structural rewrites

* `subst` replaces every subterm equal to a key of a substitution by its image. The result
  is not put back into canonical form, arguments keep their order, and a subterm in which
  nothing was replaced is returned as the very node it was.
* `renameVariables` substitutes variables for variables.
* `normalise` rebuilds an expression bottom-up through the canonical constructors.
* `splitSums` rewrites every sum of more than `split` terms into a nest of sums of at most
  `split` terms each: consecutive runs of `split` terms are summed, level after level.
* `varNames`, `params` and `hasTime` list the atoms an expression mentions.

Nodes built by these rewrites get tags derived from the node they replace, so a node that
occurs several times is rewritten into one node.
-/

namespace TaylorOde

/-- A substitution: keys and their images. Inserting a key equal to an existing one
replaces that key's image. -/
structure Substitution where
  entries : List (Expr × Expr) := []

namespace Substitution

/-- Inserts a key and its image. -/
def insert (s : Substitution) (k v : Expr) : Substitution :=
  if s.entries.any (fun p => p.1 == k) then
    ⟨s.entries.map fun p => if p.1 == k then (p.1, v) else p⟩
  else ⟨s.entries ++ [(k, v)]⟩

/-- The substitution of a list of pairs, inserted in order. -/
def ofList (pairs : List (Expr × Expr)) : Substitution :=
  pairs.foldl (fun s p => s.insert p.1 p.2) {}

/-- The image of an expression equal to a key. -/
def find? (s : Substitution) (e : Expr) : Option Expr :=
  (s.entries.find? (fun p => p.1 == e)).map (·.2)

end Substitution

namespace Expr

/-- Replaces every subterm equal to a key by its image. -/
def subst (s : Substitution) (e : Expr) : Expr :=
  match s.find? e with
  | some v => v
  | none =>
    match e with
    | .func t op args _ =>
      let args' := args.map (subst s)
      if sameNodes args' args then e else node (t.child 1) op args'
    | _ => e

/-- Renames variables; variables without a new name are kept. -/
def renameVariables (names : List (String × String)) (e : Expr) : Expr :=
  subst (Substitution.ofList (names.map fun (a, b) => (.var a, .var b))) e

/-- Rebuilds an expression through the canonical constructors. -/
def normalise (e : Expr) : Outcome Expr :=
  match e with
  | .func t op args _ => do
    let args' ← args.mapM normalise
    apply (t.child 2) op args'
  | _ => .ok e

/-- Splits a list into consecutive runs of `n` elements, the last one possibly shorter. -/
def chunks {α : Type} (n : Nat) (xs : List α) : List (List α) :=
  if _hx : xs = [] then []
  else if n = 0 then [xs]
  else xs.take n :: chunks n (xs.drop n)
termination_by xs.length
decreasing_by
  simp only [List.length_drop]
  have : xs.length ≠ 0 := by simpa using _hx
  omega

/-- One level of sum splitting: each run of `split` terms becomes a sum, a lone term stays. -/
def splitLevel (t : NodeTag) (split : Nat) (level : List Expr) : List Expr :=
  (chunks split level).zipIdx.map fun (chunk, j) =>
    match chunk with
    | [single] => single
    | many => node (t.child j) .sum many

/-- Repeats `splitLevel` while more than `split` terms remain. -/
def splitLevels (t : NodeTag) (split : Nat) : Nat → List Expr → List Expr
  | 0, level => level
  | fuel + 1, level =>
    if level.length > split then
      splitLevels t split fuel (splitLevel (t.child fuel) split level)
    else level

/-- Splits the sums of more than `split` terms (`split ≥ 2`). New nodes get tags derived
from the node they replace and the pass number. -/
def splitSumsWith (pass split : Nat) (e : Expr) : Expr :=
  match e with
  | .func t op args _ =>
    let args' := args.map (splitSumsWith pass split)
    let rebuilt := if sameNodes args' args then e else node ((t.child 3).child pass) op args'
    if op == .sum && args'.length > split then
      node ((t.child 5).child pass) .sum
        (splitLevels ((t.child 4).child pass) split args'.length args')
    else rebuilt
  | _ => e

/-- Splits the sums of more than `split` terms, as pass number `pass`; fails when
`split < 2`. -/
def splitSumsPass (pass : Nat) (e : Expr) (split : Nat) : Outcome Expr :=
  if split < 2 then
    .error (.invalid s!"the split value for sums must be at least 2, got {split}")
  else .ok (splitSumsWith pass split e)

/-- Splits the sums of more than `split` terms; fails when `split < 2`. -/
def splitSums (e : Expr) (split : Nat) : Outcome Expr := splitSumsPass 0 e split

/-- Every atom of an expression, in the order met (with repeats). -/
def atoms : Expr → List Expr
  | .func _ _ args _ => (args.map atoms).flatten
  | e => [e]

/-- The variables of an expression, without repeats, sorted by name. -/
def varNames (e : Expr) : List String :=
  let names := e.atoms.filterMap fun a => match a with | .var v => some v | _ => none
  (names.mergeSort (· ≤ ·)).eraseDups

/-- The parameter indices of an expression, without repeats, ascending. -/
def params (e : Expr) : List Nat :=
  let idx := e.atoms.filterMap fun a => match a with | .param i => some i.toNat | _ => none
  (idx.mergeSort (· ≤ ·)).eraseDups

/-- Whether an expression mentions the time. -/
def hasTime (e : Expr) : Bool :=
  e.atoms.any fun a => match a with | .time => true | _ => false

end Expr

end TaylorOde
