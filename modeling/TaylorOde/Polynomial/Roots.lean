import TaylorOde.Polynomial.Basic
/-!
# Real roots of a polynomial on an interval

`Poly.rootsIn p h` lists the real roots of `p` in `[0, h)` in increasing order. The
polynomial is first rescaled to the unit interval. Subintervals are then isolated by bisection
driven by Descartes' rule of signs: the number of sign changes of the coefficients of
`(1 + x) ^ deg · q (1 / (1 + x))` bounds the number of roots of `q` in `(0, 1)`. A subinterval
with bound one is refined by bisection on the sign of the polynomial; one with bound zero is
dropped; a larger bound halves the interval, the left half first, so roots come out sorted.
Halving stops at depth 48, where the subinterval is refined as if it held one root. The
subintervals wait on a work stack (`isolateLoop`); `isolate` is the same search as a
recursion.
-/

namespace TaylorOde

namespace Poly

open Scalar

variable {α : Type} [Scalar α]

/-- Whether a value is zero of either sign. -/
def isZeroValue (x : α) : Bool := Scalar.eq x zero

/-- The number of sign changes along the coefficients, zeros (and NaNs) skipped. -/
def signChanges (p : Poly α) : Nat :=
  (p.foldl (fun (acc : Int × Nat) c =>
    let (last, count) := acc
    let s : Int := if Scalar.lt zero c then 1 else if Scalar.lt c zero then -1 else 0
    if s = 0 then acc
    else (s, if last ≠ 0 ∧ s ≠ last then count + 1 else count)) (0, 0)).2

/-- Descartes' bound on the number of roots in `(0, 1)`. -/
def descartesBound (p : Poly α) : Nat :=
  signChanges (taylorShift one p.reverse)

/-- The bisection loop: halves `(lb, ub)` keeping the sign change, at most `fuel` times, and
stops early at an exact zero or when the midpoint no longer lies strictly inside. -/
def bisectLoop (q : Poly α) : Nat → α → α → α → α
  | 0, lb, ub, _ => (lb + ub) / (one + one)
  | fuel + 1, lb, ub, fLb =>
    let mid := (lb + ub) / (one + one)
    if !(Scalar.lt lb mid && Scalar.lt mid ub) then (lb + ub) / (one + one)
    else
      let fMid := horner q mid
      if isZeroValue fMid then mid
      else if Scalar.eq (signum fMid) (signum fLb) then bisectLoop q fuel mid ub fMid
      else bisectLoop q fuel lb mid fLb

/-- A root of `q` in `(lb, ub)` found by bisection on the sign, if the ends have opposite
signs; the lower end itself if `q` vanishes there. -/
def bisect (q : Poly α) (lb ub : α) : Option α :=
  let fLb := horner q lb
  let fUb := horner q ub
  if isZeroValue fLb then some lb
  else if isZeroValue fUb || Scalar.eq (signum fLb) (signum fUb) then none
  else some (bisectLoop q 256 lb ub fLb)

/-- Drops the zero constant coefficients of a subinterval's polynomial, recording its lower
end as a root once. -/
def stripRootsAtStart (lb : α) : Poly α → List α → Poly α × List α
  | c :: rest@(_ :: _), roots =>
    if isZeroValue c then
      let roots := if roots.getLast?.any (Scalar.eq · lb) then roots else roots ++ [lb]
      stripRootsAtStart lb rest roots
    else (c :: rest, roots)
  | p, roots => (p, roots)

/-- An entry of the work stack of root isolation: a subinterval `(lb, ub)` of the unit
interval, its polynomial in the unit variable, and the number of halvings still allowed. -/
structure StackEntry (α : Type) where
  lb : α
  ub : α
  poly : Poly α
  depthLeft : Nat

/-- The work loop of root isolation, the top of the stack first. An entry's zero constant
coefficients are stripped, recording its lower end as a root. An entry whose Descartes bound is
zero adds nothing more; one whose bound is one, or that may not be halved again, adds the root
that bisection of `q` finds in its interval, if any; any other is replaced by its two halves,
the left one on top. `fuel` bounds the passes; `rootsIn` gives enough. -/
def isolateLoop (q : Poly α) : Nat → List (StackEntry α) → List α → List α
  | 0, _, roots => roots
  | _ + 1, [], roots => roots
  | fuel + 1, ⟨lb, ub, r, depthLeft⟩ :: stack, roots =>
    let (r, roots) := stripRootsAtStart lb r roots
    let pushBisect (_ : Unit) := match bisect q lb ub with
      | some s => roots ++ [s]
      | none => roots
    match descartesBound r, depthLeft with
    | 0, _ => isolateLoop q fuel stack roots
    | 1, _ => isolateLoop q fuel stack (pushBisect ())
    | _, 0 => isolateLoop q fuel stack (pushBisect ())
    | _, d + 1 =>
      let half := ofFloat 0.5
      let left := rescale half r
      let right := taylorShift one left
      let mid := (lb + ub) * half
      isolateLoop q fuel (⟨lb, mid, left, d⟩ :: ⟨mid, ub, right, d⟩ :: stack) roots

/-- Isolation of the roots of the subinterval `(lb, ub)` by recursion, the left half first:
what the work loop computes from an entry. Its polynomial in the unit variable is `r`;
`depthLeft` is the number of halvings still allowed. `q` is the whole rescaled polynomial, on
which bisection runs. -/
def isolate (q : Poly α) : Nat → α → α → Poly α → List α → List α
  | depthLeft, lb, ub, r, roots =>
    let (r, roots) := stripRootsAtStart lb r roots
    let pushBisect (_ : Unit) := match bisect q lb ub with
      | some s => roots ++ [s]
      | none => roots
    match descartesBound r, depthLeft with
    | 0, _ => roots
    | 1, _ => pushBisect ()
    | _, 0 => pushBisect ()
    | _, d + 1 =>
      let half := ofFloat 0.5
      let left := rescale half r
      let right := taylorShift one left
      let mid := (lb + ub) * half
      let roots := isolate q d lb mid left roots
      isolate q d mid ub right roots

/-- The real roots of `p` in `[0, h)`, in increasing order. A polynomial of degree below one
(after dropping zero top coefficients), a step that is not positive, or a non-finite
coefficient gives none. -/
def rootsIn (p : Poly α) (h : α) : List α :=
  let q := (p.reverse.dropWhile isZeroValue).reverse
  if q.length < 2 || !(Scalar.lt zero h) || q.any (fun c => !isFinite c) then []
  else
    let q := rescale h q
    -- at most `2 ^ 49 - 1` entries are ever pushed, 48 halvings being allowed
    let roots := isolateLoop q (Nat.pow 2 49) [⟨zero, one, q, 48⟩] []
    (roots.map (· * h)).filter (Scalar.lt · h)

end Poly

end TaylorOde
