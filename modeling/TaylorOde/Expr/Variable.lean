import TaylorOde.Expr.Basic
/-!
# Variable names

Two families of names are reserved. Elementary names `u_0`, `u_1`, … name the entries of a
Taylor decomposition; a name is elementary when `u_` is followed by a non-empty run of
decimal digits whose value fits a 64-bit word. Variational names start with `∂` and name
the derivatives of a variational system.
-/

namespace TaylorOde

namespace Variable

/-- The first character of variational names. -/
def variationalPrefix : String := "∂"

/-- The largest value of a 64-bit word. -/
def wordMax : Nat := Nat.pow 2 64 - 1

/-- The value of a non-empty run of decimal digits. -/
def digitsValue (ds : List Char) : Nat :=
  ds.foldl (fun acc c => 10 * acc + (c.toNat - '0'.toNat)) 0

/-- The index of an elementary name `u_<digits>`, or nothing when the name is not of that
form or the digits exceed a 64-bit word. -/
def elementaryIndex? (name : String) : Option Nat :=
  match name.toList with
  | 'u' :: '_' :: ds =>
    if ds.isEmpty || !ds.all Char.isDigit then none
    else
      let v := digitsValue ds
      if v ≤ wordMax then some v else none
  | _ => none

/-- Whether the name is elementary. -/
def isElementary (name : String) : Bool := (elementaryIndex? name).isSome

/-- Whether the name is variational. -/
def isVariational (name : String) : Bool := name.startsWith variationalPrefix

/-- The elementary name of an index. -/
def elementary (i : Nat) : String := s!"u_{i}"

end Variable

end TaylorOde
