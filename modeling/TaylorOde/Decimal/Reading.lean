/-!
# Reading decimals in one step

The reading used for request numbers: the significand keeps the leading digits that fit a
64-bit word (digits after the first one that would not fit are dropped, and count in the
exponent), is rounded once to binary64, and is then multiplied or divided once by the
binary64 value of `10 ^ |e|`. Exponents beyond `10 ^ 308` divide by `10 ^ 308` repeatedly.
This is not always the nearest binary64 value: `1.4000000000000001` reads as `1.4`.
-/

namespace TaylorOde

namespace Decimal

/-- The largest 64-bit word. -/
def wordMax : Nat := Nat.pow 2 64 - 1

/-- Whether appending digit `d` to `s` would leave the 64-bit range. -/
def wouldOverflow (s d : Nat) : Bool :=
  s ≥ wordMax / 10 && (s > wordMax / 10 || d > wordMax % 10)

/-- The digits of a number, most significant first. -/
def digitsOf (n : Nat) : List Nat := (toString n).toList.map fun c => c.toNat - '0'.toNat

/-- The leading digits of a digit list that fit a 64-bit word, and how many were dropped. -/
def clampDigits : List Nat → Nat → Nat × Nat
  | [], s => (s, 0)
  | d :: rest, s => if wouldOverflow s d then (s, rest.length + 1) else clampDigits rest (s * 10 + d)

/-- Removes trailing zeros, counting them. -/
def stripZeros (m : Nat) (k : Nat) : Nat × Nat :=
  if m ≠ 0 ∧ m % 10 = 0 then stripZeros (m / 10) (k + 1) else (m, k)
termination_by m
decreasing_by omega

/-- The binary64 value of `10 ^ k`, rounded to nearest. -/
def powTen (k : Nat) : Float := Float.ofScientific 1 false k

/-- Scales by `10 ^ e` in one multiplication or division; exponents below `-308` first
divide by `10 ^ 308` as often as needed, and exponents above `308` overflow. -/
def scaleTen (f : Float) (e : Int) : Nat → Float
  | 0 => f
  | fuel + 1 =>
    if 0 ≤ e then
      if e ≤ 308 then f * powTen e.toNat else if f == 0.0 then f else 1.0 / 0.0
    else if -e ≤ 308 then f / powTen (-e).toNat
    else if f == 0.0 then f
    else scaleTen (f / powTen 308) (e + 308) fuel

/-- Reads `± digits · 10 ^ exp` in one step. -/
def readOneStep (negative : Bool) (digits : Nat) (exp : Int) : Float :=
  let (s, dropped) := clampDigits (digitsOf digits) 0
  let f := scaleTen (Float.ofScientific s false 0) (exp + dropped) (exp.natAbs / 308 + 2)
  if negative then -f else f

/-- Reads a JSON number held as `mantissa · 10 ^ (-decimals)` in one step. A number without
decimals is read with its trailing zeros as exponent. -/
def readJson (mantissa : Int) (decimals : Nat) : Float :=
  if decimals = 0 then
    let (m, k) := stripZeros mantissa.natAbs 0
    readOneStep (mantissa < 0) m k
  else readOneStep (mantissa < 0) mantissa.natAbs (-(decimals : Int))

end Decimal

end TaylorOde
