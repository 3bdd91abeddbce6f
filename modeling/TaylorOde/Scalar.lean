import TaylorOde.Decimal.Layout
import TaylorOde.Binary.Exact
/-!
# Scalars

The numerical code of the library is written once over a `Scalar`: a binary floating-point
type with IEEE arithmetic and the elementary functions of the C mathematics library. Two
instances exist, binary64 (`Float`) and binary32 (`Float32`). Conversions from binary64
round to nearest with ties to even, and overflow to an infinity.

`FloatKind` names the formats a literal can be tagged with, from the narrowest to the widest.
-/

namespace TaylorOde

/-- Floating-point formats, from the narrowest to the widest. -/
inductive FloatKind where
  | binary32
  | binary64
  | binary80
  | binary128
  | arbitrary
  deriving Repr, BEq, DecidableEq, Inhabited

namespace FloatKind

/-- The position of the format in the order from narrow to wide. -/
def rank : FloatKind → Nat
  | .binary32 => 0
  | .binary64 => 1
  | .binary80 => 2
  | .binary128 => 3
  | .arbitrary => 4

/-- The wider of two formats: mixed literals fold in it. -/
def common (a b : FloatKind) : FloatKind := if a.rank ≤ b.rank then b else a

/-- The format's name. -/
def name : FloatKind → String
  | .binary32 => "binary32"
  | .binary64 => "binary64"
  | .binary80 => "binary80"
  | .binary128 => "binary128"
  | .arbitrary => "arbitrary"

/-- The format of a name. -/
def ofName? : String → Option FloatKind
  | "binary32" => some .binary32
  | "binary64" => some .binary64
  | "binary80" => some .binary80
  | "binary128" => some .binary128
  | "arbitrary" => some .arbitrary
  | _ => none

end FloatKind

/-- A binary floating-point scalar type. Comparisons are those of IEEE arithmetic: every
comparison with a NaN is false. -/
class Scalar (α : Type) extends Add α, Sub α, Mul α, Div α, Neg α, Inhabited α where
  kind : FloatKind
  /-- rounds a binary64 value to this type -/
  ofFloat : Float → α
  /-- widens exactly to binary64 -/
  toFloat : α → Float
  lt : α → α → Bool
  le : α → α → Bool
  eq : α → α → Bool
  isNaN : α → Bool
  isFinite : α → Bool
  isInf : α → Bool
  abs : α → α
  sqrt : α → α
  exp : α → α
  log : α → α
  pow : α → α → α
  sin : α → α
  cos : α → α
  tan : α → α
  asin : α → α
  acos : α → α
  atan : α → α
  atan2 : α → α → α
  sinh : α → α
  cosh : α → α
  tanh : α → α
  floor : α → α
  ceil : α → α
  /-- `x · y + z` rounded once -/
  fma : α → α → α → α
  /-- the distance from one to the next larger value -/
  epsilon : α
  /-- the sign bit -/
  signBit : α → Bool
  /-- the bytes of the encoding -/
  byteWidth : Nat
  /-- the encoding as a number -/
  bits : α → Nat
  /-- the value of an encoding -/
  ofBits : Nat → α
  /-- general text: positional from `1e-4` to `1e16`, scientific outside -/
  generalText : α → String
  /-- plain text: positional, integral values without a point -/
  plainText : α → String
  /-- scientific text: `5e-1` -/
  scientificText : α → String

namespace Scalar

variable {α : Type} [Scalar α]

/-- Zero. -/
def zero : α := ofFloat 0.0

/-- One. -/
def one : α := ofFloat 1.0

/-- A quiet NaN. -/
def nan : α := ofFloat (0.0 / 0.0)

/-- Positive infinity. -/
def inf : α := ofFloat (1.0 / 0.0)

/-- The larger of two values; a NaN operand is ignored. -/
def max (a b : α) : α :=
  if isNaN a then b else if isNaN b then a else if lt a b then b else a

/-- The smaller of two values; a NaN operand is ignored. -/
def min (a b : α) : α :=
  if isNaN a then b else if isNaN b then a else if lt b a then b else a

/-- The sign of a value: one for positive values and positive zero, minus one for negative
values and negative zero, NaN for NaN. -/
def signum (a : α) : α :=
  if isNaN a then a else if signBit a then -one else one

end Scalar

instance : Scalar Float where
  kind := .binary64
  ofFloat x := x
  toFloat x := x
  lt a b := a < b
  le a b := a ≤ b
  eq a b := a == b
  isNaN := Float.isNaN
  isFinite := Float.isFinite
  isInf := Float.isInf
  abs := Float.abs
  sqrt := Float.sqrt
  exp := Float.exp
  log := Float.log
  pow := Float.pow
  sin := Float.sin
  cos := Float.cos
  tan := Float.tan
  asin := Float.asin
  acos := Float.acos
  atan := Float.atan
  atan2 := Float.atan2
  sinh := Float.sinh
  cosh := Float.cosh
  tanh := Float.tanh
  floor := Float.floor
  ceil := Float.ceil
  fma := Float.fusedMulAdd
  epsilon := Float.ofBits 0x3CB0000000000000
  signBit x := x.toBits >>> 63 == 1
  byteWidth := 8
  bits x := x.toBits.toNat
  ofBits n := Float.ofBits n.toUInt64
  generalText := Float.generalText
  plainText := Float.plainText
  scientificText := Float.scientificText

instance : Scalar Float32 where
  kind := .binary32
  ofFloat x := x.toFloat32
  toFloat x := x.toFloat
  lt a b := a < b
  le a b := a ≤ b
  eq a b := a == b
  isNaN := Float32.isNaN
  isFinite := Float32.isFinite
  isInf := Float32.isInf
  abs := Float32.abs
  sqrt := Float32.sqrt
  exp := Float32.exp
  log := Float32.log
  pow := Float32.pow
  sin := Float32.sin
  cos := Float32.cos
  tan := Float32.tan
  asin := Float32.asin
  acos := Float32.acos
  atan := Float32.atan
  atan2 := Float32.atan2
  sinh := Float32.sinh
  cosh := Float32.cosh
  tanh := Float32.tanh
  floor := Float32.floor
  ceil := Float32.ceil
  fma := Float32.fusedMulAdd
  epsilon := Float32.ofBits 0x34000000
  signBit x := x.toBits >>> 31 == 1
  byteWidth := 4
  bits x := x.toBits.toNat
  ofBits n := Float32.ofBits n.toUInt32
  generalText := Float32.generalText
  plainText := Float32.plainText
  scientificText := Float32.scientificText

end TaylorOde
