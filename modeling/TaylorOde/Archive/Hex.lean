/-!
# Hexadecimal text of byte sequences

Two lowercase hex digits per byte, most significant first. Reading accepts either case and
fails on an odd number of digits or a character that is not a hex digit.
-/

namespace TaylorOde

namespace Hex

/-- The hex digits. -/
def digits : List Char := "0123456789abcdef".toList

/-- The hex text of bytes. -/
def encode (b : ByteArray) : String :=
  String.ofList (b.toList.flatMap fun x => [digits.getD (x.toNat / 16) '0', digits.getD (x.toNat % 16) '0'])

/-- The value of a hex digit. -/
def digitValue (c : Char) : Option Nat :=
  if '0' ≤ c && c ≤ '9' then some (c.toNat - '0'.toNat)
  else if 'a' ≤ c && c ≤ 'f' then some (c.toNat - 'a'.toNat + 10)
  else if 'A' ≤ c && c ≤ 'F' then some (c.toNat - 'A'.toNat + 10)
  else none

/-- The bytes of pairs of hex digits. -/
def decodePairs : List Char → ByteArray → Except String ByteArray
  | [], out => .ok out
  | [_], _ => .error "odd hex length"
  | a :: b :: rest, out =>
    match digitValue a, digitValue b with
    | some x, some y => decodePairs rest (out.push (x * 16 + y).toUInt8)
    | _, _ => .error "invalid hex digit"

/-- The bytes of a hex text. -/
def decode (s : String) : Except String ByteArray :=
  if s.length % 2 != 0 then .error "odd hex length" else decodePairs s.toList ByteArray.empty

end Hex

end TaylorOde
