import TaylorOde.Decimal.Shortest
/-!
# Layouts of shortest decimals

One renderer writes a `DecimalValue` under a `DecimalStyle` record: where positional notation
ends and scientific notation starts, whether an integral positional value keeps a `.0`, and
the texts of zero, infinity and NaN. Exponents are written as `e`, a minus sign when
negative, and the digits with no padding (`1e-7`, `1.5e16`).

The styles used by the library are `plain` (never an exponent, integral values bare),
`general` (positional from `1e-4` up to `1e16`, with `.0`), `scientific` (always an
exponent) and `interchange` (the number text of the JSON data format: positional from
`1e-5` up to `1e16`, with `.0`).

`quotedLiteral` is the layout of a string in diagnostics: between double quotes, with quotes,
backslashes and control characters escaped.
-/

namespace TaylorOde

/-- Which notation a nonzero decimal is written in, by its decimal exponent `E`
(`10 ^ E ≤ |x| < 10 ^ (E + 1)`). -/
inductive Notation where
  | positional
  | scientific
  /-- positional when `low ≤ E < high`, scientific otherwise -/
  | positionalWithin (low high : Int)
  deriving Repr, BEq

/-- The decisions of a decimal layout. -/
structure DecimalStyle where
  form : Notation
  /-- an integral value in positional notation is written with `.0` -/
  pointZero : Bool
  /-- the text of zero, without its sign -/
  zeroText : String
  infText : String
  nanText : String

namespace DecimalStyle

/-- Positional notation throughout, integral values without a point, `inf` and `NaN`. -/
def plain : DecimalStyle := ⟨.positional, false, "0", "inf", "NaN"⟩

/-- Positional notation for `1e-4 ≤ |x| < 1e16` with at least one fractional digit, and
scientific notation outside. -/
def general : DecimalStyle := ⟨.positionalWithin (-4) 16, true, "0.0", "inf", "NaN"⟩

/-- Scientific notation throughout: `5e-1`, `1.25e2`, `0e0`. -/
def scientific : DecimalStyle := ⟨.scientific, false, "0e0", "inf", "NaN"⟩

/-- The number text of the JSON data format: positional for `1e-5 ≤ |x| < 1e16` with at
least one fractional digit, scientific outside. Non-finite values have no number text and
are written `null`. -/
def interchange : DecimalStyle := ⟨.positionalWithin (-5) 16, true, "0.0", "null", "null"⟩

end DecimalStyle

/-- `n` copies of the digit zero. -/
def zeros (n : Nat) : String := String.ofList (List.replicate n '0')

/-- A nonzero decimal's digits in positional notation. -/
def positionalText (digits : String) (e : Int) (pointZero : Bool) : String :=
  let n := digits.length
  if (n : Int) - 1 ≤ e then
    digits ++ zeros (e + 1 - n).toNat ++ (if pointZero then ".0" else "")
  else if 0 ≤ e then
    let cut := (e + 1).toNat
    String.ofList (digits.toList.take cut) ++ "." ++ String.ofList (digits.toList.drop cut)
  else
    "0." ++ zeros (-e - 1).toNat ++ digits

/-- A nonzero decimal's digits in scientific notation. -/
def scientificText (digits : String) (e : Int) : String :=
  let ds := digits.toList
  let mantissa := match ds with
    | [] => "0"
    | [d] => String.singleton d
    | d :: rest => String.singleton d ++ "." ++ String.ofList rest
  mantissa ++ "e" ++ toString e

namespace DecimalValue

/-- Writes the value in the given style. -/
def render (style : DecimalStyle) : DecimalValue → String
  | .nan => style.nanText
  | .infinite negative => (if negative then "-" else "") ++ style.infText
  | .zero negative => (if negative then "-" else "") ++ style.zeroText
  | .finite negative d =>
    let digits := toString d.digits
    let e := d.exponent + digits.length - 1
    let body := match style.form with
      | .positional => positionalText digits e style.pointZero
      | .scientific => scientificText digits e
      | .positionalWithin low high =>
        if low ≤ e ∧ e < high then positionalText digits e style.pointZero
        else scientificText digits e
    (if negative then "-" else "") ++ body

end DecimalValue

/-- Plain text of a binary64 value: `0.1`, `1`, `-0`, `inf`. -/
def Float.plainText (x : Float) : String := (Float.toDecimal x).render .plain

/-- General text of a binary64 value: `0.1`, `1.0`, `1e-7`, `NaN`. -/
def Float.generalText (x : Float) : String := (Float.toDecimal x).render .general

/-- Scientific text of a binary64 value: `5e-1`. -/
def Float.scientificText (x : Float) : String := (Float.toDecimal x).render .scientific

/-- JSON number text of a binary64 value: `1.0`, `1e300`, `1e-7`. -/
def Float.interchangeText (x : Float) : String := (Float.toDecimal x).render .interchange

/-- Plain text of a binary32 value. -/
def Float32.plainText (x : Float32) : String := (Float32.toDecimal x).render .plain

/-- General text of a binary32 value. -/
def Float32.generalText (x : Float32) : String := (Float32.toDecimal x).render .general

/-- Scientific text of a binary32 value. -/
def Float32.scientificText (x : Float32) : String := (Float32.toDecimal x).render .scientific

/-- The text of a string as a quoted literal: quotes, backslashes and control characters
escaped. -/
def quotedLiteral (s : String) : String :=
  let escape (c : Char) : String :=
    if c == '"' then "\\\"" else if c == '\\' then "\\\\"
    else if c == '\n' then "\\n" else if c == '\r' then "\\r" else if c == '\t' then "\\t"
    else if c == '\x00' then "\\0"
    else if c.toNat < 0x20 || (0x7f ≤ c.toNat && c.toNat < 0xa0) || c.toNat == 0xad then
      "\\u" ++ "\x7b" ++ String.ofList (Nat.toDigits 16 c.toNat) ++ "\x7d"
    else c.toString
  "\"" ++ String.join (s.toList.map escape) ++ "\""

end TaylorOde
