import TaylorOde.Decimal.Layout
/-!
# JSON text of archives

The JSON form of an archive writes numbers in the interchange layout (the shortest decimal
that reads back, non-finite values as `null`) and strings between double quotes, escaping the
quote, the backslash and every control character below `0x20`: the five with a short form as
`\b \f \n \r \t`, the others as `\u00XX` with lowercase hex digits.
-/

namespace TaylorOde

namespace JsonText

/-- The escape of one character inside a JSON string. -/
def escapeChar (c : Char) : String :=
  if c == '"' then "\\\""
  else if c == '\\' then "\\\\"
  else if c == '\n' then "\\n"
  else if c == '\r' then "\\r"
  else if c == '\t' then "\\t"
  else if c.toNat == 8 then "\\b"
  else if c.toNat == 12 then "\\f"
  else if c.toNat < 0x20 then
    let hex := "0123456789abcdef".toList
    "\\u00" ++ (hex.getD (c.toNat / 16) '0').toString ++ (hex.getD (c.toNat % 16) '0').toString
  else c.toString

/-- A string as a JSON string literal. -/
def quoted (s : String) : String := "\"" ++ String.join (s.toList.map escapeChar) ++ "\""

/-- A binary64 value as a JSON number, `null` when not finite. -/
def number (x : Float) : String := Float.interchangeText x

/-- A JSON array of texts. -/
def array (items : List String) : String := "[" ++ ",".intercalate items ++ "]"

/-- A JSON object of keys and value texts, in the given order. -/
def object (fields : List (String × String)) : String :=
  "\x7b" ++ ",".intercalate (fields.map fun (k, v) => quoted k ++ ":" ++ v) ++ "\x7d"

end JsonText

end TaylorOde
