import TaylorOde.Json.Reader
import TaylorOde.Archive.JsonText
/-!
# JSON values

A JSON text read into a tree: numbers keep the form they were read in (unsigned or negative
integer, or binary64), and an object keeps its entries in text order. A key that appears more
than once means its last value. Arrays and objects may be nested 127 deep.

The compact text of a value writes an object as a map holds it: one entry per key, with the
last value, in increasing key order.
-/

namespace TaylorOde

namespace Json

/-- A JSON value. -/
inductive Value where
  | null
  | bool (b : Bool)
  | number (n : Number)
  | string (s : String)
  | array (items : List Value)
  | object (entries : List (String × Value))
  deriving Inhabited

namespace Value

open Read

/-- How deep arrays and objects may be nested. -/
def maxDepth : Nat := 127

/-- Reads a value inside which `depth` more arrays or objects may be opened. -/
def read (depth : Nat) : Read Value := do
  match ← whitespace with
  | none => peekFail .eofWhileParsingValue
  | some c =>
    positioned do
      if c == byte 'n' then
        eat
        ident ['u', 'l', 'l']
        pure .null
      else if c == byte 't' then
        eat
        ident ['r', 'u', 'e']
        pure (.bool true)
      else if c == byte 'f' then
        eat
        ident ['a', 'l', 's', 'e']
        pure (.bool false)
      else if c == byte '-' then
        eat
        pure (.number (← integer true))
      else if isDigit c then pure (.number (← integer false))
      else if c == byte '"' then
        eat
        pure (.string (← Read.string))
      else if c == byte '[' || c == byte '{' then
        match depth with
        | 0 => peekFail .recursionLimitExceeded
        | d + 1 =>
          eat
          if c == byte '[' then
            let ret ← attempt (elements (read d))
            let fin ← attempt endSeq
            pure (.array (← firstError ret fin))
          else
            let ret ← attempt (entries (read d))
            let fin ← attempt endMap
            pure (.object (← firstError ret fin))
      else peekFail .expectedSomeValue

/-- The value of a JSON text. -/
def parse (s : String) : Except ReadError Value := Read.run (read maxDepth) s

/-- The value of key `k` of an object: its last entry. -/
def field? (v : Value) (k : String) : Option Value :=
  match v with
  | .object es => (es.reverse.find? (·.1 == k)).map (·.2)
  | _ => none

mutual

/-- The compact text of a value. -/
def compact : Value → String
  | .null => "null"
  | .bool b => if b then "true" else "false"
  | .number (.unsigned n) => toString n
  | .number (.signed i) => toString i
  | .number (.float x) => JsonText.number x
  | .string s => JsonText.quoted s
  | .array items => JsonText.array (compactItems items)
  | .object es =>
    let one := (compactEntries es).foldl (fun acc (k, v) => acc.filter (·.1 != k) ++ [(k, v)]) []
    JsonText.object (one.mergeSort fun a b => a.1 ≤ b.1)

/-- The compact texts of array items. -/
def compactItems : List Value → List String
  | [] => []
  | v :: rest => compact v :: compactItems rest

/-- The keys and the compact texts of the values of object entries. -/
def compactEntries : List (String × Value) → List (String × String)
  | [] => []
  | (k, v) :: rest => (k, compact v) :: compactEntries rest

end

end Value

end Json

end TaylorOde
