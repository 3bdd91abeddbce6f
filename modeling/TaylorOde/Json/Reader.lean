import TaylorOde.Decimal.Layout
import TaylorOde.Decimal.Reading
/-!
# Reading JSON text

A reader of JSON text that reports what it finds wrong the way a strict streaming reader does:
a syntax error names the line and the byte column where it was found, and the readers of typed
data built on it report a value of the wrong type, a missing or repeated field and an unknown
variant by the value they met and the type they expected.

The reader works on the UTF-8 bytes of the text and keeps the index of the next byte; an
error keeps the index where it was raised. An error found at a byte already read is placed at
the index (`fail`); an error found by looking at the next byte is placed one byte further
(`peekFail`). The errors of typed readers carry no position (`custom`) and are placed where
the enclosing value has been read to (`positioned`).

Numbers are read as a 64-bit unsigned integer, a negative 64-bit integer, or a binary64 value.
An integer that does not fit a word, or has a fraction or an exponent, is read in one step
(see `Decimal`) from the leading digits that fit a word; digits dropped before the point count
in the exponent, those after it do not. A value beyond the binary64 range is an error, not an
infinity.

Strings may not hold control characters; escapes are the usual ones, and a `\u` escape of a
surrogate must be a leading one directly followed by the escape of a trailing one.
-/

namespace TaylorOde

namespace Json

/-- What is wrong with a JSON text, or the message of a typed reader. -/
inductive ErrorCode where
  | message (text : String)
  | eofWhileParsingList
  | eofWhileParsingObject
  | eofWhileParsingString
  | eofWhileParsingValue
  | expectedColon
  | expectedListCommaOrEnd
  | expectedObjectCommaOrEnd
  | expectedSomeIdent
  | expectedSomeValue
  | invalidEscape
  | invalidNumber
  | numberOutOfRange
  | controlCharacterWhileParsingString
  | keyMustBeAString
  | loneLeadingSurrogateInHexEscape
  | trailingComma
  | trailingCharacters
  | unexpectedEndOfHexEscape
  | recursionLimitExceeded
  deriving BEq, Repr

/-- The message of an error code. -/
def ErrorCode.text : ErrorCode → String
  | .message t => t
  | .eofWhileParsingList => "EOF while parsing a list"
  | .eofWhileParsingObject => "EOF while parsing an object"
  | .eofWhileParsingString => "EOF while parsing a string"
  | .eofWhileParsingValue => "EOF while parsing a value"
  | .expectedColon => "expected `:`"
  | .expectedListCommaOrEnd => "expected `,` or `]`"
  | .expectedObjectCommaOrEnd => "expected `,` or `\x7d`"
  | .expectedSomeIdent => "expected ident"
  | .expectedSomeValue => "expected value"
  | .invalidEscape => "invalid escape"
  | .invalidNumber => "invalid number"
  | .numberOutOfRange => "number out of range"
  | .controlCharacterWhileParsingString =>
    "control character (\\u0000-\\u001F) found while parsing a string"
  | .keyMustBeAString => "key must be a string"
  | .loneLeadingSurrogateInHexEscape => "lone leading surrogate in hex escape"
  | .trailingComma => "trailing comma"
  | .trailingCharacters => "trailing characters"
  | .unexpectedEndOfHexEscape => "unexpected end of hex escape"
  | .recursionLimitExceeded => "recursion limit exceeded"

/-- An error with its position: the line counted from one, and the bytes before it on its
line. Line `0` means no position. -/
structure ReadError where
  code : ErrorCode
  line : Nat := 0
  column : Nat := 0
  deriving BEq, Repr

/-- The message of an error, with its position when it has one. -/
def ReadError.text (e : ReadError) : String :=
  if e.line == 0 then e.code.text
  else s!"{e.code.text} at line {e.line} column {e.column}"

/-- An error of a typed reader, without position. -/
def custom (text : String) : ReadError := ⟨.message text, 0, 0⟩

/-- The line and column of byte `i`. -/
def position (input : ByteArray) (i : Nat) : Nat × Nat :=
  let before := (input.extract 0 i).toList
  (before.count 10 + 1, (before.reverse.takeWhile (· != 10)).length)

/-- The byte of an ASCII character. -/
def byte (c : Char) : UInt8 := c.toNat.toUInt8

/-- Whether a byte is a decimal digit. -/
def isDigit (b : UInt8) : Bool := byte '0' ≤ b && b ≤ byte '9'

/-- The value of a decimal digit. -/
def digitValue (b : UInt8) : Nat := b.toNat - '0'.toNat

/-- Whether a byte is whitespace between tokens. -/
def isSpace (b : UInt8) : Bool :=
  b == byte ' ' || b == byte '\n' || b == byte '\t' || b == byte '\r'

/-- The value of a hex digit. -/
def hexValue (b : UInt8) : Option Nat :=
  if isDigit b then some (digitValue b)
  else if byte 'a' ≤ b && b ≤ byte 'f' then some (b.toNat - 'a'.toNat + 10)
  else if byte 'A' ≤ b && b ≤ byte 'F' then some (b.toNat - 'A'.toNat + 10)
  else none

/-- The first index at or after `i` whose byte does not satisfy `p`. -/
def skipWhile (p : UInt8 → Bool) (input : ByteArray) (i : Nat) : Nat :=
  if h : i < input.size then
    if p input[i] then skipWhile p input (i + 1) else i
  else i
termination_by input.size - i

/-- A number as read: an unsigned or a negative 64-bit integer, or a binary64 value. -/
inductive Number where
  | unsigned (n : Nat)
  | signed (i : Int)
  | float (x : Float)
  deriving Inhabited

namespace Number

/-- The binary64 value of a number, rounded to nearest. -/
def toFloat : Number → Float
  | .unsigned n => Float.ofNat n
  | .signed i => if i < 0 then -(Float.ofNat i.natAbs) else Float.ofNat i.natAbs
  | .float x => x

/-- The number as named in a type error. -/
def unexpected : Number → String
  | .unsigned n => s!"integer `{n}`"
  | .signed i => s!"integer `{i}`"
  | .float x => s!"floating point `{Float.interchangeText x}`"

end Number

/-- The binary64 value of `± significand · 10 ^ exponent`, read in one step; none beyond the
binary64 range. -/
def fromParts (negative : Bool) (significand : Nat) (exponent : Int) : Option Float :=
  (go (Float.ofNat significand) exponent (exponent.natAbs / 308 + 2)).map
    fun f => if negative then -f else f
where
  /-- Scales `f` by `10 ^ e`, dividing by `10 ^ 308` first while `e` is out of the table. -/
  go (f : Float) (e : Int) : Nat → Option Float
    | 0 => some f
    | fuel + 1 =>
      if e.natAbs ≤ 308 then
        if 0 ≤ e then
          let g := f * Decimal.powTen e.natAbs
          if g.isInf then none else some g
        else some (f / Decimal.powTen e.natAbs)
      else if f == 0.0 then some f
      else if 0 ≤ e then none
      else go (f / Decimal.powTen 308) (e + 308) fuel

/-- The largest 32-bit signed integer, the bound of exponents. -/
def exponentMax : Int := Nat.pow 2 31 - 1

/-- A reader of JSON text: the text, and the index of the next byte, which an error keeps. -/
abbrev Read := ReaderT ByteArray (ExceptT ReadError (StateM Nat))

namespace Read

variable {α : Type}

/-- The next byte, if any. -/
def peek : Read (Option UInt8) := do
  let input ← read
  return input[← get]?

/-- The next byte, or `0` at the end. -/
def peekOrNull : Read UInt8 := return (← peek).getD 0

/-- Moves past the next byte. -/
def eat : Read Unit := modify (· + 1)

/-- Reads the next byte, if any. -/
def next : Read (Option UInt8) := do
  let b ← peek
  if b.isSome then eat
  return b

/-- The number of bytes left, a bound on every loop. -/
def remaining : Read Nat := return (← read).size - (← get) + 1

/-- An error at the index. -/
def errorHere (code : ErrorCode) : Read ReadError := do
  let (line, column) := position (← read) (← get)
  return ⟨code, line, column⟩

/-- An error one byte past the index. -/
def errorAhead (code : ErrorCode) : Read ReadError := do
  let input ← read
  let (line, column) := position input (Nat.min input.size ((← get) + 1))
  return ⟨code, line, column⟩

/-- Fails at the index. -/
def fail (code : ErrorCode) : Read α := do throw (← errorHere code)

/-- Fails one byte past the index. -/
def peekFail (code : ErrorCode) : Read α := do throw (← errorAhead code)

/-- Fails with an error of a typed reader. -/
def raise (text : String) : Read α := throw (custom text)

/-- Places an error that has no position at the index. -/
def fixPosition (e : ReadError) : Read ReadError :=
  if e.line == 0 then errorHere e.code else pure e

/-- Runs a reader, placing an error without position where the reader stopped. -/
def positioned (x : Read α) : Read α :=
  tryCatch x fun e => do throw (← fixPosition e)

/-- Runs a reader and returns its error as a value. -/
def attempt (x : Read α) : Read (Except ReadError α) :=
  tryCatch (Except.ok <$> x) fun e => pure (.error e)

/-- The value of the first reader, or the first error of the two. -/
def firstError (ret : Except ReadError α) (fin : Except ReadError Unit) : Read α :=
  match ret, fin with
  | .ok v, .ok () => pure v
  | .error e, _ => throw e
  | .ok _, .error e => throw e

/-- Skips whitespace and returns the next byte. -/
def whitespace : Read (Option UInt8) := do
  let input ← read
  let j := skipWhile isSpace input (← get)
  set j
  return input[j]?

/-- Reads the rest of a literal name. -/
def ident : List Char → Read Unit
  | [] => pure ()
  | c :: rest => do
    match ← next with
    | none => fail .eofWhileParsingValue
    | some b => if b != byte c then fail .expectedSomeIdent else ident rest

/-! ## Numbers -/

/-- Finishes a number from its parts. -/
def finishNumber (negative : Bool) (s : Nat) (e : Int) : Read Float := do
  match fromParts negative s e with
  | some f => pure f
  | none => fail .numberOutOfRange

/-- Skips the digits of an exponent too large to read: zero, or out of range for a nonzero
significand and a positive exponent. -/
def exponentOverflow (negative zeroSignificand positiveExp : Bool) : Read Float := do
  if !zeroSignificand && positiveExp then fail .numberOutOfRange
  else
    let input ← read
    set (skipWhile isDigit input (← get))
    return if negative then -0.0 else 0.0

/-- Reads the digits of an exponent after its first one. -/
def exponentDigits (negative : Bool) (s : Nat) (start : Int) (positiveExp : Bool) :
    Nat → Int → Read Float
  | 0, e => finishNumber negative s (if positiveExp then start + e else start - e)
  | fuel + 1, e => do
    let c ← peekOrNull
    if isDigit c then
      eat
      let d := digitValue c
      if e ≥ exponentMax / 10 && (e > exponentMax / 10 || d > (exponentMax % 10).toNat) then
        exponentOverflow negative (s == 0) positiveExp
      else exponentDigits negative s start positiveExp fuel (e * 10 + d)
    else
      let total := if positiveExp then start + e else start - e
      finishNumber negative s (max (-exponentMax - 1) (min exponentMax total))

/-- Reads an exponent, at its `e`. -/
def exponent (negative : Bool) (s : Nat) (start : Int) : Read Float := do
  eat
  let c ← peekOrNull
  let positiveExp := c != byte '-'
  if c == byte '+' || c == byte '-' then eat
  match ← next with
  | none => fail .eofWhileParsingValue
  | some d =>
    if !isDigit d then fail .invalidNumber
    else exponentDigits negative s start positiveExp (← remaining) (digitValue d)

/-- Skips the fraction digits that no longer fit the significand. -/
def fractionOverflow (negative : Bool) (s : Nat) (e : Int) : Read Float := do
  let input ← read
  set (skipWhile isDigit input (← get))
  let c ← peekOrNull
  if c == byte 'e' || c == byte 'E' then exponent negative s e else finishNumber negative s e

/-- Reads the digits of a fraction; `after` counts them, negated. -/
def fractionDigits (negative : Bool) (before : Int) : Nat → Nat → Int → Read Float
  | 0, s, after => finishNumber negative s (before + after)
  | fuel + 1, s, after => do
    let c ← peekOrNull
    if isDigit c then
      if Decimal.wouldOverflow s (digitValue c) then fractionOverflow negative s (before + after)
      else
        eat
        fractionDigits negative before fuel (s * 10 + digitValue c) (after - 1)
    else if after == 0 then
      match ← peek with
      | some _ => peekFail .invalidNumber
      | none => peekFail .eofWhileParsingValue
    else
      let c ← peekOrNull
      if c == byte 'e' || c == byte 'E' then exponent negative s (before + after)
      else finishNumber negative s (before + after)

/-- Reads a fraction, at its point. -/
def fraction (negative : Bool) (s : Nat) (before : Int) : Read Float := do
  eat
  fractionDigits negative before (← remaining) s 0

/-- Reads the integer digits that no longer fit the significand; each counts in the
exponent. -/
def longInteger (negative : Bool) (s : Nat) : Nat → Int → Read Float
  | 0, e => finishNumber negative s e
  | fuel + 1, e => do
    let c ← peekOrNull
    if isDigit c then
      eat
      longInteger negative s fuel (e + 1)
    else if c == byte '.' then fraction negative s e
    else if c == byte 'e' || c == byte 'E' then exponent negative s e
    else finishNumber negative s e

/-- Finishes a number after its integer digits. -/
def afterInteger (negative : Bool) (s : Nat) : Read Number := do
  let c ← peekOrNull
  if c == byte '.' then return .float (← fraction negative s 0)
  else if c == byte 'e' || c == byte 'E' then return .float (← exponent negative s 0)
  else if !negative then return .unsigned s
  else if s == 0 || s > Nat.pow 2 63 then return .float (-(Float.ofNat s))
  else return .signed (-(s : Int))

/-- Reads integer digits after the first one. -/
def integerDigits (negative : Bool) : Nat → Nat → Read Number
  | 0, s => afterInteger negative s
  | fuel + 1, s => do
    let c ← peekOrNull
    if isDigit c then
      if Decimal.wouldOverflow s (digitValue c) then
        return .float (← longInteger negative s (← remaining) 0)
      else
        eat
        integerDigits negative fuel (s * 10 + digitValue c)
    else afterInteger negative s

/-- Reads a number after its sign. -/
def integer (negative : Bool) : Read Number := do
  match ← next with
  | none => fail .eofWhileParsingValue
  | some c =>
    if c == byte '0' then
      if isDigit (← peekOrNull) then peekFail .invalidNumber else afterInteger negative 0
    else if isDigit c then integerDigits negative (← remaining) (digitValue c)
    else fail .invalidNumber

/-- Skips a fraction or an exponent of a number. -/
def skipExponent : Read Unit := do
  eat
  let c ← peekOrNull
  if c == byte '+' || c == byte '-' then eat
  match ← next with
  | some d =>
    if isDigit d then
      let input ← read
      set (skipWhile isDigit input (← get))
    else fail .invalidNumber
  | none => fail .invalidNumber

/-- Skips a number after its sign. -/
def skipInteger : Read Unit := do
  let input ← read
  match ← next with
  | some c =>
    if c == byte '0' then
      if isDigit (← peekOrNull) then peekFail .invalidNumber
    else if isDigit c then set (skipWhile isDigit input (← get))
    else fail .invalidNumber
  | none => fail .invalidNumber
  let c ← peekOrNull
  if c == byte '.' then
    eat
    let i ← get
    let j := skipWhile isDigit input i
    set j
    if j == i then peekFail .invalidNumber
    let c ← peekOrNull
    if c == byte 'e' || c == byte 'E' then skipExponent
  else if c == byte 'e' || c == byte 'E' then skipExponent

/-! ## Strings -/

/-- Reads four hex digits of a `\u` escape. -/
def hexEscape : Read Nat := do
  let input ← read
  let i ← get
  if input.size < i + 4 then
    set input.size
    fail .eofWhileParsingString
  else
    set (i + 4)
    let digits := (List.range 4).map fun k => hexValue (input.get! (i + k))
    match digits with
    | [some a, some b, some c, some d] => pure (((a * 16 + b) * 16 + c) * 16 + d)
    | _ => fail .invalidEscape

/-- The UTF-8 bytes of a code point. -/
def encodePoint (n : Nat) : ByteArray := (Char.ofNat n).toString.toUTF8

/-- Reads a `\u` escape after its `u`, with the trailing surrogate escape of a leading one. -/
def unicodeEscape : Read ByteArray := do
  let n ← hexEscape
  if 0xDC00 ≤ n && n ≤ 0xDFFF then fail .loneLeadingSurrogateInHexEscape
  else if n < 0xD800 || n > 0xDBFF then pure (encodePoint n)
  else
    match ← peek with
    | none => fail .eofWhileParsingString
    | some c =>
      eat
      if c != byte '\\' then fail .unexpectedEndOfHexEscape
      else
        match ← peek with
        | none => fail .eofWhileParsingString
        | some c =>
          eat
          if c != byte 'u' then fail .unexpectedEndOfHexEscape
          else
            let n2 ← hexEscape
            if n2 < 0xDC00 || n2 > 0xDFFF then fail .loneLeadingSurrogateInHexEscape
            else pure (encodePoint ((n - 0xD800) * 0x400 + (n2 - 0xDC00) + 0x10000))

/-- Reads an escape after its backslash. -/
def escape : Read ByteArray := do
  match ← next with
  | none => fail .eofWhileParsingString
  | some c =>
    if c == byte '"' || c == byte '\\' || c == byte '/' then pure ⟨#[c]⟩
    else if c == byte 'b' then pure ⟨#[8]⟩
    else if c == byte 'f' then pure ⟨#[12]⟩
    else if c == byte 'n' then pure ⟨#[10]⟩
    else if c == byte 'r' then pure ⟨#[13]⟩
    else if c == byte 't' then pure ⟨#[9]⟩
    else if c == byte 'u' then unicodeEscape
    else fail .invalidEscape

/-- Reads the bytes of a string up to its closing quote. -/
def stringBytes : Nat → ByteArray → Read ByteArray
  | 0, acc => pure acc
  | fuel + 1, acc => do
    match ← peek with
    | none => fail .eofWhileParsingString
    | some c =>
      eat
      if c == byte '"' then pure acc
      else if c == byte '\\' then stringBytes fuel (acc ++ (← escape))
      else if c < 0x20 then fail .controlCharacterWhileParsingString
      else stringBytes fuel (acc.push c)

/-- Reads a string after its opening quote. -/
def string : Read String := do
  let bytes ← stringBytes (← remaining) ByteArray.empty
  return (String.fromUTF8? bytes).getD ""

/-- Skips an escape after its backslash. -/
def skipEscape : Read Unit := do
  match ← next with
  | none => fail .eofWhileParsingString
  | some c =>
    if "\"\\/bfnrt".toList.any (fun d => byte d == c) then pure ()
    else if c == byte 'u' then discard hexEscape
    else fail .invalidEscape

/-- Skips the rest of a string after its opening quote. -/
def skipString : Nat → Read Unit
  | 0 => pure ()
  | fuel + 1 => do
    match ← peek with
    | none => fail .eofWhileParsingString
    | some c =>
      if c == byte '"' then eat
      else if c == byte '\\' then
        eat
        skipEscape
        skipString fuel
      else if c < 0x20 then fail .controlCharacterWhileParsingString
      else
        eat
        skipString fuel

/-! ## Skipping values -/

/-- Closes the containers that end after a value: `frame` is the innermost open one and
`stack` those around it. Gives the container the next value belongs to and the ones around
it, or nothing when the outermost one has closed. -/
def closeFrames : Nat → List UInt8 → UInt8 → Bool → Read (Option (UInt8 × List UInt8))
  | 0, _, _, _ => pure none
  | fuel + 1, stack, frame, acceptComma => do
    let isList := frame == byte '['
    match ← whitespace with
    | none => peekFail (if isList then .eofWhileParsingList else .eofWhileParsingObject)
    | some c =>
      if c == byte ',' && acceptComma then
        eat
        pure (some (frame, stack))
      else if (c == byte ']' && isList) || (c == byte '}' && !isList) then
        eat
        match stack with
        | [] => pure none
        | f :: rest => closeFrames fuel rest f true
      else if acceptComma then
        peekFail (if isList then .expectedListCommaOrEnd else .expectedObjectCommaOrEnd)
      else pure (some (frame, stack))

/-- Skips values without reading them: `enclosing` is the container the next value belongs
to, and `stack` the ones around it. -/
def skipValues : Nat → List UInt8 → Option UInt8 → Read Unit
  | 0, _, _ => pure ()
  | fuel + 1, stack, enclosing => do
    let c ← match ← whitespace with
      | none => peekFail .eofWhileParsingValue
      | some c => pure c
    let opened : Option UInt8 ← do
      if c == byte 'n' then eat; ident ['u', 'l', 'l']; pure none
      else if c == byte 't' then eat; ident ['r', 'u', 'e']; pure none
      else if c == byte 'f' then eat; ident ['a', 'l', 's', 'e']; pure none
      else if c == byte '-' then eat; skipInteger; pure none
      else if isDigit c then skipInteger; pure none
      else if c == byte '"' then eat; skipString (← remaining); pure none
      else if c == byte '[' || c == byte '{' then eat; pure (some c)
      else peekFail .expectedSomeValue
    let stack := if opened.isSome then enclosing.toList ++ stack else stack
    let open? : Option (UInt8 × List UInt8) ← match opened, enclosing with
      | some f, _ => closeFrames (← remaining) stack f false
      | none, some f => closeFrames (← remaining) stack f true
      | none, none =>
        match stack with
        | [] => pure none
        | f :: rest => closeFrames (← remaining) rest f true
    match open? with
    | none => pure ()
    | some (frame, stack) =>
      if frame == byte '{' then
        match ← whitespace with
        | some c => if c == byte '"' then eat else peekFail .keyMustBeAString
        | none => peekFail .eofWhileParsingObject
        skipString (← remaining)
        match ← whitespace with
        | some c => if c == byte ':' then eat else peekFail .expectedColon
        | none => peekFail .eofWhileParsingObject
      skipValues fuel stack (some frame)

/-- Skips one value. -/
def skipValue : Read Unit := do skipValues (← remaining) [] none

/-! ## Sequences and maps -/

/-- Reads the end of a sequence after its last element. -/
def endSeq : Read Unit := do
  match ← whitespace with
  | some c =>
    if c == byte ']' then eat
    else if c == byte ',' then
      eat
      match ← whitespace with
      | some d => if d == byte ']' then peekFail .trailingComma else peekFail .trailingCharacters
      | none => peekFail .trailingCharacters
    else peekFail .expectedListCommaOrEnd
  | none => peekFail .eofWhileParsingList

/-- Reads the end of a map after its last entry. -/
def endMap : Read Unit := do
  match ← whitespace with
  | some c =>
    if c == byte '}' then eat
    else if c == byte ',' then peekFail .trailingComma
    else peekFail .trailingCharacters
  | none => peekFail .eofWhileParsingObject

/-- Whether a sequence has another element, reading the comma before it. -/
def hasNextElement (first : Bool) : Read Bool := do
  match ← whitespace with
  | none => peekFail .eofWhileParsingList
  | some c =>
    if c == byte ']' then pure false
    else if first then pure true
    else if c == byte ',' then
      eat
      match ← whitespace with
      | some d => if d == byte ']' then peekFail .trailingComma else pure true
      | none => peekFail .eofWhileParsingValue
    else peekFail .expectedListCommaOrEnd

/-- Reads the elements of a sequence after its opening bracket. -/
def elements (elem : Read α) : Read (List α) := do
  go (← remaining) true []
where
  /-- The elements from the next one on. -/
  go : Nat → Bool → List α → Read (List α)
    | 0, _, acc => pure acc.reverse
    | fuel + 1, first, acc => do
      if ← hasNextElement first then go fuel false ((← elem) :: acc)
      else pure acc.reverse

/-- Reads the key of the next map entry, reading the comma before it; nothing at the end. -/
def nextKey (first : Bool) : Read (Option String) := do
  let c ← match ← whitespace with
    | none => peekFail .eofWhileParsingObject
    | some c =>
      if c == byte '}' then return none
      else if c == byte ',' && !first then
        eat
        whitespace
      else if first then pure (some c)
      else peekFail .expectedObjectCommaOrEnd
  match c with
  | some c =>
    if c == byte '"' then
      eat
      return some (← string)
    else if c == byte '}' then peekFail .trailingComma
    else peekFail .keyMustBeAString
  | none => peekFail .eofWhileParsingValue

/-- Reads the colon between a key and its value. -/
def objectColon : Read Unit := do
  match ← whitespace with
  | some c => if c == byte ':' then eat else peekFail .expectedColon
  | none => peekFail .eofWhileParsingObject

/-- Reads the entries of a map after its opening brace. -/
def entries (value : Read α) : Read (List (String × α)) := do
  go (← remaining) true []
where
  /-- The entries from the next one on. -/
  go : Nat → Bool → List (String × α) → Read (List (String × α))
    | 0, _, acc => pure acc.reverse
    | fuel + 1, first, acc => do
      match ← nextKey first with
      | none => pure acc.reverse
      | some k =>
        objectColon
        go fuel false ((k, ← value) :: acc)

/-! ## Typed values -/

/-- The error for a value of the wrong type: reads the value at the index and names it. -/
def invalidType (expecting : String) : Read ReadError := do
  let c ← peekOrNull
  let found : String ← do
    if c == byte 'n' then eat; ident ['u', 'l', 'l']; pure "null"
    else if c == byte 't' then eat; ident ['r', 'u', 'e']; pure "boolean `true`"
    else if c == byte 'f' then eat; ident ['a', 'l', 's', 'e']; pure "boolean `false`"
    else if c == byte '-' then eat; pure (← integer true).unexpected
    else if isDigit c then pure (← integer false).unexpected
    else if c == byte '"' then
      eat
      let quoted := quotedLiteral (← string)
      pure s!"string {quoted}"
    else if c == byte '[' then pure "sequence"
    else if c == byte '{' then pure "map"
    else peekFail .expectedSomeValue
  fixPosition (custom s!"invalid type: {found}, expected {expecting}")

/-- Reads a string and hands it to `visit`. -/
def stringWith (expecting : String) (visit : String → Except ReadError α) : Read α := do
  match ← whitespace with
  | none => peekFail .eofWhileParsingValue
  | some c =>
    positioned do
      if c == byte '"' then
        eat
        match visit (← string) with
        | .ok v => pure v
        | .error e => throw e
      else throw (← invalidType expecting)

/-- Reads a number and hands it to `visit`. -/
def numberWith (expecting : String) (visit : Number → Except ReadError α) : Read α := do
  match ← whitespace with
  | none => peekFail .eofWhileParsingValue
  | some c =>
    positioned do
      let n ← if c == byte '-' then do eat; integer true
        else if isDigit c then integer false
        else throw (← invalidType expecting)
      match visit n with
      | .ok v => pure v
      | .error e => throw e

/-- Reads `null`. -/
def unit : Read Unit := do
  match ← whitespace with
  | none => peekFail .eofWhileParsingValue
  | some c =>
    positioned do
      if c == byte 'n' then
        eat
        ident ['u', 'l', 'l']
      else throw (← invalidType "unit")

/-- Reads a binary64 value. -/
def float : Read Float := numberWith "f64" fun n => .ok n.toFloat

/-- Reads a 32-bit unsigned integer. -/
def word32 : Read Nat := numberWith "u32" fun
  | .unsigned n =>
    if n < Nat.pow 2 32 then .ok n else .error (custom s!"invalid value: integer `{n}`, expected u32")
  | .signed i => .error (custom s!"invalid value: integer `{i}`, expected u32")
  | .float x => .error (custom s!"invalid type: floating point `{Float.interchangeText x}`, expected u32")

/-- Reads a string. -/
def text : Read String := stringWith "a string" .ok

/-- Reads a sequence of elements. -/
def seqOf (elem : Read α) : Read (List α) := do
  match ← whitespace with
  | none => peekFail .eofWhileParsingValue
  | some c =>
    positioned do
      if c == byte '[' then
        eat
        let ret ← attempt (elements elem)
        let fin ← attempt endSeq
        firstError ret fin
      else throw (← invalidType "a sequence")

/-- How to read the fields of a record into an accumulator of type `σ`. -/
structure Fields (σ : Type) where
  names : List String
  /-- whether field `i` has been read -/
  present : Nat → σ → Bool
  /-- reads the value of field `i` -/
  field : Nat → σ → Read σ

/-- The record's fields in any order, unknown keys skipped and a repeated key refused. -/
def mapFields {σ : Type} (r : Fields σ) (acc : σ) : Read σ := do
  go (← remaining) true acc
where
  /-- The fields from the next key on. -/
  go : Nat → Bool → σ → Read σ
    | 0, _, acc => pure acc
    | fuel + 1, first, acc => do
      match ← nextKey first with
      | none => pure acc
      | some k =>
        match r.names.idxOf? k with
        | some i =>
          if r.present i acc then raise s!"duplicate field `{k}`"
          else
            objectColon
            go fuel false (← r.field i acc)
        | none =>
          objectColon
          skipValue
          go fuel false acc

/-- The record's fields in order, as a sequence. -/
def seqFields {σ : Type} (r : Fields σ) (expecting : String) (acc : σ) : Read σ :=
  go r.names.length 0 acc
where
  /-- The fields from field `i` on. -/
  go : Nat → Nat → σ → Read σ
    | 0, _, acc => pure acc
    | k + 1, i, acc => do
      if ← hasNextElement (i == 0) then go k (i + 1) (← r.field i acc)
      else
        let n := r.names.length
        let plural := if n == 1 then "" else "s"
        raise s!"invalid length {i}, expected {expecting} with {n} element{plural}"

/-- Reads a record given as a map or as a sequence, and finishes it with `finish`, which
reports missing fields. -/
def record {σ : Type} (expecting : String) (r : Fields σ) (start : σ)
    (finish : σ → Except ReadError α) : Read α := do
  match ← whitespace with
  | none => peekFail .eofWhileParsingValue
  | some c =>
    positioned do
      let done (acc : σ) : Read α := match finish acc with
        | .ok v => pure v
        | .error e => throw e
      if c == byte '[' then
        eat
        let ret ← attempt (do done (← seqFields r expecting start))
        let fin ← attempt endSeq
        firstError ret fin
      else if c == byte '{' then
        eat
        let ret ← attempt (do done (← mapFields r start))
        let fin ← attempt endMap
        firstError ret fin
      else throw (← invalidType expecting)

/-- The error for a missing field. -/
def missingField (name : String) : ReadError := custom s!"missing field `{name}`"

/-- The list of variant names in an error. -/
def oneOf : List String → String
  | [] => "there are no variants"
  | [a] => s!"expected `{a}`"
  | [a, b] => s!"expected `{a}` or `{b}`"
  | names => "expected one of " ++ ", ".intercalate (names.map fun n => s!"`{n}`")

/-- The index of a variant name. -/
def variantIndex (names : List String) (s : String) : Except ReadError Nat :=
  match names.idxOf? s with
  | some i => .ok i
  | none => .error (custom s!"unknown variant `{s}`, {oneOf names}")

/-- Reads a value of an enumeration: a variant name as a string, or a map whose one key is
the variant name. `content i braced` reads the content of variant `i`; `braced` tells
whether there is a value after the name. -/
def variant (names : List String) (content : Nat → Bool → Read α) : Read α := do
  match ← whitespace with
  | none => peekFail .eofWhileParsingValue
  | some c =>
    if c == byte '{' then
      eat
      let i ← stringWith "variant identifier" (variantIndex names)
      objectColon
      let v ← content i true
      match ← whitespace with
      | some d => if d == byte '}' then eat; pure v else fail .expectedSomeValue
      | none => fail .eofWhileParsingObject
    else if c == byte '"' then
      content (← stringWith "variant identifier" (variantIndex names)) false
    else peekFail .expectedSomeValue

/-- The content of a variant that holds nothing. -/
def unitContent (braced : Bool) : Read Unit := if braced then unit else pure ()

/-- The content of a variant that holds one value. -/
def newtypeContent (braced : Bool) (x : Read α) : Read α :=
  if braced then x else raise "invalid type: unit variant, expected newtype variant"

/-- The content of a variant that holds a record. -/
def structContent (braced : Bool) (x : Read α) : Read α :=
  if braced then x else raise "invalid type: unit variant, expected struct variant"

/-- Reads the end of the text: only whitespace may follow. -/
def finish : Read Unit := do
  if (← whitespace).isSome then peekFail .trailingCharacters

/-- Runs a reader on a whole text. -/
def run (x : Read α) (s : String) : Except ReadError α :=
  let (r, _) := StateT.run (ExceptT.run (ReaderT.run (do let v ← x; finish; pure v) s.toUTF8)) 0
  r

end Read

end Json

end TaylorOde
