/-!
# A little-endian binary archive format

Values are written as a flat byte sequence with no framing:

* fixed-width unsigned integers (8, 32 and 64 bits) and IEEE floats by their bit patterns,
  little-endian;
* a string or byte sequence as its length in 64 bits followed by its bytes, a sequence as its
  length in 64 bits followed by its elements;
* an enumeration as the 32-bit index of its variant followed by the variant's fields, an
  optional value as the byte `0`, or the byte `1` followed by the value, a boolean as one
  byte `0` or `1`;
* a record or a tuple as its fields in order.

Reading is the inverse, with the failures a reader of this format reports: running out of
bytes, a string that is not UTF-8, a variant index out of range, an option or boolean byte
other than `0` and `1`, and failures of validation of the value read.
-/

namespace TaylorOde

namespace Archive

/-! ## Writing -/

/-- Appends the `n` low bytes of `x`, least significant first. -/
def pushWord (out : ByteArray) (x : Nat) : Nat → ByteArray
  | 0 => out
  | n + 1 => pushWord (out.push (x % 256).toUInt8) (x / 256) n

/-- Appends one byte. -/
def pushU8 (out : ByteArray) (x : Nat) : ByteArray := pushWord out x 1

/-- Appends a 32-bit word. -/
def pushU32 (out : ByteArray) (x : Nat) : ByteArray := pushWord out x 4

/-- Appends a 64-bit word. -/
def pushU64 (out : ByteArray) (x : Nat) : ByteArray := pushWord out x 8

/-- Appends a binary64 value by its bits. -/
def pushF64 (out : ByteArray) (x : Float) : ByteArray := pushU64 out x.toBits.toNat

/-- Appends a binary32 value by its bits. -/
def pushF32 (out : ByteArray) (x : Float32) : ByteArray := pushU32 out x.toBits.toNat

/-- Appends a byte sequence with its length. -/
def pushBytes (out : ByteArray) (b : ByteArray) : ByteArray := pushU64 out b.size ++ b

/-- Appends a string as its UTF-8 bytes with their length. -/
def pushString (out : ByteArray) (s : String) : ByteArray := pushBytes out s.toUTF8

/-- Appends a boolean. -/
def pushBool (out : ByteArray) (b : Bool) : ByteArray := pushU8 out (if b then 1 else 0)

/-- Appends a sequence: its length, then each element. -/
def pushSeq {α : Type} (out : ByteArray) (xs : List α) (f : ByteArray → α → ByteArray) :
    ByteArray :=
  xs.foldl f (pushU64 out xs.length)

/-- Appends an optional value. -/
def pushOption {α : Type} (out : ByteArray) (x : Option α) (f : ByteArray → α → ByteArray) :
    ByteArray :=
  match x with
  | none => pushU8 out 0
  | some v => f (pushU8 out 1) v

/-! ## Reading -/

/-- Why a byte sequence does not read as a value. -/
inductive ReadError where
  /-- the bytes ended inside a value -/
  | endOfInput
  /-- a string is not UTF-8; the detail says where -/
  | badUtf8 (detail : String)
  /-- a variant index is not below the number of variants -/
  | badVariant (value count : Nat)
  /-- an option byte is neither `0` nor `1` -/
  | badOption (value : Nat)
  /-- a boolean byte is neither `0` nor `1` -/
  | badBool (value : Nat)
  /-- the value read failed validation -/
  | invalid (message : String)
  deriving Repr, BEq

namespace ReadError

/-- The text of a read failure. -/
def text : ReadError → String
  | .endOfInput => "io error: unexpected end of file"
  | .badUtf8 d => s!"string is not valid utf8: {d}"
  | .badVariant v n =>
    "invalid value: integer " ++ "\x60" ++ toString v ++ "\x60" ++
      s!", expected variant index 0 <= i < {n}"
  | .badOption v => s!"tag for enum is not valid, found {v}"
  | .badBool v => s!"invalid u8 while decoding bool, expected 0 or 1, found {v}"
  | .invalid m => m

end ReadError

/-- A reader over a byte sequence: the position read up to, or a failure. -/
abbrev Reader := ReaderT ByteArray (StateT Nat (Except ReadError))

/-- Runs a reader from the start of the bytes; trailing bytes are ignored. -/
def Reader.run' {α : Type} (r : Reader α) (bytes : ByteArray) : Except ReadError α :=
  (ReaderT.run r bytes).run' 0

/-- Reads `n` bytes as a little-endian number. -/
def readWord (n : Nat) : Reader Nat := do
  let bytes ← read
  let pos ← get
  if bytes.size < pos + n then throw .endOfInput
  set (pos + n)
  return (List.range n).foldr (fun i acc => acc * 256 + (bytes.get! (pos + i)).toNat) 0

/-- Reads one byte. -/
def readU8 : Reader Nat := readWord 1

/-- Reads a 32-bit word. -/
def readU32 : Reader Nat := readWord 4

/-- Reads a 64-bit word. -/
def readU64 : Reader Nat := readWord 8

/-- Reads a binary64 value. -/
def readF64 : Reader Float := do return Float.ofBits (← readU64).toUInt64

/-- Reads a binary32 value. -/
def readF32 : Reader Float32 := do return Float32.ofBits (← readU32).toUInt32

/-- Reads a boolean. -/
def readBool : Reader Bool := do
  match ← readU8 with
  | 0 => return false
  | 1 => return true
  | v => throw (.badBool v)

/-- Reads a variant index below `count`. -/
def readVariant (count : Nat) : Reader Nat := do
  let v ← readU32
  if v < count then return v else throw (.badVariant v count)

/-- Reads the bytes of a length-prefixed byte sequence. -/
def readBytes : Reader ByteArray := do
  let n ← readU64
  let bytes ← read
  let pos ← get
  if bytes.size < pos + n then throw .endOfInput
  set (pos + n)
  return bytes.extract pos (pos + n)

/-- Whether a byte continues a UTF-8 sequence. -/
def isContinuation (b : UInt8) : Bool := b &&& 0xC0 == 0x80

/-- Checks that bytes are UTF-8. A failure names the start of the first bad sequence, and
the length of its longest valid prefix plus one, or that the bytes end inside it. -/
def utf8Check (b : ByteArray) : Option String :=
  go 0 (b.size + 1)
where
  /-- Checks from position `i`; `fuel` bounds the number of characters. -/
  go (i : Nat) : Nat → Option String
    | 0 => none
    | fuel + 1 =>
      if b.size ≤ i then none
      else
        let byteAt (k : Nat) : Option UInt8 := if i + k < b.size then some (b.get! (i + k)) else none
        let bad (n : Nat) := some s!"invalid utf-8 sequence of {n} bytes from index {i}"
        let short := some s!"incomplete utf-8 byte sequence from index {i}"
        let first := b.get! i
        let second (ok : UInt8 → Bool) (width : Nat) : Option String :=
          match byteAt 1 with
          | none => short
          | some s =>
            if !ok s then bad 1
            else if width = 2 then go (i + 2) fuel
            else match byteAt 2 with
              | none => short
              | some t =>
                if !isContinuation t then bad 2
                else if width = 3 then go (i + 3) fuel
                else match byteAt 3 with
                  | none => short
                  | some u => if !isContinuation u then bad 3 else go (i + 4) fuel
        if first < 0x80 then go (i + 1) fuel
        else if 0xC2 ≤ first && first ≤ 0xDF then second isContinuation 2
        else if first == 0xE0 then second (fun s => 0xA0 ≤ s && s ≤ 0xBF) 3
        else if 0xE1 ≤ first && first ≤ 0xEC then second isContinuation 3
        else if first == 0xED then second (fun s => 0x80 ≤ s && s ≤ 0x9F) 3
        else if 0xEE ≤ first && first ≤ 0xEF then second isContinuation 3
        else if first == 0xF0 then second (fun s => 0x90 ≤ s && s ≤ 0xBF) 4
        else if 0xF1 ≤ first && first ≤ 0xF3 then second isContinuation 4
        else if first == 0xF4 then second (fun s => 0x80 ≤ s && s ≤ 0x8F) 4
        else bad 1

/-- Reads a length-prefixed UTF-8 string. -/
def readString : Reader String := do
  let b ← readBytes
  match utf8Check b with
  | some d => throw (.badUtf8 d)
  | none => return (String.fromUTF8? b).getD ""

/-- Reads an optional value. -/
def readOption {α : Type} (r : Reader α) : Reader (Option α) := do
  match ← readU8 with
  | 0 => return none
  | 1 => return some (← r)
  | v => throw (.badOption v)

/-- Reads `n` values in order. -/
def readMany {α : Type} (r : Reader α) : Nat → Reader (List α)
  | 0 => return []
  | n + 1 => do
    let x ← r
    return x :: (← readMany r n)

/-- Reads a length-prefixed sequence. Every element needs at least one byte, so a length
beyond the remaining bytes fails as the bytes run out. -/
def readSeq {α : Type} (r : Reader α) : Reader (List α) := do
  let n ← readU64
  let bytes ← read
  let pos ← get
  if bytes.size - pos < n then
    -- the elements would run out of bytes; read what is there to find where
    let _ ← readMany r (bytes.size - pos + 1)
    throw .endOfInput
  readMany r n

end Archive

end TaylorOde
