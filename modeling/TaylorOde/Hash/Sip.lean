/-!
# SipHash-1-3

The keyed hash SipHash with one compression round per message word and three finalisation
rounds, here always with the key `(0, 0)`. Messages are byte strings; integers are fed as
their little-endian bytes, so a message is built by appending fields to a `ByteArray`.
-/

namespace TaylorOde.Sip

/-- The four words of the hash state. -/
structure State where
  v0 : UInt64
  v1 : UInt64
  v2 : UInt64
  v3 : UInt64

/-- Rotation of a word to the left. -/
def rotl (x : UInt64) (b : UInt64) : UInt64 := (x <<< b) ||| (x >>> (64 - b))

/-- One SipRound. -/
def State.round (s : State) : State :=
  let v0 := s.v0 + s.v1
  let v1 := rotl s.v1 13 ^^^ v0
  let v0 := rotl v0 32
  let v2 := s.v2 + s.v3
  let v3 := rotl s.v3 16 ^^^ v2
  let v0 := v0 + v3
  let v3 := rotl v3 21 ^^^ v0
  let v2 := v2 + v1
  let v1 := rotl v1 17 ^^^ v2
  let v2 := rotl v2 32
  ⟨v0, v1, v2, v3⟩

/-- The state for the key `(k0, k1)`. -/
def State.init (k0 k1 : UInt64) : State :=
  ⟨k0 ^^^ 0x736f6d6570736575, k1 ^^^ 0x646f72616e646f6d,
   k0 ^^^ 0x6c7967656e657261, k1 ^^^ 0x7465646279746573⟩

/-- Absorbs one message word with one compression round. -/
def State.absorb (s : State) (m : UInt64) : State :=
  let s := { s with v3 := s.v3 ^^^ m }.round
  { s with v0 := s.v0 ^^^ m }

/-- The little-endian word of the bytes `i … i + n - 1` of `bytes` (`n ≤ 8`). -/
def wordAt (bytes : ByteArray) (i n : Nat) : UInt64 :=
  (List.range n).foldl
    (fun acc j => acc ||| ((bytes.get! (i + j)).toUInt64 <<< (8 * j).toUInt64)) 0

/-- SipHash-1-3 of a byte string under the key `(0, 0)`. -/
def hash13 (bytes : ByteArray) : UInt64 :=
  let n := bytes.size
  let words := n / 8
  let s := (List.range words).foldl (fun s w => s.absorb (wordAt bytes (8 * w) 8))
    (State.init 0 0)
  let last := (n.toUInt64 <<< 56) ||| wordAt bytes (8 * words) (n % 8)
  let s := s.absorb last
  let s := { s with v2 := s.v2 ^^^ 0xff }.round.round.round
  s.v0 ^^^ s.v1 ^^^ s.v2 ^^^ s.v3

/-- Appends the low `n` bytes of a word, least significant first. -/
def appendLE (b : ByteArray) (x : UInt64) (n : Nat) : ByteArray :=
  (List.range n).foldl (fun b j => b.push (x >>> (8 * j).toUInt64).toUInt8) b

end TaylorOde.Sip
