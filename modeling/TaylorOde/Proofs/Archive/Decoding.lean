import TaylorOde.Proofs.Archive.Utf8
import Mathlib.Algebra.BigOperators.Group.List.Basic
/-!
# Reading the binary archive inverts writing it

Every writer of the archive appends bytes to what it is given (`Appends`): a word its low bytes
(`wordBytes`), a byte sequence or a string its length and its bytes (`bytesEnc`), a sequence
its length and the bytes of each element (`seqEnc`).

A reader decodes a byte list as a value (`Decodes r enc v`) when, run at any position of any
byte array where the bytes from that position start with `enc`, it reads `v` and stops right
after `enc`. Decoding composes along `bind`, so each reader is proved once, from its parts:
words, byte sequences, strings (the UTF-8 check passes every string), and sequences of any
element that its own reader decodes. A length is written in 64 bits, so a byte sequence,
a string or a sequence reads back when its length is below `2 ^ 64`.
-/

namespace TaylorOde

namespace Archive

/-! ## Running a reader -/

section Run

variable {α β : Type} (bytes : ByteArray) (pos : Nat)

@[simp] theorem run_read : ((read : Reader ByteArray).run bytes).run pos = .ok (bytes, pos) := rfl

@[simp] theorem run_get : ((get : Reader Nat).run bytes).run pos = .ok (pos, pos) := rfl

@[simp] theorem run_set (p : Nat) : ((set p : Reader PUnit).run bytes).run pos = .ok (⟨⟩, p) :=
  rfl

@[simp] theorem run_pure (v : α) : ((pure v : Reader α).run bytes).run pos = .ok (v, pos) := rfl

theorem run_bind (x : Reader α) (f : α → Reader β) : ((x >>= f).run bytes).run pos =
    match (x.run bytes).run pos with
    | .ok (a, p) => ((f a).run bytes).run p
    | .error e => .error e := by
  simp only [ReaderT.run_bind, StateT.run_bind]
  rcases (x.run bytes).run pos with e | ⟨a, p⟩ <;> rfl

end Run

/-! ## Writing -/

/-- The `n` low bytes of `x`, least significant first. -/
def wordBytes (x : Nat) : Nat → List UInt8
  | 0 => []
  | n + 1 => (x % 256).toUInt8 :: wordBytes (x / 256) n

@[simp] theorem length_wordBytes (x n : Nat) : (wordBytes x n).length = n := by
  induction n generalizing x with
  | zero => rfl
  | succ n ih => simp [wordBytes, ih]

theorem toNat_wordBytes (x n k : Nat) (hk : k < (wordBytes x n).length) :
    (wordBytes x n)[k].toNat = x / 256 ^ k % 256 := by
  induction n generalizing x k with
  | zero => simp at hk
  | succ n ih =>
    cases k with
    | zero => simp [wordBytes]
    | succ k =>
      simp only [wordBytes, List.getElem_cons_succ]
      rw [ih (x / 256) k (by simpa [wordBytes] using hk), Nat.div_div_eq_div_mul, Nat.pow_succ,
        Nat.mul_comm (256 ^ k)]

/-- Little-endian bytes read back as the number modulo the width. -/
theorem foldr_range_wordBytes : ∀ (n x : Nat) (g : Nat → Nat), (∀ k < n, g k = x / 256 ^ k % 256) →
    (List.range n).foldr (fun i acc => acc * 256 + g i) 0 = x % 256 ^ n
  | 0, x, _, _ => by rw [List.range_zero, List.foldr_nil, Nat.pow_zero, Nat.mod_one]
  | n + 1, x, g, hg => by
    rw [List.range_succ_eq_map, List.foldr_cons, List.foldr_map]
    rw [foldr_range_wordBytes n (x / 256) (fun i => g (i + 1)) fun k hk => by
      rw [hg (k + 1) (by omega), Nat.div_div_eq_div_mul, Nat.pow_succ, Nat.mul_comm (256 ^ k)]]
    rw [hg 0 (by omega), Nat.pow_succ, Nat.mul_comm (256 ^ n), Nat.mod_mul]
    simp only [Nat.pow_zero, Nat.div_one]
    omega

/-- The bytes a writer appends for each value. -/
def Appends {α : Type} (f : ByteArray → α → ByteArray) (enc : α → List UInt8) : Prop :=
  ∀ out x, (f out x).data.toList = out.data.toList ++ enc x

theorem pushWord_data (out : ByteArray) (x n : Nat) :
    (pushWord out x n).data.toList = out.data.toList ++ wordBytes x n := by
  induction n generalizing out x with
  | zero => simp [pushWord, wordBytes]
  | succ n ih => simp [pushWord, wordBytes, ih, ByteArray.data_push]

/-- A byte sequence with its length. -/
def bytesEnc (b : ByteArray) : List UInt8 := wordBytes b.size 8 ++ b.data.toList

/-- A sequence: its length, then each element. -/
def seqEnc {α : Type} (enc : α → List UInt8) (xs : List α) : List UInt8 :=
  wordBytes xs.length 8 ++ xs.flatMap enc

@[simp] theorem length_bytesEnc (b : ByteArray) : (bytesEnc b).length = 8 + b.size := by
  simp [bytesEnc]

/-- A sequence of elements written with one byte at least each has no more elements than bytes. -/
theorem length_le_length_flatMap {α : Type} {enc : α → List UInt8} {xs : List α}
    (h : ∀ x ∈ xs, enc x ≠ []) : xs.length ≤ (xs.flatMap enc).length := by
  have hsum := List.length_le_sum_of_one_le (xs.map fun x => (enc x).length) fun n hn => by
    obtain ⟨x, hx, rfl⟩ := List.mem_map.1 hn
    exact List.length_pos_iff.2 (h x hx)
  rwa [List.length_map, ← List.length_flatMap] at hsum

theorem length_le_length_flatMap_of_mem {α : Type} {enc : α → List UInt8} {xs : List α} {x : α}
    (hx : x ∈ xs) : (enc x).length ≤ (xs.flatMap enc).length := by
  rw [List.flatMap_def]
  exact (List.infix_of_mem_flatten (List.mem_map_of_mem hx)).length_le

theorem appends_pushBytes : Appends pushBytes bytesEnc := fun out b => by
  simp [pushBytes, pushU64, pushWord_data, bytesEnc]

theorem appends_pushString : Appends pushString (fun s => bytesEnc s.toUTF8) := fun out s => by
  simp only [pushString, appends_pushBytes out]

theorem pushSeq_data {α : Type} {f : ByteArray → α → ByteArray} {enc : α → List UInt8}
    (hf : Appends f enc) (out : ByteArray) (xs : List α) :
    (pushSeq out xs f).data.toList = out.data.toList ++ seqEnc enc xs := by
  -- the fold appends one element at a time to the length word
  have hfold : ∀ (ys : List α) (acc : ByteArray),
      (ys.foldl f acc).data.toList = acc.data.toList ++ ys.flatMap enc := by
    intro ys
    induction ys with
    | nil => simp
    | cons y ys ih => intro acc; simp [ih, hf acc y]
  simp [pushSeq, hfold, pushU64, pushWord_data, seqEnc]

/-! ## Reading -/

/-- `r` reads `v` from the bytes `enc`: run at a position where the bytes start with `enc`, it
reads `v` and stops right after them. -/
def Decodes {α : Type} (r : Reader α) (enc : List UInt8) (v : α) : Prop :=
  ∀ (bytes : ByteArray) (pos : Nat) (rest : List UInt8), pos ≤ bytes.size →
    bytes.data.toList.drop pos = enc ++ rest → (r.run bytes).run pos = .ok (v, pos + enc.length)

section Decodes

variable {α β : Type}

theorem Decodes.pure (v : α) : Decodes (pure v) [] v := fun _ _ _ _ _ => rfl

theorem Decodes.bind {r : Reader α} {f : α → Reader β} {e₁ e₂ : List UInt8} {v : α} {w : β}
    (h₁ : Decodes r e₁ v) (h₂ : Decodes (f v) e₂ w) : Decodes (r >>= f) (e₁ ++ e₂) w := by
  intro bytes pos rest hpos h
  rw [List.append_assoc] at h
  have hr := h₁ bytes pos (e₂ ++ rest) hpos h
  have hf := h₂ bytes (pos + e₁.length) rest (add_length_le_size hpos h)
    (by rw [← List.drop_drop, h, List.drop_left])
  rw [run_bind, hr]
  exact hf.trans (by rw [Nat.add_assoc, List.length_append])

/-- A reader run over exactly the bytes it decodes, and possibly more, returns its value. -/
theorem Decodes.run' {r : Reader α} {enc : List UInt8} {v : α} (h : Decodes r enc v)
    {bytes : ByteArray} {rest : List UInt8} (hb : bytes.data.toList = enc ++ rest) :
    r.run' bytes = .ok v := by
  have hrun := h bytes 0 rest (Nat.zero_le _) (by rw [List.drop_zero, hb])
  unfold Reader.run'
  show Prod.fst <$> (ReaderT.run r bytes).run 0 = _
  rw [hrun]
  rfl

theorem decodes_readWord (x n : Nat) : Decodes (readWord n) (wordBytes x n) (x % 256 ^ n) := by
  intro bytes pos rest hpos h
  have hsize := add_length_le_size hpos h
  rw [length_wordBytes] at hsize ⊢
  simp only [readWord, run_bind, run_read, run_get, run_set, run_pure,
    if_neg (Nat.not_lt.2 hsize)]
  rw [foldr_range_wordBytes n x _ fun k hk => by
    rw [toNat_get!_of_drop h (by simpa using hk), toNat_wordBytes]]

theorem decodes_readU64 {x : Nat} (hx : x < 2 ^ 64) : Decodes readU64 (wordBytes x 8) x := by
  have h := decodes_readWord x 8
  rwa [show (256 : Nat) ^ 8 = 2 ^ 64 from rfl, Nat.mod_eq_of_lt hx] at h

/-- The bytes of an array that start where the bytes of another do. -/
theorem extract_of_drop {bytes b : ByteArray} {pos : Nat} {rest : List UInt8}
    (h : bytes.data.toList.drop pos = b.data.toList ++ rest) :
    bytes.extract pos (pos + b.size) = b := by
  apply ByteArray.ext
  apply Array.toList_inj.1
  rw [ByteArray.data_extract, Array.toList_extract, List.extract_eq_take_drop, h,
    Nat.add_sub_cancel_left, ← ByteArray.size_data, ← Array.length_toList, List.take_left]

theorem decodes_readBytes {b : ByteArray} (hb : b.size < 2 ^ 64) :
    Decodes readBytes (bytesEnc b) b := by
  intro bytes pos rest hpos h
  rw [bytesEnc, List.append_assoc] at h
  have hword := decodes_readU64 hb bytes pos _ hpos h
  have hdrop : bytes.data.toList.drop (pos + 8) = b.data.toList ++ rest := by
    rw [← List.drop_drop, h, List.drop_left' (length_wordBytes _ _)]
  have hsize := add_length_le_size (add_length_le_size hpos h) hdrop
  rw [length_wordBytes, Array.length_toList, ByteArray.size_data] at hsize
  simp only [readBytes, run_bind, hword, length_wordBytes, run_read, run_get, run_set, run_pure,
    if_neg (Nat.not_lt.2 hsize), extract_of_drop hdrop]
  simp [bytesEnc, Nat.add_assoc]

theorem fromUTF8?_toUTF8 (s : String) : (String.fromUTF8? s.toUTF8).getD "" = s := by
  rw [String.toUTF8_eq_toByteArray, String.fromUTF8?, dif_pos s.isValidUTF8]
  rfl

theorem decodes_readString {s : String} (hs : s.toUTF8.size < 2 ^ 64) :
    Decodes readString (bytesEnc s.toUTF8) s := by
  rw [← List.append_nil (bytesEnc s.toUTF8)]
  refine (decodes_readBytes hs).bind ?_
  simp only [utf8Check_toUTF8, fromUTF8?_toUTF8]
  exact Decodes.pure s

theorem decodes_readMany {r : Reader α} {enc : α → List UInt8} :
    ∀ (xs : List α), (∀ x ∈ xs, Decodes r (enc x) x) →
      Decodes (readMany r xs.length) (xs.flatMap enc) xs
  | [], _ => Decodes.pure []
  | x :: xs, h => by
    rw [List.flatMap_cons, ← List.append_nil (List.flatMap enc xs)]
    exact (h x (List.mem_cons_self ..)).bind
      ((decodes_readMany xs fun y hy => h y (List.mem_cons_of_mem x hy)).bind (Decodes.pure _))

/-- A sequence reads back when each element does from bytes of its own. -/
theorem decodes_readSeq {r : Reader α} {enc : α → List UInt8} {xs : List α}
    (hlen : xs.length < 2 ^ 64) (h : ∀ x ∈ xs, Decodes r (enc x) x ∧ enc x ≠ []) :
    Decodes (readSeq r) (seqEnc enc xs) xs := by
  intro bytes pos rest hpos hdrop
  rw [seqEnc, List.append_assoc] at hdrop
  have hword := decodes_readU64 hlen bytes pos _ hpos hdrop
  have hdrop' : bytes.data.toList.drop (pos + 8) = xs.flatMap enc ++ rest := by
    rw [← List.drop_drop, hdrop, List.drop_left' (length_wordBytes _ _)]
  have hpos' := add_length_le_size hpos hdrop
  rw [length_wordBytes] at hpos'
  -- every element takes a byte at least, so the remaining bytes hold the announced count
  have hcount := length_le_length_flatMap fun x hx => (h x hx).2
  have hroom := add_length_le_size hpos' hdrop'
  have hmany := decodes_readMany xs (fun x hx => (h x hx).1) bytes (pos + 8) rest hpos' hdrop'
  simp only [readSeq, run_bind, hword, length_wordBytes, run_read, run_get,
    if_neg (show ¬ bytes.size - (pos + 8) < xs.length by omega)]
  rw [hmany, seqEnc, List.length_append, length_wordBytes, Nat.add_assoc]

end Decodes

end Archive

end TaylorOde
