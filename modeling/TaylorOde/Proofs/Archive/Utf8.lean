import TaylorOde.Archive.Binary
/-!
# The UTF-8 check passes the bytes of every string

`utf8Check` walks a byte sequence one encoded character at a time. From a lead byte it accepts
exactly the well-formed byte sequences of UTF-8 (the table of well-formed sequences of the
Unicode standard, section 3.9): one byte below `0x80`; a lead byte `C2`–`DF` and one
continuation byte; `E0`–`EF` and two, the second restricted after `E0` (no overlong form) and
after `ED` (no surrogate); `F0`–`F4` and three, the second restricted after `F0` (no overlong
form) and after `F4` (nothing past `U+10FFFF`). `go_one` to `go_four` say that the check steps
over each such sequence.

The bytes of a string are the encodings of its characters (`String.utf8EncodeChar`), and the
encoding of every character is a well-formed sequence (`go_utf8EncodeChar`), so the check passes
over the bytes of every string (`utf8Check_toUTF8`).

Bytes are located through the list of the array: `bytes.data.toList.drop pos = w ++ rest` says
that the bytes from `pos` on start with `w`.
-/

namespace TaylorOde

namespace Archive

/-! ## Bytes at a position -/

theorem lt_size_of_drop {b : ByteArray} {pos : Nat} {w rest : List UInt8}
    (h : b.data.toList.drop pos = w ++ rest) {k : Nat} (hk : k < w.length) : pos + k < b.size := by
  have hlen := congrArg List.length h
  rw [List.length_drop, Array.length_toList, List.length_append] at hlen
  rw [← ByteArray.size_data]
  omega

/-- Bytes that start at a position within the array lie within it. -/
theorem add_length_le_size {b : ByteArray} {pos : Nat} {w rest : List UInt8}
    (hpos : pos ≤ b.size) (h : b.data.toList.drop pos = w ++ rest) : pos + w.length ≤ b.size := by
  have hlen := congrArg List.length h
  rw [List.length_drop, Array.length_toList, List.length_append] at hlen
  rw [← ByteArray.size_data] at hpos ⊢
  omega

theorem get!_of_drop {b : ByteArray} {pos : Nat} {w rest : List UInt8}
    (h : b.data.toList.drop pos = w ++ rest) {k : Nat} (hk : k < w.length) :
    b.get! (pos + k) = w[k] := by
  have hk' : (b.data.toList.drop pos)[k]? = some w[k] := by
    rw [h, List.getElem?_append_left hk, List.getElem?_eq_getElem hk]
  rw [List.getElem?_drop, Array.getElem?_toList] at hk'
  obtain ⟨data⟩ := b
  rw [ByteArray.get!, getElem!_def, hk']

theorem toNat_get!_of_drop {b : ByteArray} {pos : Nat} {w rest : List UInt8}
    (h : b.data.toList.drop pos = w ++ rest) {k : Nat} (hk : k < w.length) :
    (b.get! (pos + k)).toNat = w[k].toNat := by
  rw [get!_of_drop h hk]

/-! ## Well-formed sequences -/

set_option maxRecDepth 2048 in
/-- A continuation byte is one of `80`–`BF`. -/
theorem isContinuation_eq (x : UInt8) :
    isContinuation x = decide (0x80 ≤ x.toNat ∧ x.toNat ≤ 0xBF) := by
  have h : ∀ n < 256, isContinuation (UInt8.ofNat n) = decide (0x80 ≤ n ∧ n ≤ 0xBF) := by
    decide
  have hx := h x.toNat x.toNat_lt
  rwa [UInt8.ofNat_toNat] at hx

section Sequences

variable {b : ByteArray} {i fuel f s t u : Nat}

theorem go_one (hi : i < b.size) (h0 : (b.get! i).toNat = f) (hf : f < 0x80) :
    utf8Check.go b i (fuel + 1) = utf8Check.go b (i + 1) fuel := by
  rw [utf8Check.go]
  simp only [if_neg (show ¬ b.size ≤ i by omega), UInt8.lt_iff_toNat_lt, h0,
    UInt8.toNat_ofNat, Nat.reducePow, Nat.reduceMod]
  simp (disch := omega) only [if_pos]

theorem go_two (hi : i + 1 < b.size) (h0 : (b.get! i).toNat = f)
    (h1 : (b.get! (i + 1)).toNat = s) (hf : 0xC2 ≤ f ∧ f ≤ 0xDF) (hs : 0x80 ≤ s ∧ s ≤ 0xBF) :
    utf8Check.go b i (fuel + 1) = utf8Check.go b (i + 2) fuel := by
  rw [utf8Check.go]
  simp only [if_neg (show ¬ b.size ≤ i by omega), if_pos hi, isContinuation_eq,
    UInt8.lt_iff_toNat_lt, UInt8.le_iff_toNat_le, h0, h1, UInt8.toNat_ofNat, Nat.reducePow,
    Nat.reduceMod, decide_eq_true_eq, Bool.and_eq_true, Bool.not_eq_true',
    decide_eq_false_iff_not, ↓reduceIte]
  simp (disch := omega) only [if_pos, if_neg]

theorem go_three (hi : i + 2 < b.size) (h0 : (b.get! i).toNat = f)
    (h1 : (b.get! (i + 1)).toNat = s) (h2 : (b.get! (i + 2)).toNat = t)
    (hf : 0xE0 ≤ f ∧ f ≤ 0xEF) (hs : 0x80 ≤ s ∧ s ≤ 0xBF) (hE0 : f = 0xE0 → 0xA0 ≤ s)
    (hED : f = 0xED → s ≤ 0x9F) (ht : 0x80 ≤ t ∧ t ≤ 0xBF) :
    utf8Check.go b i (fuel + 1) = utf8Check.go b (i + 3) fuel := by
  rw [utf8Check.go]
  simp only [if_neg (show ¬ b.size ≤ i by omega), if_pos (show i + 1 < b.size by omega),
    if_pos hi, isContinuation_eq, UInt8.lt_iff_toNat_lt, UInt8.le_iff_toNat_le, beq_iff_eq,
    ← UInt8.toNat_inj, h0, h1, h2, UInt8.toNat_ofNat, Nat.reducePow, Nat.reduceMod,
    decide_eq_true_eq, Bool.and_eq_true, Bool.not_eq_true', Bool.and_eq_false_iff,
    decide_eq_false_iff_not, ↓reduceIte]
  -- the lead bytes with a restricted second byte, and the others
  rcases (by omega : f = 0xE0 ∨ f = 0xED ∨ (f ≠ 0xE0 ∧ f ≠ 0xED)) with hf' | hf' | hf'
  all_goals simp (disch := omega) only [if_pos, if_neg, ite_self]

theorem go_four (hi : i + 3 < b.size) (h0 : (b.get! i).toNat = f)
    (h1 : (b.get! (i + 1)).toNat = s) (h2 : (b.get! (i + 2)).toNat = t)
    (h3 : (b.get! (i + 3)).toNat = u) (hf : 0xF0 ≤ f ∧ f ≤ 0xF4) (hs : 0x80 ≤ s ∧ s ≤ 0xBF)
    (hF0 : f = 0xF0 → 0x90 ≤ s) (hF4 : f = 0xF4 → s ≤ 0x8F) (ht : 0x80 ≤ t ∧ t ≤ 0xBF)
    (hu : 0x80 ≤ u ∧ u ≤ 0xBF) :
    utf8Check.go b i (fuel + 1) = utf8Check.go b (i + 4) fuel := by
  rw [utf8Check.go]
  simp only [if_neg (show ¬ b.size ≤ i by omega), if_pos (show i + 1 < b.size by omega),
    if_pos (show i + 2 < b.size by omega), if_pos hi, isContinuation_eq, UInt8.lt_iff_toNat_lt,
    UInt8.le_iff_toNat_le, beq_iff_eq, ← UInt8.toNat_inj, h0, h1, h2, h3, UInt8.toNat_ofNat,
    Nat.reducePow, Nat.reduceMod, decide_eq_true_eq, Bool.and_eq_true, Bool.not_eq_true',
    Bool.and_eq_false_iff, decide_eq_false_iff_not, ↓reduceIte]
  rcases (by omega : f = 0xF0 ∨ f = 0xF4 ∨ (f ≠ 0xF0 ∧ f ≠ 0xF4)) with hf' | hf' | hf'
  all_goals simp (disch := omega) only [if_pos, if_neg]

end Sequences

/-! ## Encoded characters -/

/-- The check steps over the encoding of a character. -/
theorem go_utf8EncodeChar {b : ByteArray} {i : Nat} (fuel : Nat) {c : Char} {rest : List UInt8}
    (h : b.data.toList.drop i = String.utf8EncodeChar c ++ rest) :
    utf8Check.go b i (fuel + 1) = utf8Check.go b (i + (String.utf8EncodeChar c).length) fuel := by
  have hvalid : c.val.toNat < 0xd800 ∨ 0xdfff < c.val.toNat ∧ c.val.toNat < 0x110000 := c.valid
  -- one case per length of the encoding
  by_cases h1 : c.val.toNat ≤ 0x7f
  · rw [show String.utf8EncodeChar c = [UInt8.ofNat c.val.toNat] by
      simp only [String.utf8EncodeChar, h1, ↓reduceIte]] at h ⊢
    have h0 := toNat_get!_of_drop h (k := 0) (by simp)
    simp only [Nat.add_zero, List.getElem_cons_zero, UInt8.toNat_ofNat'] at h0
    exact go_one (lt_size_of_drop h (k := 0) (by simp)) h0 (by omega)
  by_cases h2 : c.val.toNat ≤ 0x7ff
  · rw [show String.utf8EncodeChar c = [UInt8.ofNat (c.val.toNat / 64 % 32 + 0xc0),
        UInt8.ofNat (c.val.toNat % 64 + 0x80)] by
      simp only [String.utf8EncodeChar, h1, h2, ↓reduceIte]] at h ⊢
    have h0 := toNat_get!_of_drop h (k := 0) (by simp)
    have h1 := toNat_get!_of_drop h (k := 1) (by simp)
    simp only [Nat.add_zero, List.getElem_cons_zero, List.getElem_cons_succ,
      UInt8.toNat_ofNat'] at h0 h1
    exact go_two (lt_size_of_drop h (k := 1) (by simp)) h0 h1 (by omega) (by omega)
  by_cases h3 : c.val.toNat ≤ 0xffff
  · rw [show String.utf8EncodeChar c = [UInt8.ofNat (c.val.toNat / 4096 % 16 + 0xe0),
        UInt8.ofNat (c.val.toNat / 64 % 64 + 0x80), UInt8.ofNat (c.val.toNat % 64 + 0x80)] by
      simp only [String.utf8EncodeChar, h1, h2, h3, ↓reduceIte]] at h ⊢
    have h0 := toNat_get!_of_drop h (k := 0) (by simp)
    have h1 := toNat_get!_of_drop h (k := 1) (by simp)
    have h2 := toNat_get!_of_drop h (k := 2) (by simp)
    simp only [Nat.add_zero, List.getElem_cons_zero, List.getElem_cons_succ,
      UInt8.toNat_ofNat'] at h0 h1 h2
    -- after `E0` no overlong form, after `ED` no surrogate
    exact go_three (lt_size_of_drop h (k := 2) (by simp)) h0 h1 h2 (by omega) (by omega)
      (by omega) (by omega) (by omega)
  · rw [show String.utf8EncodeChar c = [UInt8.ofNat (c.val.toNat / 262144 % 8 + 0xf0),
        UInt8.ofNat (c.val.toNat / 4096 % 64 + 0x80), UInt8.ofNat (c.val.toNat / 64 % 64 + 0x80),
        UInt8.ofNat (c.val.toNat % 64 + 0x80)] by
      simp only [String.utf8EncodeChar, h1, h2, h3, ↓reduceIte]] at h ⊢
    have h0 := toNat_get!_of_drop h (k := 0) (by simp)
    have h1 := toNat_get!_of_drop h (k := 1) (by simp)
    have h2 := toNat_get!_of_drop h (k := 2) (by simp)
    have h3 := toNat_get!_of_drop h (k := 3) (by simp)
    simp only [Nat.add_zero, List.getElem_cons_zero, List.getElem_cons_succ,
      UInt8.toNat_ofNat'] at h0 h1 h2 h3
    -- after `F0` no overlong form, after `F4` nothing past the last scalar value
    exact go_four (lt_size_of_drop h (k := 3) (by simp)) h0 h1 h2 h3 (by omega) (by omega)
      (by omega) (by omega) (by omega) (by omega)

/-- The check passes over the encoding of a list of characters. -/
theorem go_utf8Encode {b : ByteArray} :
    ∀ (chars : List Char) (i fuel : Nat), b.data.toList.drop i = chars.flatMap String.utf8EncodeChar →
      utf8Check.go b i fuel = none
  | _, _, 0, _ => by rw [utf8Check.go]
  | [], i, fuel + 1, h => by
    have hend : b.size ≤ i := by
      have hlen := congrArg List.length h
      rw [List.length_drop, Array.length_toList] at hlen
      simp only [List.flatMap_nil, List.length_nil] at hlen
      rw [← ByteArray.size_data]
      omega
    rw [utf8Check.go, if_pos hend]
  | c :: chars, i, fuel + 1, h => by
    rw [List.flatMap_cons] at h
    rw [go_utf8EncodeChar fuel h]
    exact go_utf8Encode chars _ fuel (by rw [← List.drop_drop, h, List.drop_left])

/-- The bytes of every string pass the UTF-8 check. -/
theorem utf8Check_toUTF8 (s : String) : utf8Check s.toUTF8 = none := by
  obtain ⟨chars, hchars⟩ := s.isValidUTF8
  rw [utf8Check, String.toUTF8_eq_toByteArray]
  apply go_utf8Encode chars
  rw [hchars, List.drop_zero, List.utf8Encode, List.data_toByteArray, List.toList_toArray]

end Archive

end TaylorOde
