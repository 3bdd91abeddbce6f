import TaylorOde.Binary.Exact
import TaylorOde.Proofs.Expr.Binary64
import Mathlib
/-!
# Rounding to binary32 twice

`Float.roundToBinary32` narrows a binary64 word to binary32 and widens it back, both through
`BinaryFormat.convert`: the exact value of the datum, encoded once in the other format. Rounding a
second time changes nothing (`roundToBinary32_roundToBinary32`), and a number never rounds to
NaN (`isNaN_roundToBinary32`). This is what makes a folded literal of a binary32 sum fold to
itself again.

## Shape of the proof

* `encode` depends on the value only: shifting a significand up by `k` bits and its exponent down
  by `k` encodes alike (`encode_mul_two_pow`), and a significand that needs no rounding at its own
  exponent is stored as it is (`encode_of_quantum`).
* Every binary32 datum is a binary64 datum: widening shifts its significand up to 53 bits
  (`decode_encode64`), and narrowing shifts it back down and re-encodes the word it came from
  (`encode_decode32`, `narrow_widen`).
* Narrowing gives a binary32 word that is no NaN unless the input was one (`encode32_word`,
  `narrow_word`); widening a word likewise (`widen_word`).
* Between the bits and the float model, a word that is no NaN other than the quiet one is read
  back as it was written (`toBits_ofBits_of_word`), and a float is NaN exactly when its word
  decodes to NaN (`isNaN_ofBits_iff`).
-/

namespace TaylorOde

namespace BinaryFormat

/-! ## Rounding a shifted significand -/

/-- Rounding rounds up by at most one. -/
theorem roundShift_le (n s : Nat) : roundShift n s ≤ n / 2 ^ s + 1 := by
  unfold roundShift
  split
  · subst s
    simp
  · dsimp only
    split <;> simp [Nat.pow_eq]

/-- A significand shifted up by `k` bits and rounded at `s + k` bits rounds as it did at `s`. -/
theorem roundShift_mul_two_pow (m k : Nat) {s : Nat} (hs : 0 < s) :
    roundShift (m * 2 ^ k) (s + k) = roundShift m s := by
  have hk : 0 < 2 ^ k := Nat.two_pow_pos k
  have hquot : m * 2 ^ k / 2 ^ (s + k) = m / 2 ^ s := by
    rw [Nat.pow_add, Nat.mul_div_mul_right _ _ hk]
  have hrem : m * 2 ^ k % 2 ^ (s + k) = m % 2 ^ s * 2 ^ k := by
    rw [Nat.pow_add, Nat.mul_mod_mul_right]
  have hhalf : 2 ^ (s + k - 1) = 2 ^ (s - 1) * 2 ^ k := by
    rw [← Nat.pow_add]
    congr 1
    omega
  simp only [roundShift, Nat.pow_eq, hquot, hrem, hhalf, if_neg (show s + k ≠ 0 by omega),
    if_neg (show s ≠ 0 by omega), Nat.mul_lt_mul_right hk, Nat.mul_left_inj (Nat.ne_of_gt hk)]

/-- A multiple of `2 ^ s` rounds at `s` bits to its quotient. -/
theorem roundShift_exact (x : Nat) {s : Nat} (hs : 0 < s) : roundShift (x * 2 ^ s) s = x := by
  have hpos : 0 < 2 ^ (s - 1) := Nat.two_pow_pos _
  simp only [roundShift, Nat.pow_eq, if_neg (show s ≠ 0 by omega),
    Nat.mul_div_cancel _ (Nat.two_pow_pos s), Nat.mul_mod_left]
  rw [if_neg (by omega)]


theorem log2_mul_two_pow {m : Nat} (hm : 0 < m) (k : Nat) : (m * 2 ^ k).log2 = m.log2 + k := by
  rw [Nat.log2_eq_iff (Nat.ne_of_gt (Nat.mul_pos hm (Nat.two_pow_pos k))), Nat.pow_add,
    show m.log2 + k + 1 = m.log2 + 1 + k by omega, Nat.pow_add]
  exact ⟨Nat.mul_le_mul_right _ (Nat.log2_self_le (by omega)),
    Nat.mul_lt_mul_of_pos_right Nat.lt_log2_self (Nat.two_pow_pos k)⟩

/-- The rounded significand of `m · 2 ^ e` at quantum `Q` depends on the value only: shifting
the significand up by `k` bits and the exponent down by `k` rounds to the same. -/
theorem rounded_mul_two_pow (m k : Nat) (e Q : Int) :
    (if Q - (e - k) ≤ 0 then m * 2 ^ k * 2 ^ (-(Q - (e - k))).toNat
      else roundShift (m * 2 ^ k) (Q - (e - k)).toNat) =
    (if Q - e ≤ 0 then m * 2 ^ (-(Q - e)).toNat else roundShift m (Q - e).toNat) := by
  by_cases hle : Q - (e - k) ≤ 0
  · -- exact at both exponents
    rw [if_pos hle, if_pos (by omega), Nat.mul_assoc, ← Nat.pow_add]
    congr 2
    omega
  rw [if_neg hle]
  by_cases hle' : Q - e ≤ 0
  · -- exact at `e`, a whole shift at `e - k`
    rw [if_pos hle']
    obtain ⟨j, hj⟩ : ∃ j : Nat, (-(Q - e)).toNat = j := ⟨_, rfl⟩
    obtain ⟨s, hs⟩ : ∃ s : Nat, (Q - (e - k)).toNat = s := ⟨_, rfl⟩
    have hk : k = j + s := by omega
    rw [hj, hs, hk, Nat.pow_add, ← Nat.mul_assoc, roundShift_exact _ (by omega)]
  · rw [if_neg hle']
    have hs : (Q - (e - k)).toNat = (Q - e).toNat + k := by omega
    rw [hs, roundShift_mul_two_pow _ _ (by omega)]

/-- The rounded significand has at most `p` bits, or is `2 ^ p` after a carry, when the quantum
leaves at most `p` bits of the significand. -/
theorem rounded_le {m p : Nat} {e Q : Int} (hQ : e + ((m.log2 : Nat) + 1 : Int) - p ≤ Q) :
    (if Q - e ≤ 0 then m * 2 ^ (-(Q - e)).toNat else roundShift m (Q - e).toNat) ≤ 2 ^ p := by
  have hm : m < 2 ^ (m.log2 + 1) := Nat.lt_log2_self
  split
  · -- exact: the shifted significand stays below `2 ^ p`
    calc m * 2 ^ (-(Q - e)).toNat ≤ 2 ^ (m.log2 + 1) * 2 ^ (-(Q - e)).toNat :=
          Nat.mul_le_mul_right _ (Nat.le_of_lt hm)
      _ = 2 ^ (m.log2 + 1 + (-(Q - e)).toNat) := (Nat.pow_add _ _ _).symm
      _ ≤ 2 ^ p := Nat.pow_le_pow_right (by omega) (by omega)
  · -- rounded: the quotient stays below `2 ^ p`, and rounding adds at most one
    have hdiv : m / 2 ^ (Q - e).toNat < 2 ^ p := by
      rw [Nat.div_lt_iff_lt_mul (Nat.two_pow_pos _), ← Nat.pow_add]
      exact Nat.lt_of_lt_of_le hm (Nat.pow_le_pow_right (by omega) (by omega))
    have := roundShift_le m (Q - e).toNat
    omega

/-- Encoding depends on the value only: `m · 2 ^ e` and `(m · 2 ^ k) · 2 ^ (e - k)` encode
alike. -/
theorem encode_mul_two_pow (f : BinaryFormat) (neg : Bool) {m : Nat} (hm : 0 < m) (k : Nat)
    (e : Int) : f.encode neg (m * 2 ^ k) (e - k) = f.encode neg m e := by
  have hquantum : max (e - k + (((m * 2 ^ k).log2 : Nat) + 1 : Int) - (f.fractionBits + 1 : Nat))
      f.minQuantum = max (e + ((m.log2 : Nat) + 1 : Int) - (f.fractionBits + 1 : Nat)) f.minQuantum := by
    rw [log2_mul_two_pow hm]
    congr 1
    omega
  simp only [encode]
  rw [if_neg (Nat.ne_of_gt (Nat.mul_pos hm (Nat.two_pow_pos k))), if_neg (Nat.ne_of_gt hm)]
  simp only [Nat.pow_eq]
  rw [hquantum]
  generalize max (e + ((m.log2 : Nat) + 1 : Int) - (f.fractionBits + 1 : Nat)) f.minQuantum = Q
  rw [rounded_mul_two_pow]


/-- A zero keeps only its sign. -/
theorem encode_zero (f : BinaryFormat) (neg : Bool) (e : Int) :
    f.encode neg 0 e = if neg then f.signMask else 0 := rfl

/-- A significand that needs no rounding at its own exponent is stored as it is: as a
subnormal below `2 ^ fractionBits`, and otherwise with its exponent field, unless that
overflows. -/
theorem encode_of_quantum (f : BinaryFormat) (neg : Bool) {m : Nat} {e : Int} (hm : 0 < m)
    (hq : max (e + ((m.log2 : Nat) + 1 : Int) - (f.fractionBits + 1 : Nat)) f.minQuantum = e) :
    f.encode neg m e =
      if m < 2 ^ f.fractionBits then (if neg then f.signMask else 0) + m
      else if (f.exponentAllOnes : Int) ≤ e + f.bias + f.fractionBits then
        (if neg then f.signMask else 0) + f.infinityBits
      else (if neg then f.signMask else 0) + (e + f.bias + f.fractionBits).toNat *
        2 ^ f.fractionBits + (m - 2 ^ f.fractionBits) := by
  -- the significand fits the precision, so it is no carry
  have hfit : m < 2 ^ (f.fractionBits + 1) :=
    Nat.lt_of_lt_of_le Nat.lt_log2_self (Nat.pow_le_pow_right (by omega) (by omega))
  simp only [encode, Nat.pow_eq]
  rw [if_neg (Nat.ne_of_gt hm), hq]
  simp only [Int.sub_self, Int.le_refl, ite_true, Int.neg_zero, Int.toNat_zero, Nat.pow_zero,
    Nat.mul_one, if_neg (Nat.ne_of_lt hfit)]


/-! ## The two formats' constants -/

@[simp] theorem binary32_fractionBits : binary32.fractionBits = 23 := rfl
@[simp] theorem binary32_bias : binary32.bias = 127 := rfl
@[simp] theorem binary32_exponentAllOnes : binary32.exponentAllOnes = 255 := rfl
@[simp] theorem binary32_minQuantum : binary32.minQuantum = -149 := rfl
@[simp] theorem binary32_signMask : binary32.signMask = 2 ^ 31 := rfl
@[simp] theorem binary32_infinityBits : binary32.infinityBits = 255 * 2 ^ 23 := rfl
@[simp] theorem binary64_fractionBits : binary64.fractionBits = 52 := rfl
@[simp] theorem binary64_bias : binary64.bias = 1023 := rfl
@[simp] theorem binary64_exponentAllOnes : binary64.exponentAllOnes = 2047 := rfl
@[simp] theorem binary64_minQuantum : binary64.minQuantum = -1074 := rfl
@[simp] theorem binary64_signMask : binary64.signMask = 2 ^ 63 := rfl
@[simp] theorem binary64_infinityBits : binary64.infinityBits = 2047 * 2 ^ 52 := rfl

/-! ## Binary32 data -/

/-- Encoding what a binary32 word decodes to gives the word back. -/
theorem encode_decode32 {n : Nat} (hn : n < 2 ^ 32) {neg : Bool} {m : Nat} {q : Int} {t : Bool}
    (h : binary32.decode n = .finite neg m q t) : binary32.encode neg m q = n := by
  unfold decode at h
  dsimp only at h
  split at h
  · split at h <;> cases h
  rename_i hinf
  change ¬n / 2 ^ 23 % 2 ^ 8 = 255 at hinf
  have hsign : (if decide (2 ^ 31 ≤ n) = true then binary32.signMask else 0) =
      if 2 ^ 31 ≤ n then 2 ^ 31 else 0 := by
    simp
  split at h
  · -- a subnormal or a zero: the fraction at the least exponent
    rename_i hE
    change n / 2 ^ 23 % 2 ^ 8 = 0 at hE
    obtain ⟨hneg, hm, hq, -⟩ := BinaryValue.finite.inj h
    replace hneg : neg = decide (2 ^ 31 ≤ n) := hneg.symm
    replace hm : m = n % 2 ^ 23 := hm.symm
    replace hq : q = -149 := by rw [← hq]; rfl
    subst hneg hm hq
    by_cases hF : n % 2 ^ 23 = 0
    · rw [hF, encode_zero, hsign]
      split <;> omega
    · have hlog : (n % 2 ^ 23).log2 < 23 := (Nat.log2_lt hF).2 (by omega)
      rw [encode_of_quantum _ _ (Nat.pos_of_ne_zero hF)
        (by simp only [binary32_fractionBits, binary32_minQuantum]; omega), hsign,
        binary32_fractionBits, if_pos (by omega)]
      split <;> omega
  · -- a normal number: the implicit bit and the stored exponent
    rename_i hE
    change ¬n / 2 ^ 23 % 2 ^ 8 = 0 at hE
    obtain ⟨hneg, hm, hq, -⟩ := BinaryValue.finite.inj h
    replace hneg : neg = decide (2 ^ 31 ≤ n) := hneg.symm
    replace hm : m = 2 ^ 23 + n % 2 ^ 23 := hm.symm
    change ((n / 2 ^ 23 % 2 ^ 8 : Nat) : Int) - (127 : Nat) - (23 : Nat) = q at hq
    replace hq : q = ((n / 2 ^ 23 % 2 ^ 8 : Nat) : Int) - 150 := by omega
    subst hneg hm hq
    have hlog : (2 ^ 23 + n % 2 ^ 23).log2 = 23 :=
      (Nat.log2_eq_iff (by omega)).2 ⟨by omega, by omega⟩
    rw [encode_of_quantum _ _ (by omega)
        (by simp only [binary32_fractionBits, binary32_minQuantum, hlog]; omega), hsign, binary32_fractionBits,
      binary32_exponentAllOnes, binary32_bias, if_neg (by omega), if_neg (by omega)]
    split <;> omega

/-! ## Binary32 data widened to binary64 -/

/-- A binary64 word with an exponent field of neither all zeros nor all ones decodes to a
normal number. -/
theorem decode64_normal (neg : Bool) {X Y : Nat} (hX1 : 1 ≤ X) (hX2 : X ≤ 2046) (hY : Y < 2 ^ 52) :
    binary64.decode ((if neg then 2 ^ 63 else 0) + X * 2 ^ 52 + Y) =
      .finite neg (2 ^ 52 + Y) ((X : Int) - 1075) (decide (Y = 0) && decide (X > 1)) := by
  obtain ⟨w, hw⟩ : ∃ w, w = (if neg then 2 ^ 63 else 0) + X * 2 ^ 52 + Y := ⟨_, rfl⟩
  have hexp : w / 2 ^ 52 % 2 ^ 11 = X := by subst hw; split <;> omega
  have hfrac : w % 2 ^ 52 = Y := by subst hw; split <;> omega
  have hsign : decide (2 ^ 63 ≤ w) = neg := by subst hw; cases neg <;> simp <;> omega
  rw [← hw]
  unfold decode
  dsimp only
  split
  · rename_i h
    change w / 2 ^ 52 % 2 ^ 11 = 2047 at h
    omega
  split
  · rename_i _ h
    change w / 2 ^ 52 % 2 ^ 11 = 0 at h
    omega
  change BinaryValue.finite (decide (2 ^ 63 ≤ w)) (2 ^ 52 + w % 2 ^ 52)
    (((w / 2 ^ 52 % 2 ^ 11 : Nat) : Int) - (1023 : Nat) - (52 : Nat))
    (decide (w % 2 ^ 52 = 0) && decide (w / 2 ^ 52 % 2 ^ 11 > 1)) = _
  rw [hsign, hfrac, hexp, show ((X : Int) - (1023 : Nat) - (52 : Nat)) = X - 1075 by omega]

/-- Widening a binary32 number to binary64 is exact: its significand is shifted up to 53 bits
and its exponent down by as much. -/
theorem decode_encode64 (neg : Bool) {m : Nat} {q : Int} (hm : 0 < m) (hlog : m.log2 ≤ 52)
    (hlo : -1074 + (52 - m.log2 : Nat) ≤ q) (hhi : q ≤ 971 + (52 - m.log2 : Nat)) :
    binary64.encode neg m q < 2 ^ 64 ∧ ∃ t, binary64.decode (binary64.encode neg m q) =
      .finite neg (m * 2 ^ (52 - m.log2)) (q - (52 - m.log2 : Nat)) t := by
  have hM : (m * 2 ^ (52 - m.log2)).log2 = 52 := by
    rw [log2_mul_two_pow hm]
    omega
  have hlo' : 2 ^ 52 ≤ m * 2 ^ (52 - m.log2) := by
    have := Nat.log2_self_le (Nat.ne_of_gt (Nat.mul_pos hm (Nat.two_pow_pos (52 - m.log2))))
    rwa [hM] at this
  have hhi' : m * 2 ^ (52 - m.log2) < 2 ^ 53 := by
    have := @Nat.lt_log2_self (m * 2 ^ (52 - m.log2))
    rwa [hM] at this
  rw [← encode_mul_two_pow _ _ hm (52 - m.log2),
    encode_of_quantum _ _ (by omega)
      (by simp only [binary64_fractionBits, binary64_minQuantum, hM]; omega),
    binary64_fractionBits, binary64_exponentAllOnes, binary64_bias, binary64_signMask,
    if_neg (by omega), if_neg (by omega)]
  -- the stored exponent field
  obtain ⟨X, hX⟩ : ∃ X : Nat, (q - (52 - m.log2 : Nat) + (1023 : Nat) + (52 : Nat)).toNat = X :=
    ⟨_, rfl⟩
  rw [hX]
  have hsig : 2 ^ 52 + (m * 2 ^ (52 - m.log2) - 2 ^ 52) = m * 2 ^ (52 - m.log2) := by omega
  have hexp : (X : Int) - 1075 = q - (52 - m.log2 : Nat) := by omega
  refine ⟨by split <;> omega, ?_⟩
  rw [decode64_normal neg (show 1 ≤ X by omega) (show X ≤ 2046 by omega)
    (show m * 2 ^ (52 - m.log2) - 2 ^ 52 < 2 ^ 52 by omega), hsig, hexp]
  exact ⟨_, rfl⟩

/-- A finite binary32 number has a significand of at most 24 bits and an exponent between the
least and the greatest of binary32. -/
theorem decode32_finite_bounds {n : Nat} {neg : Bool} {m : Nat} {q : Int} {t : Bool}
    (h : binary32.decode n = .finite neg m q t) : m < 2 ^ 24 ∧ -149 ≤ q ∧ q ≤ 104 := by
  unfold decode at h
  dsimp only at h
  split at h
  · split at h <;> cases h
  rename_i hinf
  change ¬n / 2 ^ 23 % 2 ^ 8 = 255 at hinf
  split at h
  · obtain ⟨-, hm, hq, -⟩ := BinaryValue.finite.inj h
    change n % 2 ^ 23 = m at hm
    change (1 : Int) - (127 : Nat) - (23 : Nat) = q at hq
    omega
  · rename_i hE
    change ¬n / 2 ^ 23 % 2 ^ 8 = 0 at hE
    obtain ⟨-, hm, hq, -⟩ := BinaryValue.finite.inj h
    change 2 ^ 23 + n % 2 ^ 23 = m at hm
    change ((n / 2 ^ 23 % 2 ^ 8 : Nat) : Int) - (127 : Nat) - (23 : Nat) = q at hq
    omega

/-- A binary32 word that decodes to an infinity is that infinity's encoding. -/
theorem decode32_infinite {n : Nat} (hn : n < 2 ^ 32) {neg : Bool}
    (h : binary32.decode n = .infinite neg) :
    n = binary32.infinityBits + if neg then binary32.signMask else 0 := by
  unfold decode at h
  dsimp only at h
  split at h
  · rename_i hinf
    change n / 2 ^ 23 % 2 ^ 8 = 255 at hinf
    split at h
    · rename_i hF
      change n % 2 ^ 23 = 0 at hF
      cases h
      change n = 255 * 2 ^ 23 + (if decide (2 ^ 31 ≤ n) = true then 2 ^ 31 else 0)
      by_cases hs : 2 ^ 31 ≤ n
      · rw [if_pos (decide_eq_true hs)]
        omega
      · rw [if_neg (by simpa using hs)]
        omega
    · cases h
  · split at h <;> cases h

theorem decode64_infinite (neg : Bool) :
    binary64.decode (binary64.infinityBits + if neg then binary64.signMask else 0) =
      .infinite neg := by
  cases neg <;> rfl

theorem decode64_zero (neg : Bool) :
    binary64.decode (if neg then binary64.signMask else 0) = .finite neg 0 (-1074) false := by
  cases neg <;> rfl

theorem decode64_quietNaN : binary64.decode binary64.quietNaNBits = .nan := rfl

/-- Widening a binary32 word to binary64 and narrowing it back gives the word: every binary32
datum is a binary64 datum. -/
theorem narrow_widen {n : Nat} (hn : n < 2 ^ 32)
    (hcanon : binary32.decode n = .nan → n = binary32.quietNaNBits) :
    binary64.convert binary32 (binary32.convert binary64 n) = n := by
  rw [convert, convert]
  rcases hd : binary32.decode n with _ | neg | ⟨neg, m, q, t⟩ <;> dsimp only
  · -- the quiet NaN
    rw [decode64_quietNaN, hcanon hd]
  · -- an infinity keeps its sign
    rw [decode64_infinite]
    exact (decode32_infinite hn hd).symm
  · have hback := encode_decode32 hn hd
    obtain ⟨hm, hlo, hhi⟩ := decode32_finite_bounds hd
    rcases Nat.eq_zero_or_pos m with rfl | hpos
    · -- a zero keeps its sign
      rw [encode_zero, decode64_zero]
      dsimp only
      rw [encode_zero] at hback ⊢
      exact hback
    · -- the significand moves up to 53 bits and comes back down
      have hlog : m.log2 < 24 := (Nat.log2_lt (by omega)).2 hm
      obtain ⟨-, t', ht'⟩ := @decode_encode64 neg m q hpos (by omega) (by omega) (by omega)
      rw [ht']
      dsimp only
      rw [encode_mul_two_pow _ _ hpos]
      exact hback

/-- Widening a binary32 word gives a binary64 word, a NaN only for a NaN. -/
theorem widen_word (n : Nat) :
    binary32.convert binary64 n < 2 ^ 64 ∧
      (binary64.decode (binary32.convert binary64 n) = .nan →
        binary32.decode n = .nan ∧ binary32.convert binary64 n = binary64.quietNaNBits) := by
  rw [convert]
  rcases hd : binary32.decode n with _ | neg | ⟨neg, m, q, t⟩ <;> dsimp only
  · exact ⟨by decide, fun _ => ⟨rfl, rfl⟩⟩
  · refine ⟨by cases neg <;> decide, fun h => ?_⟩
    rw [decode64_infinite] at h
    cases h
  · obtain ⟨hm, hlo, hhi⟩ := decode32_finite_bounds hd
    rcases Nat.eq_zero_or_pos m with rfl | hpos
    · rw [encode_zero]
      refine ⟨by cases neg <;> decide, fun h => ?_⟩
      rw [decode64_zero] at h
      cases h
    · have hlog : m.log2 < 24 := (Nat.log2_lt (by omega)).2 hm
      obtain ⟨hlt, t', ht'⟩ := @decode_encode64 neg m q hpos (by omega) (by omega) (by omega)
      refine ⟨hlt, fun h => ?_⟩
      rw [ht'] at h
      cases h

/-! ## What narrowing gives -/

/-- A binary32 word is a NaN only with an exponent field of all ones and a fraction other than
zero. -/
theorem decode32_ne_nan {n : Nat} (h : n / 2 ^ 23 % 2 ^ 8 ≠ 255 ∨ n % 2 ^ 23 = 0) :
    binary32.decode n ≠ .nan := by
  unfold decode
  dsimp only
  split
  · rename_i hE
    change n / 2 ^ 23 % 2 ^ 8 = 255 at hE
    split
    · nofun
    · rename_i hF
      change ¬n % 2 ^ 23 = 0 at hF
      omega
  · split <;> nofun

/-- A word below the sign bit, with its sign put on, is a binary32 word that is no NaN as long
as its exponent field is not all ones or its fraction is zero. -/
theorem word32_of_signed (neg : Bool) {x : Nat} (hx : x < 2 ^ 31)
    (h : x / 2 ^ 23 % 2 ^ 8 ≠ 255 ∨ x % 2 ^ 23 = 0) :
    (if neg then binary32.signMask else 0) + x < 2 ^ 32 ∧
      binary32.decode ((if neg then binary32.signMask else 0) + x) ≠ .nan := by
  rw [binary32_signMask]
  refine ⟨by split <;> omega, decode32_ne_nan ?_⟩
  split <;> omega

/-- Narrowing gives a binary32 word, and never a NaN: a sign with a subnormal significand, with
an infinity, or with an exponent field below all ones and the fraction of a significand of at
most 24 bits. -/
theorem encode32_word (neg : Bool) (m : Nat) (e : Int) :
    binary32.encode neg m e < 2 ^ 32 ∧ binary32.decode (binary32.encode neg m e) ≠ .nan := by
  unfold encode
  dsimp only
  split
  · exact @word32_of_signed neg 0 (by omega) (by omega)
  generalize hQ : max (e + ((m.log2 : Nat) + 1 : Int) - ((binary32.fractionBits + 1 : Nat) : Int))
    binary32.minQuantum = Q
  have hQ' : -149 ≤ Q ∧ e + ((m.log2 : Nat) + 1 : Int) - (24 : Nat) ≤ Q := by
    rw [← hQ]
    exact ⟨Int.le_max_right _ _, Int.le_max_left _ _⟩
  generalize hR : (if Q - e ≤ 0 then m * Nat.pow 2 (-(Q - e)).toNat
    else roundShift m (Q - e).toNat) = R
  have hRle : R ≤ 2 ^ 24 := hR ▸ rounded_le hQ'.2
  generalize hP : (if R = Nat.pow 2 (binary32.fractionBits + 1) then
    (Nat.pow 2 binary32.fractionBits, Q + 1) else (R, Q)) = P
  -- a carry out of the top bit leaves the significand `2 ^ 23` one binade up
  have hP' : P.1 < 2 ^ 24 ∧ -149 ≤ P.2 := by
    rw [← hP]
    split
    · exact ⟨show (2 : Nat) ^ 23 < 2 ^ 24 by decide, show -149 ≤ Q + 1 by omega⟩
    · rename_i hc
      change ¬R = 2 ^ 24 at hc
      exact ⟨by omega, hQ'.1⟩
  obtain ⟨sig, Q'⟩ := P
  dsimp only at hP' ⊢
  split
  · rename_i hs
    change sig < 2 ^ 23 at hs
    exact word32_of_signed neg (by omega) (by omega)
  split
  · exact word32_of_signed neg (by rw [binary32_infinityBits]; omega)
      (by rw [binary32_infinityBits]; omega)
  · rename_i hs hinf
    change ¬sig < 2 ^ 23 at hs
    change ¬((255 : Nat) : Int) ≤ Q' + (127 : Nat) + (23 : Nat) at hinf
    rw [Nat.add_assoc]
    refine word32_of_signed neg ?_ ?_
    all_goals
      simp only [binary32_bias, binary32_fractionBits, Nat.pow_eq]
      omega

/-- Narrowing a binary64 word gives a binary32 word, and a NaN only for a NaN, the quiet one. -/
theorem narrow_word (N : Nat) :
    binary64.convert binary32 N < 2 ^ 32 ∧
      (binary32.decode (binary64.convert binary32 N) = .nan →
        binary64.decode N = .nan ∧ binary64.convert binary32 N = binary32.quietNaNBits) := by
  rw [convert]
  rcases hd : binary64.decode N with _ | neg | ⟨neg, m, q, t⟩ <;> dsimp only
  · exact ⟨by decide, fun _ => ⟨rfl, rfl⟩⟩
  · have hinf := @word32_of_signed neg binary32.infinityBits
      (by rw [binary32_infinityBits]; omega) (by rw [binary32_infinityBits]; omega)
    rw [Nat.add_comm] at hinf
    exact ⟨hinf.1, fun h => absurd h hinf.2⟩
  · obtain ⟨hlt, hne⟩ := encode32_word neg m q
    exact ⟨hlt, fun h => absurd h hne⟩

end BinaryFormat

namespace Binary64

open Float.Model Float.Model.UnpackedFloat BinaryFormat

/-! ## Words and floats -/

theorem unpackExponent_toNat (N : Nat) (hN : N < 2 ^ 64) :
    (@unpackExponent .binary64 N.toUInt64.toBitVec).toNat = N / 2 ^ 52 % 2 ^ 11 := by
  change (N.toUInt64.toBitVec.toNat >>> 52) % 2 ^ 11 = _
  rw [Nat.shiftRight_eq_div_pow, UInt64.toNat_toBitVec, UInt64.toNat_ofNat', Nat.mod_eq_of_lt hN]

theorem unpackMantissa_toNat (N : Nat) (hN : N < 2 ^ 64) :
    (@unpackMantissa .binary64 N.toUInt64.toBitVec).toNat = N % 2 ^ 52 := by
  change (N.toUInt64.toBitVec.toNat >>> 0) % 2 ^ 52 = _
  rw [Nat.shiftRight_zero, UInt64.toNat_toBitVec, UInt64.toNat_ofNat', Nat.mod_eq_of_lt hN]

/-- A binary64 word decodes to NaN exactly when its exponent field is all ones and its fraction
is not zero. -/
theorem decode64_eq_nan_iff (N : Nat) :
    binary64.decode N = .nan ↔ N / 2 ^ 52 % 2 ^ 11 = 2047 ∧ N % 2 ^ 52 ≠ 0 := by
  unfold decode
  dsimp only
  split
  · rename_i hE
    change N / 2 ^ 52 % 2 ^ 11 = 2047 at hE
    split
    · rename_i hF
      change N % 2 ^ 52 = 0 at hF
      exact iff_of_false (by simp) (fun h => h.2 hF)
    · rename_i hF
      change ¬N % 2 ^ 52 = 0 at hF
      exact iff_of_true rfl ⟨hE, hF⟩
  · rename_i hE
    change ¬N / 2 ^ 52 % 2 ^ 11 = 2047 at hE
    split <;> exact iff_of_false (by simp) (fun h => hE h.1)

/-- A word unpacks to NaN exactly when its exponent field is all ones and its mantissa is not
zero. -/
theorem unpack_eq_nan_iff (b : BitVec 64) :
    UnpackedFloat.unpack .binary64 b = .notANumber ↔
      @unpackExponent .binary64 b = -1#11 ∧ @unpackMantissa .binary64 b ≠ 0#52 := by
  rw [UnpackedFloat.unpack]
  split
  · split <;> simp_all
  · split
    · split <;> simp_all
    · simp_all

/-- A float is NaN exactly when the word it was read from decodes to NaN. -/
theorem isNaN_ofBits_iff {N : Nat} (hN : N < 2 ^ 64) :
    (Float.ofBits N.toUInt64).isNaN = true ↔ binary64.decode N = .nan := by
  have hunpack : (Float.ofBits N.toUInt64).toModel.unpack =
      UnpackedFloat.unpack .binary64 N.toUInt64.toBitVec :=
    unpack_pack (canonical_unpack _)
  have hnan : ∀ u : UnpackedFloat, u.isNaN = true ↔ u = .notANumber := by
    intro u
    cases u <;> simp [UnpackedFloat.isNaN]
  show (Float.ofBits N.toUInt64).toModel.unpack.isNaN = true ↔ _
  rw [hunpack, hnan, unpack_eq_nan_iff, decode64_eq_nan_iff, ← unpackExponent_toNat N hN,
    ← unpackMantissa_toNat N hN]
  constructor
  · rintro ⟨he, hm⟩
    exact ⟨by rw [he]; rfl, fun h => hm (BitVec.eq_of_toNat_eq (by rw [h]; rfl))⟩
  · rintro ⟨he, hm⟩
    exact ⟨BitVec.eq_of_toNat_eq (by rw [he]; rfl), fun h => hm (by rw [h]; rfl)⟩

/-- A word that is no NaN but the quiet one is read back as it was written. -/
theorem toBits_ofBits_of_word {N : Nat} (hN : N < 2 ^ 64)
    (hcanon : binary64.decode N = .nan → N = binary64.quietNaNBits) :
    (Float.ofBits N.toUInt64).toBits.toNat = N := by
  have hv : Format.binary64.Valid N.toUInt64.toBitVec := by
    refine ⟨fun hexp hmant => ?_⟩
    have hdec : binary64.decode N = .nan := by
      rw [decode64_eq_nan_iff, ← unpackExponent_toNat N hN, ← unpackMantissa_toNat N hN, hexp]
      exact ⟨rfl, fun h => hmant (BitVec.toNat_inj.1 h)⟩
    rw [hcanon hdec]
    decide
  show (UInt64.ofBitVec (pack .binary64 (UnpackedFloat.unpack .binary64 N.toUInt64.toBitVec))).toNat = N
  rw [pack_unpack hv, UInt64.toNat_ofBitVec, UInt64.toNat_toBitVec, UInt64.toNat_ofNat',
    Nat.mod_eq_of_lt hN]

end Binary64

/-! ## Rounding to binary32 -/

open BinaryFormat Binary64

/-- Rounding to binary32 a value that already is a binary32 datum changes nothing. -/
theorem roundToBinary32_roundToBinary32 (x : Float) :
    Float.roundToBinary32 (Float.roundToBinary32 x) = Float.roundToBinary32 x := by
  obtain ⟨hn, hncanon⟩ := narrow_word x.toBits.toNat
  obtain ⟨hw, hwcanon⟩ := widen_word (binary64.convert binary32 x.toBits.toNat)
  unfold Float.roundToBinary32
  rw [toBits_ofBits_of_word hw (fun h => (hwcanon h).2),
    narrow_widen hn (fun h => (hncanon h).2)]

/-- A number rounds to a number. -/
theorem isNaN_roundToBinary32 {x : Float} (h : x.isNaN = false) :
    (Float.roundToBinary32 x).isNaN = false := by
  have hx : binary64.decode x.toBits.toNat ≠ .nan := by
    intro hnan
    have := (isNaN_ofBits_iff x.toBits.toNat_lt).2 hnan
    rw [Nat.toUInt64_eq, UInt64.ofNat_toNat, ofBits_toBits, h] at this
    cases this
  obtain ⟨hn, hncanon⟩ := narrow_word x.toBits.toNat
  obtain ⟨hw, hwcanon⟩ := widen_word (binary64.convert binary32 x.toBits.toNat)
  unfold Float.roundToBinary32
  cases hr : (Float.ofBits (binary32.convert binary64
      (binary64.convert binary32 x.toBits.toNat)).toUInt64).isNaN
  · rfl
  · exact absurd ((hncanon ((hwcanon ((isNaN_ofBits_iff hw).1 hr)).1)).1) hx

end TaylorOde
