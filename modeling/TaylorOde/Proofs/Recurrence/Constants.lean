import TaylorOde.Proofs.Expr.Binary64
import TaylorOde.Recurrence
import Mathlib
/-!
# Which constants test equal to one

The recurrences scale a term by a constant `c` (a count `k`, its negation, its reciprocal or
the negated reciprocal) and skip the product when the binary64 value of `c` tests equal to `1`
or `-1`, writing `x` or `-x` instead. Main statements: the constants that test equal to `1`
are exactly the count one and its reciprocal (`Const.toFloat_beq_one_iff`), and those that
test equal to `-1` exactly their negations (`Const.toFloat_beq_neg_one_iff`). So reading a
constant as the number it denotes, a skipped product is always a product by one.

The proof goes through the float model:

* rounding a mantissa to binary64 truncates it to 53 bits at the target exponent, rounds it up
  by at most one and halves a carry (`roundWithAccuracy_eq`);
* the float of a count of two or more is at least two, or infinite (`atLeastTwo_toFloat`),
  on both the exact path below `2^53` and the rounded path above;
* one divided by a float of at least two is below one in magnitude (`belowOne_div`): the
  quotient is at most one half, and a carry cannot lift it to one.
-/

namespace TaylorOde

open Float.Model Float.Model.UnpackedFloat

namespace Binary64

/-! ## Rounding a mantissa -/

theorem targetExponent_eq (T : Int) :
    Format.binary64.targetExponent T = max (T - 53) (-1074) := by
  simp [Format.targetExponent, Format.mantissaBits, Format.minExponent]

theorem shiftRight_mantissa (em : ExtendedMantissa) (k : Nat) :
    (em >>> k).mantissa = em.mantissa / 2 ^ k := by
  induction k with
  | zero => simp [HShiftRight.hShiftRight, Nat.repeat]
  | succ k ih =>
    change (em >>> k).mantissa / 2 = _
    rw [ih, Nat.div_div_eq_div_mul, Nat.pow_succ]

theorem roundedMantissa_bounds (em : ExtendedMantissa) :
    em.mantissa ≤ em.roundedMantissa ∧ em.roundedMantissa ≤ em.mantissa + 1 := by
  obtain ⟨m, r, s⟩ := em
  cases r <;> cases s <;>
    simp [ExtendedMantissa.roundedMantissa, ExtendedMantissa.accuracy,
      Accuracy.roundToNearestEven]
  all_goals omega

theorem shiftToTargetExponent_eq (m : Nat) (e : Int) (a : Accuracy) :
    let k := (Format.binary64.targetExponent (totalExponent m e) - e).toNat
    (shiftToTargetExponent .binary64 m e a).1.mantissa = m / 2 ^ k ∧
      (shiftToTargetExponent .binary64 m e a).2 = e + k := by
  refine ⟨?_, rfl⟩
  simp only [shiftToTargetExponent, shiftToExponent, shiftRight_mantissa]
  cases a with
  | exact => rfl
  | inexact o => cases o <;> rfl

theorem shiftToTargetExponent_small {m : Nat} {e : Int} (hm : m < 2 ^ 53) (he : -1074 ≤ e) :
    shiftToTargetExponent .binary64 m e .exact = (⟨m, false, false⟩, e) := by
  have hlog : m.log2 < 53 := by
    rcases Nat.eq_zero_or_pos m with rfl | hp
    · simp
    · exact (Nat.log2_lt (by omega)).2 hm
  have hk : (Format.binary64.targetExponent (totalExponent m e) - e).toNat = 0 := by
    rw [targetExponent_eq, totalExponent]
    omega
  simp [shiftToTargetExponent, shiftToExponent, hk, HShiftRight.hShiftRight, Nat.repeat,
    ExtendedMantissa.ofMantissaAndAccuracy]

theorem shiftToTargetExponent_carry {e : Int} (he : -1074 ≤ e) :
    shiftToTargetExponent .binary64 (2 ^ 53) e .exact = (⟨2 ^ 52, false, false⟩, e + 1) := by
  have hk : (Format.binary64.targetExponent (totalExponent (2 ^ 53) e) - e).toNat = 1 := by
    rw [targetExponent_eq, totalExponent, Nat.log2_two_pow]
    omega
  -- the shift is read off before `simp` can rewrite `2 ^ 53` inside it
  simp only [shiftToTargetExponent, shiftToExponent]
  rw [hk]
  simp [HShiftRight.hShiftRight, Nat.repeat, ExtendedMantissa.ofMantissaAndAccuracy,
    ExtendedMantissa.shiftRightOne]

theorem roundWithAccuracy_eq (s : Sign) (m : Nat) (e : Int) (a : Accuracy) :
    roundWithAccuracy .binary64 s m e a =
      let first := shiftToTargetExponent .binary64 m e a
      if h : first.1.roundedMantissa = 0 then .zero s
      else if first.1.roundedMantissa < 2 ^ 53 then
        .finite s first.1.roundedMantissa first.2 (Nat.pos_of_ne_zero h)
      else .finite s (2 ^ 52) (first.2 + 1) (by decide) := by
  obtain ⟨hmant, hexp⟩ := shiftToTargetExponent_eq m e a
  have hlo : -1074 ≤ (shiftToTargetExponent .binary64 m e a).2 := by
    rw [hexp, targetExponent_eq]
    omega
  have hbits : m / 2 ^ (Format.binary64.targetExponent (totalExponent m e) - e).toNat < 2 ^ 53 := by
    rcases Nat.eq_zero_or_pos m with rfl | hp
    · simp
    have hk : m.log2 ≤ 52 + (Format.binary64.targetExponent (totalExponent m e) - e).toNat := by
      rw [targetExponent_eq, totalExponent]
      omega
    rw [Nat.div_lt_iff_lt_mul (Nat.two_pow_pos _), ← Nat.pow_add]
    exact Nat.lt_of_lt_of_le Nat.lt_log2_self (Nat.pow_le_pow_right (by decide) (by omega))
  have hr := roundedMantissa_bounds (shiftToTargetExponent .binary64 m e a).1
  rw [hmant] at hr
  rw [roundWithAccuracy]
  generalize shiftToTargetExponent .binary64 m e a = first at hlo hr ⊢
  obtain ⟨em, e₁⟩ := first
  dsimp only at hlo hr ⊢
  by_cases hsmall : em.roundedMantissa < 2 ^ 53
  · rw [shiftToTargetExponent_small hsmall hlo]
    simp only [hsmall, if_true]
  · -- the rounded mantissa carried into bit 53
    have hcarry : em.roundedMantissa = 2 ^ 53 := by omega
    rw [hcarry, shiftToTargetExponent_carry hlo]
    simp

theorem roundWithAccuracy_normal (s : Sign) {m : Nat} {e : Int} (a : Accuracy)
    (hm : 52 ≤ m.log2) (hT : -1021 ≤ totalExponent m e) :
    ∃ r e' h, roundWithAccuracy .binary64 s m e a = .finite s r e' h ∧ 2 ^ 52 ≤ r ∧
      r < 2 ^ 53 ∧ totalExponent m e - 53 ≤ e' := by
  obtain ⟨hmant, hexp⟩ := shiftToTargetExponent_eq m e a
  have hk : (Format.binary64.targetExponent (totalExponent m e) - e).toNat = m.log2 - 52 := by
    rw [targetExponent_eq]
    simp only [totalExponent] at hT ⊢
    omega
  rw [hk] at hmant hexp
  -- the truncated mantissa keeps the leading 53 bits
  have hlead : 2 ^ 52 ≤ m / 2 ^ (m.log2 - 52) := by
    rw [Nat.le_div_iff_mul_le (Nat.two_pow_pos _), ← Nat.pow_add]
    exact Nat.le_trans (Nat.pow_le_pow_right (by decide) (by omega))
      (Nat.log2_self_le (by intro h; simp [h] at hm))
  have hr := roundedMantissa_bounds (shiftToTargetExponent .binary64 m e a).1
  rw [hmant] at hr
  rw [roundWithAccuracy_eq]
  dsimp only
  rw [dif_neg (by omega)]
  split
  · exact ⟨_, _, by omega, rfl, by omega, by assumption,
      by rw [hexp]; simp only [totalExponent]; omega⟩
  · exact ⟨_, _, by decide, rfl, Nat.le_refl _, by decide,
      by rw [hexp]; simp only [totalExponent]; omega⟩

theorem roundWithAccuracy_le_half (s : Sign) {m : Nat} {e : Int} (a : Accuracy) (he : e ≤ -54)
    (hm : m ≤ 2 ^ (-1 - e).toNat) :
    roundWithAccuracy .binary64 s m e a = .zero s ∨
      ∃ r e' h, roundWithAccuracy .binary64 s m e a = .finite s r e' h ∧ r < 2 ^ 53 ∧
        -1074 ≤ e' ∧ e' ≤ -53 := by
  obtain ⟨hmant, hexp⟩ := shiftToTargetExponent_eq m e a
  have hlog : m.log2 ≤ (-1 - e).toNat := by
    rcases Nat.eq_zero_or_pos m with rfl | hp
    · simp
    · exact Nat.le_of_lt_succ ((Nat.log2_lt (by omega)).2 (Nat.lt_of_le_of_lt hm
        (Nat.pow_lt_pow_right (by decide) (Nat.lt_succ_self _))))
  generalize hk : (Format.binary64.targetExponent (totalExponent m e) - e).toNat = k at hmant hexp
  have hk' : e + k ≤ -53 ∧ -1074 ≤ e + k := by
    rw [← hk, targetExponent_eq]
    simp only [totalExponent]
    omega
  have hr := roundedMantissa_bounds (shiftToTargetExponent .binary64 m e a).1
  rw [hmant] at hr
  rw [roundWithAccuracy_eq]
  dsimp only
  split
  · exact .inl rfl
  right
  split
  · exact ⟨_, _, by omega, rfl, by assumption, by omega, by omega⟩
  · -- a carry into bit 53 needs a truncated mantissa of 53 ones, more than one half allows
    refine ⟨_, _, by decide, rfl, by decide, by omega, ?_⟩
    rw [hexp]
    rcases Int.lt_or_le (e + k) (-53) with hlt | hge
    · omega
    have hke : k = (-53 - e).toNat := by omega
    have htrunc : m / 2 ^ k ≤ 2 ^ 52 := by
      calc m / 2 ^ k ≤ 2 ^ (-1 - e).toNat / 2 ^ k := Nat.div_le_div_right hm
        _ = 2 ^ 52 := by
          rw [Nat.pow_div (by omega) (by decide)]
          congr 1
          omega
    omega

theorem unpack_pack_finite {s : Sign} {r : Nat} {e : Int} (h : 0 < r) (hr : r < 2 ^ 53)
    (hlo : -1074 ≤ e) (hhi : e ≤ 971) :
    UnpackedFloat.unpack .binary64 (UnpackedFloat.pack .binary64 (.finite s r e h)) =
      .finite s r (if 2 ^ 52 ≤ r then e else -1074) h := by
  by_cases hn : 2 ^ 52 ≤ r
  · rw [if_pos hn]
    exact unpack_pack (.normal s r e h hn hr hlo hhi)
  · rw [if_neg hn]
    -- a mantissa below 52 bits is stored with a zero exponent field, whatever its exponent
    have hlog : r.log2 + 1 ≠ 53 := by
      have := (Nat.log2_lt (by omega)).2 (show r < 2 ^ 52 by omega)
      omega
    have hexp : ∀ e' : Int, (e' + (Format.binary64.exponentBias : Nat) + (52 : Nat)).toNat =
        (e' + 1075).toNat := fun e' => by
      rw [show ((Format.binary64.exponentBias : Nat) : Int) = 1023 from rfl]
      omega
    have hsub : UnpackedFloat.pack .binary64 (.finite s r e h) =
        UnpackedFloat.pack .binary64 (.finite s r (-1074) h) := by
      have h1 : ¬2 ^ 11 ≤ (e + 1075).toNat + 1 := by omega
      have h2 : ¬2 ^ 11 ≤ (-1074 + 1075 : Int).toNat + 1 := by decide
      have h3 : ¬r.log2 + 1 = Format.binary64.mantissaBits := hlog
      simp only [UnpackedFloat.pack, hexp, h1, h2, h3, if_false]
    rw [hsub]
    exact unpack_pack (.subnormal s r h (by omega))

theorem pack_finite_overflow {s : Sign} {r : Nat} {e : Int} (h : 0 < r) (he : 971 < e) :
    UnpackedFloat.pack .binary64 (.finite s r e h) =
      UnpackedFloat.pack .binary64 (.infinity s) := by
  have hexp : (e + (Format.binary64.exponentBias : Nat) + (52 : Nat)).toNat = (e + 1075).toNat := by
    rw [show ((Format.binary64.exponentBias : Nat) : Int) = 1023 from rfl]
    omega
  simp only [UnpackedFloat.pack, hexp]
  rw [if_pos (by omega)]

/-! ## Counts as floats -/

/-- Shifting left by `d` adds `d` to the position of the leading bit. -/
theorem log2_shiftLeft {k : Nat} (hk : 0 < k) (d : Nat) : (k <<< d).log2 = k.log2 + d := by
  rw [Nat.shiftLeft_eq, Nat.log2_eq_iff (Nat.ne_of_gt (Nat.mul_pos hk (Nat.two_pow_pos d)))]
  constructor
  · rw [Nat.pow_add]
    exact Nat.mul_le_mul_right _ (Nat.log2_self_le (by omega))
  · calc k * 2 ^ d < 2 ^ (k.log2 + 1) * 2 ^ d :=
          Nat.mul_lt_mul_of_pos_right Nat.lt_log2_self (Nat.two_pow_pos d)
      _ = 2 ^ (k.log2 + d + 1) := by
          rw [← Nat.pow_add]
          congr 1
          omega

/-- The unpacked float of a count of at least two: positive infinity, or a positive normal
float whose exponent, `-51` or more, makes it at least two. -/
inductive AtLeastTwo : UnpackedFloat → Prop
  | infinity : AtLeastTwo (.infinity .positive)
  | finite (r : Nat) (e : Int) (h : 0 < r) (hlo : 2 ^ 52 ≤ r) (hhi : r < 2 ^ 53) (he : -51 ≤ e)
      (he' : e ≤ 971) : AtLeastTwo (.finite .positive r e h)

/-- A positive normal float of at least two stays one when packed, or overflows to infinity. -/
theorem atLeastTwo_unpack_pack {r : Nat} {e : Int} (h : 0 < r) (hlo : 2 ^ 52 ≤ r)
    (hhi : r < 2 ^ 53) (he : -51 ≤ e) :
    AtLeastTwo (UnpackedFloat.unpack .binary64
      (UnpackedFloat.pack .binary64 (.finite .positive r e h))) := by
  by_cases ho : e ≤ 971
  · rw [unpack_pack_finite h hhi (by omega) ho, if_pos hlo]
    exact .finite r e h hlo hhi he ho
  · rw [pack_finite_overflow h (by omega), unpack_pack (.infinity _)]
    exact .infinity

/-- A positive mantissa of 53 bits or more whose value is at least two rounds to a float of
at least two. -/
theorem atLeastTwo_round {m : Nat} {e : Int} (a : Accuracy) (hm : 52 ≤ m.log2)
    (hT : 2 ≤ totalExponent m e) :
    AtLeastTwo (UnpackedFloat.unpack .binary64
      (UnpackedFloat.pack .binary64 (roundWithAccuracy .binary64 .positive m e a))) := by
  obtain ⟨r, e', h, hround, hlo, hhi, he⟩ := roundWithAccuracy_normal .positive a hm
    (show -1021 ≤ totalExponent m e by omega)
  rw [hround]
  exact atLeastTwo_unpack_pack h hlo hhi (by omega)

theorem atLeastTwo_mul_one {u : UnpackedFloat} (hu : AtLeastTwo u) :
    AtLeastTwo (UnpackedFloat.unpack .binary64 (UnpackedFloat.pack .binary64
      (UnpackedFloat.mul .binary64 u (.finite .positive (2 ^ 52) (-52) (by decide))))) := by
  cases hu with
  | infinity =>
    rw [UnpackedFloat.mul, unpack_pack (.infinity _)]
    exact .infinity
  | finite r e h hlo hhi he he' =>
    -- multiplying by one keeps the 53 bits of the mantissa and the exponent
    have hr : r.log2 = 52 := (Nat.log2_eq_iff (by omega)).2 ⟨hlo, hhi⟩
    have hlog : (r * 2 ^ 52).log2 = 104 := by
      rw [← Nat.shiftLeft_eq, log2_shiftLeft h, hr]
    exact atLeastTwo_round .exact (by omega) (by simp only [totalExponent, hlog]; omega)

theorem atLeastTwo_ofNat {k : Nat} (hk : 2 ≤ k) :
    AtLeastTwo (UnpackedFloat.unpack .binary64
      (UnpackedFloat.pack .binary64 (UnpackedFloat.ofNat .binary64 k))) := by
  have hlog : 1 ≤ k.log2 := (Nat.le_log2 (by omega)).2 hk
  simp only [UnpackedFloat.ofNat, UnpackedFloat.ofInt, UnpackedFloat.normalize]
  rw [show compare (k : Int) 0 = .gt from Int.compare_eq_gt.2 (by omega)]
  simp only [UnpackedFloat.round, decreaseExponent, Int.toNat_natCast]
  -- the count is shifted up to 53 bits, keeping its value
  apply atLeastTwo_round .exact
  · rw [log2_shiftLeft (by omega), targetExponent_eq]
    simp only [totalExponent]
    omega
  · simp only [totalExponent, log2_shiftLeft (show 0 < k by omega), targetExponent_eq]
    omega

/-- The float of a count of two or more is at least two, or infinite. -/
theorem atLeastTwo_toFloat {k : Nat} (hk : 2 ≤ k) : AtLeastTwo k.toFloat.toModel.unpack := by
  show AtLeastTwo (Float.ofScientific k false 0).toModel.unpack
  unfold Float.ofScientific
  split
  · -- below `2^53`: the count as a float, times the float one
    rename_i hsmall
    have hnat : k.toUInt64.toNat = k :=
      UInt64.toNat_ofNat_of_lt' (Nat.lt_of_lt_of_le hsmall.1 (by decide))
    have hone : (Float.exactlyRepresentablePowersOfTen[0]).toModel.unpack =
        .finite .positive (2 ^ 52) (-52) (by decide) := rfl
    show AtLeastTwo (Float.Model.mul (Float.Model.ofUInt64 k.toUInt64)
      (Float.exactlyRepresentablePowersOfTen[0]).toModel).unpack
    rw [Float.Model.mul, hone]
    show AtLeastTwo (UnpackedFloat.unpack .binary64 (UnpackedFloat.pack .binary64
      (UnpackedFloat.mul .binary64 (UnpackedFloat.unpack .binary64 (UnpackedFloat.pack .binary64
        (UnpackedFloat.ofNat .binary64 k.toUInt64.toNat))) _)))
    rw [hnat]
    exact atLeastTwo_mul_one (atLeastTwo_ofNat hk)
  · -- from `2^53` on: the count shifted by 53 bits times `10 ^ 0`, rounded
    show AtLeastTwo (UnpackedFloat.unpack .binary64 (UnpackedFloat.pack .binary64
      (UnpackedFloat.ofScientific .binary64 k 0)))
    have hlog : 1 ≤ k.log2 := (Nat.le_log2 (by omega)).2 hk
    rw [UnpackedFloat.ofScientific, dif_neg (by omega), if_neg (by decide),
      if_neg (by rw [show Format.binary64.exponentBits = 11 from rfl]; omega),
      if_pos (by decide), UnpackedFloat.mul]
    have hmb : Format.binary64.mantissaBits = 53 := rfl
    have hlog' : (k <<< 53 * 10 ^ Int.toNat 0).log2 = k.log2 + 53 := by
      rw [show Int.toNat 0 = 0 from rfl, Nat.pow_zero, Nat.mul_one, log2_shiftLeft (by omega)]
    simp only [hmb]
    apply atLeastTwo_round .exact
    · omega
    · simp only [totalExponent, hlog']
      omega

/-! ## Reciprocals of counts -/

/-- Dividing `2^52 · 2^-52` by a normal float of at least two: the target exponent is `-54` or
below, and the quotient of the shifted mantissas is at most one half at that exponent. -/
theorem divCore_le_half {r : Nat} {e : Int} (hlo : 2 ^ 52 ≤ r) (hhi : r < 2 ^ 53)
    (he : -51 ≤ e) (he' : e ≤ 971) :
    (divCore .binary64 (2 ^ 52) (-52) r e).2.1 ≤ -54 ∧
      (divCore .binary64 (2 ^ 52) (-52) r e).1 ≤
        2 ^ (-1 - (divCore .binary64 (2 ^ 52) (-52) r e).2.1).toNat := by
  have hr : r.log2 = 52 := (Nat.log2_eq_iff (by omega)).2 ⟨hlo, hhi⟩
  simp only [divCore, targetExponent_eq, totalExponent, Nat.log2_two_pow, hr]
  generalize ht : min (-52 - e) (max ((52 : Nat) + 1 + -52 - ((52 : Nat) + 1 + e) - 53) (-1074)) = t
  have htd : t = max (-105 - e) (-1074) := by omega
  refine ⟨by omega, ?_⟩
  -- `2^52` shifted by `sh` bits, divided by a mantissa of 53 bits, is at most `2^sh`
  calc 2 ^ 52 <<< (-52 - e - t).toNat / r ≤ 2 ^ (-52 - e - t).toNat := by
        apply Nat.div_le_of_le_mul
        rw [Nat.shiftLeft_eq]
        exact Nat.mul_le_mul_right _ hlo
    _ ≤ 2 ^ (-1 - t).toNat := Nat.pow_le_pow_right (by decide) (by omega)

/-- Zero, or a finite float at exponent `-53` or below: less than one in magnitude. -/
inductive BelowOne : UnpackedFloat → Prop
  | zero (s : Sign) : BelowOne (.zero s)
  | finite (s : Sign) (r : Nat) (e : Int) (h : 0 < r) (he : e ≤ -53) : BelowOne (.finite s r e h)

/-- Plus or minus one divided by a float of at least two is below one in magnitude. -/
theorem belowOne_div (s : Sign) {u : UnpackedFloat} (hu : AtLeastTwo u) :
    BelowOne (UnpackedFloat.unpack .binary64 (UnpackedFloat.pack .binary64
      (UnpackedFloat.div .binary64 (.finite s (2 ^ 52) (-52) (by decide)) u))) := by
  cases hu with
  | infinity =>
    rw [UnpackedFloat.div, unpack_pack (.zero _)]
    exact .zero _
  | finite r e h hlo hhi he he' =>
    obtain ⟨htd, hq⟩ := divCore_le_half hlo hhi he he'
    simp only [UnpackedFloat.div]
    generalize divCore .binary64 (2 ^ 52) (-52) r e = q at htd hq ⊢
    obtain ⟨m, t, acc⟩ := q
    rcases roundWithAccuracy_le_half (s / .positive) acc htd hq with
      hz | ⟨r', e', h', hround, hr', hlo', hhi'⟩
    · rw [hz, unpack_pack (.zero _)]
      exact .zero _
    · rw [hround, unpack_pack_finite h' hr' hlo' (by omega)]
      exact .finite _ _ _ _ (by split <;> omega)

/-! ## Comparing with one -/

theorem BelowOne.beq_eq_false {u : UnpackedFloat} (hu : BelowOne u) (s : Sign) (h : 0 < 2 ^ 52) :
    u.beq (.finite s (2 ^ 52) (-52) h) = false := by
  cases hu with
  | zero t => cases t <;> cases s <;> rfl
  | finite t r e h' he =>
    cases t <;> cases s <;> simp [UnpackedFloat.beq, UnpackedFloat.compare] <;> omega

theorem AtLeastTwo.beq_eq_false {u : UnpackedFloat} (hu : AtLeastTwo u) (s : Sign)
    (h : 0 < 2 ^ 52) :
    u.beq (.finite s (2 ^ 52) (-52) h) = false ∧
      u.neg.beq (.finite s (2 ^ 52) (-52) h) = false := by
  cases hu with
  | infinity => cases s <;> exact ⟨rfl, rfl⟩
  | finite r e h' _ _ he _ =>
    cases s <;> simp [UnpackedFloat.beq, UnpackedFloat.compare, UnpackedFloat.neg] <;> omega

theorem Canonical.neg {u : UnpackedFloat} (h : Canonical u) : Canonical u.neg := by
  cases h with
  | notANumber => exact .notANumber
  | infinity s => exact .infinity _
  | zero s => exact .zero _
  | subnormal s m h hm => exact .subnormal _ m h hm
  | normal s m e h hlo hhi helo hehi => exact .normal _ m e h hlo hhi helo hehi

theorem unpack_neg (x : Float) : (-x).toModel.unpack = x.toModel.unpack.neg :=
  unpack_pack (canonical_unpack x.toModel.toBits.toBitVec).neg

/-- Comparing floats is comparing their unpacked forms. -/
theorem beq_eq (x y : Float) : (x == y) = x.toModel.unpack.beq y.toModel.unpack := rfl

/-- A count of two or more, its negation, its reciprocal and its negated reciprocal are none of
them `1` or `-1` in binary64. -/
theorem beq_one_of_two_le {k : Nat} (hk : 2 ≤ k) (s : Sign) (h : 0 < 2 ^ 52) :
    k.toFloat.toModel.unpack.beq (.finite s (2 ^ 52) (-52) h) = false ∧
      (-k.toFloat).toModel.unpack.beq (.finite s (2 ^ 52) (-52) h) = false ∧
      (1.0 / k.toFloat).toModel.unpack.beq (.finite s (2 ^ 52) (-52) h) = false ∧
      (-1.0 / k.toFloat).toModel.unpack.beq (.finite s (2 ^ 52) (-52) h) = false := by
  have hk := atLeastTwo_toFloat hk
  have hdiv : ∀ t : Sign, (Float.ofModel (Float.Model.pack (UnpackedFloat.div .binary64
      (.finite t (2 ^ 52) (-52) (by decide)) k.toFloat.toModel.unpack))).toModel.unpack.beq
      (.finite s (2 ^ 52) (-52) h) = false := fun t =>
    (belowOne_div t hk).beq_eq_false s h
  refine ⟨(hk.beq_eq_false s h).1, ?_, ?_, ?_⟩
  · rw [unpack_neg]
    exact (hk.beq_eq_false s h).2
  · show (Float.ofModel (Float.Model.pack (UnpackedFloat.div .binary64
      (1.0 : Float).toModel.unpack k.toFloat.toModel.unpack))).toModel.unpack.beq _ = false
    rw [unpack_one]
    exact hdiv .positive
  · show (Float.ofModel (Float.Model.pack (UnpackedFloat.div .binary64
      (-1.0 : Float).toModel.unpack k.toFloat.toModel.unpack))).toModel.unpack.beq _ = false
    rw [unpack_neg_one]
    exact hdiv .negative

end Binary64

open Binary64

namespace Const

/-- The count a constant is built from. -/
def count : Const → Nat
  | .nat k | .negNat k | .inv k | .negInv k => k

theorem beq_eq_false_of_two_le (c : Const) (hc : 2 ≤ c.count) (s : Sign) (h : 0 < 2 ^ 52) :
    c.toFloat.toModel.unpack.beq (.finite s (2 ^ 52) (-52) h) = false := by
  cases c with
  | nat k => exact (beq_one_of_two_le hc s h).1
  | negNat k => exact (beq_one_of_two_le hc s h).2.1
  | inv k => exact (beq_one_of_two_le hc s h).2.2.1
  | negInv k => exact (beq_one_of_two_le hc s h).2.2.2

/-- The constants whose binary64 value tests equal to one: the count one and its reciprocal. -/
theorem toFloat_beq_one_iff (c : Const) :
    (c.toFloat == 1.0) = true ↔ c = .nat 1 ∨ c = .inv 1 := by
  refine ⟨fun h => ?_, by rintro (rfl | rfl) <;> decide⟩
  -- counts zero and one are evaluated; a count of two or more never tests equal to one
  cases c <;> rename_i k <;> rcases k with _ | _ | k
  all_goals first
    | exact absurd h (by decide)
    | exact .inl rfl
    | exact .inr rfl
    | exact absurd h (by
        rw [beq_eq, unpack_one, beq_eq_false_of_two_le _ (by simp [count]) _ _]
        decide)

/-- The constants whose binary64 value tests equal to minus one: the negated count one and
its negated reciprocal. -/
theorem toFloat_beq_neg_one_iff (c : Const) :
    (c.toFloat == -1.0) = true ↔ c = .negNat 1 ∨ c = .negInv 1 := by
  refine ⟨fun h => ?_, by rintro (rfl | rfl) <;> decide⟩
  cases c <;> rename_i k <;> rcases k with _ | _ | k
  all_goals first
    | exact absurd h (by decide)
    | exact .inl rfl
    | exact .inr rfl
    | exact absurd h (by
        rw [beq_eq, unpack_neg_one, beq_eq_false_of_two_le _ (by simp [count]) _ _]
        decide)

end Const

end TaylorOde
