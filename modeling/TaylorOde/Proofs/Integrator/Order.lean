import TaylorOde.Integrator.Config
import Mathlib
/-!
# The default Taylor order

With no order given, an integrator takes `defaultOrder` of its tolerance: `⌈-ln tol / 2 + 1⌉`
computed in binary64 arithmetic, raised to 2 when below, saturating at the largest 32-bit
count, and `minOrder` when the value is not finite. Whatever the tolerance, the result is at
least `minOrder` (`minOrder_le_defaultOrder`), so the order of every integrator whose settings
pass validation lies between `minOrder` and `maxOrder` (`orderFor_range`).

The one case that needs an argument is a finite value of at least 2, truncated to an integer:
its binary64 form is a mantissa of 53 bits at an exponent of at least `-51`, or a subnormal,
which is far below 2; truncating the first kind leaves at least 2.
-/

namespace TaylorOde

open Float.Model Float.Model.UnpackedFloat

namespace Binary64

/-- A finite binary64 float unpacks to a mantissa of 53 bits, or is subnormal. -/
theorem unpack_finite_normal {b : BitVec 64} {s : Sign} {m : Nat} {e : Int} {hp : 0 < m}
    (h : UnpackedFloat.unpack Format.binary64 b = .finite s m e hp) :
    2 ^ 52 ≤ m ∨ e = -1074 := by
  unfold UnpackedFloat.unpack at h
  dsimp only at h
  split at h
  · split at h <;> cases h
  split at h
  · -- a zero exponent field: a zero or a subnormal
    rename_i hz
    split at h
    · cases h
    · cases h
      right
      simp [hz, Format.exponentBias]
  · -- a normal float: the implicit leading bit sits above the 52 stored ones
    cases h
    left
    rw [BitVec.toNat_append,
      ← Nat.shiftLeft_add_eq_or_of_lt (@unpackMantissa Format.binary64 b).isLt]
    simp

theorem mantissa_shiftRight (em : ExtendedMantissa) (k : Nat) :
    (em >>> k).mantissa = em.mantissa / 2 ^ k := by
  induction k generalizing em with
  | zero => simp [HShiftRight.hShiftRight, Nat.repeat]
  | succ k ih =>
    change (Nat.repeat ExtendedMantissa.shiftRightOne (k + 1) em).mantissa = _
    change ((em >>> k).mantissa / 2) = _
    rw [ih, Nat.div_div_eq_div_mul, Nat.pow_succ]

/-- Truncating a positive float `m · 2^e` to an integer divides out the negative part of the
exponent. -/
theorem roundToInt_positive (m : Nat) (e : Int) :
    roundToInt .positive m e = ((m * 2 ^ e.toNat / 2 ^ (-e).toNat : Nat) : Int) := by
  simp only [roundToInt, decreaseExponent, shiftToExponent, mantissa_shiftRight,
    ExtendedMantissa.ofMantissaAndAccuracy, Sign.apply, Nat.shiftLeft_eq, Int.sub_zero]
  congr 3
  omega

theorem two_le_truncate {m : Nat} {e : Int} (hm : 2 ^ 52 ≤ m) (he : -51 ≤ e) :
    2 ≤ m * 2 ^ e.toNat / 2 ^ (-e).toNat := by
  by_cases h : 0 ≤ e
  · have hneg : (-e).toNat = 0 := by omega
    rw [hneg, Nat.pow_zero, Nat.div_one]
    calc 2 ≤ 2 ^ 52 := by decide
      _ ≤ m := hm
      _ ≤ m * 2 ^ e.toNat := Nat.le_mul_of_pos_right _ (Nat.two_pow_pos _)
  · have hpos : e.toNat = 0 := by omega
    rw [hpos, Nat.pow_zero, Nat.mul_one, Nat.le_div_iff_mul_le (Nat.two_pow_pos _)]
    calc 2 * 2 ^ (-e).toNat ≤ 2 * 2 ^ 51 :=
          Nat.mul_le_mul_left _ (Nat.pow_le_pow_right (by decide) (by omega))
      _ = 2 ^ 52 := by decide
      _ ≤ m := hm

/-- A finite float of at least 2 truncates to at least 2. -/
theorem two_le_toUInt64 {p : Float} (hfin : p.isFinite = true) (hlt : ¬ p < 2.0) :
    2 ≤ p.toUInt64.toNat := by
  have htwo : (2.0 : Float).toModel.unpack = .finite .positive (2 ^ 52) (-51) (by decide) := rfl
  have hshape : ∀ s m e hp, p.toModel.unpack = .finite s m e hp → 2 ^ 52 ≤ m ∨ e = -1074 :=
    fun _ _ _ _ h => unpack_finite_normal h
  simp only [LT.lt, Float.lt, Float.Model.lt] at hlt
  change p.toModel.unpack.isFinite = true at hfin
  change 2 ≤ (UInt64.ofNatClamp (p.toModel.unpack.toInt 0 (UInt64.size - 1)).toNat).toNat
  simp only [htwo] at hlt
  generalize p.toModel.unpack = u at hlt hfin hshape ⊢
  cases u with
  | notANumber => cases hfin
  | infinity s => cases hfin
  | zero s => simp [UnpackedFloat.lt, UnpackedFloat.compare] at hlt
  | finite s m e hp =>
    cases s with
    | negative => simp [UnpackedFloat.lt, UnpackedFloat.compare] at hlt
    | positive =>
      -- not below `2 = 2^52 · 2^-51`, and not subnormal: a 53-bit mantissa at `e ≥ -51`
      have hge : -51 ≤ e ∧ 2 ^ 52 ≤ m := by
        rcases hshape _ _ _ hp rfl with hm | he
        · refine ⟨Int.not_lt.1 fun hlow => hlt ?_, hm⟩
          simp [UnpackedFloat.lt, UnpackedFloat.compare, Ordering.then, Int.compare_eq_lt.2 hlow]
        · subst he
          simp [UnpackedFloat.lt, UnpackedFloat.compare, Ordering.then, Int.compare_eq_lt] at hlt
      have h2 := two_le_truncate hge.2 hge.1
      simp only [toInt, roundToInt_positive, Int.toNat_natCast, UInt64.ofNatClamp]
      split
      · simpa using h2
      · simp [UInt64.size]

end Binary64

/-- The order a tolerance calls for is never below `minOrder`, whatever the tolerance. -/
theorem minOrder_le_defaultOrder (tol : Float) : minOrder ≤ defaultOrder tol := by
  unfold defaultOrder
  dsimp only
  generalize (-(Float.log tol) / 2.0 + 1.0).ceil = p
  split
  · rename_i hfin
    by_cases hlt : p < 2.0
    · have hsmall : ¬ (2.0 : Float) ≥ 4294967296.0 := by decide
      have htwo : (2.0 : Float).toUInt64.toNat = 2 := by decide
      simp [hlt, hsmall, htwo, minOrder]
    · rw [if_neg hlt]
      split
      · simp [minOrder, wordLimit32]
      · exact Binary64.two_le_toUInt64 hfin hlt
  · exact Nat.le_refl _

/-- The order of an integrator whose settings name no order out of range lies between
`minOrder` and `maxOrder`, whatever its tolerance. -/
theorem orderFor_range {c : TaylorConfig}
    (hval : ∀ o, c.order = some o → minOrder ≤ o ∧ o ≤ maxOrder) (tol : Float) :
    minOrder ≤ c.orderFor tol ∧ c.orderFor tol ≤ maxOrder := by
  unfold TaylorConfig.orderFor
  cases h : c.order with
  | some o => exact hval o h
  | none => exact ⟨Nat.le_min.2 ⟨minOrder_le_defaultOrder tol, by decide⟩, Nat.min_le_right _ _⟩

end TaylorOde
