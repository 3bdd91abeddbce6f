import TaylorOde.Expr.Basic
import Mathlib
/-!
# Binary64 arithmetic

Facts about binary64 sums and products that the canonical constructors rely on. `Float`
computes through its model: each operation unpacks its operands into `UnpackedFloat`,
computes there and packs the result. So:

* addition and multiplication commute, because they do on unpacked floats
  (`float_mul_comm`), and a float compared equal to a finite one multiplies as it does
  (`mul_eq_of_beq`);
* packing a float and unpacking it again changes nothing, for every shape that unpacking
  gives (`Canonical`, `unpack_pack`), and unpacking a valid word and packing it again gives the
  word (`pack_unpack`, `ofBits_toBits`). With them, a sum started from zero does not depend on
  the order of its two terms (`zero_add_add_comm`), which is how the literals of a sum fold, and
  adds nothing to a single term that is no zero (`zero_add_of_ne_zero`).
-/

namespace TaylorOde

open Float.Model Float.Model.UnpackedFloat

namespace Binary64

/-! ## Commuting operands -/

theorem sign_mul_comm (s t : Sign) : s * t = t * s := by
  cases s <;> cases t <;> rfl

theorem unpacked_mul_comm (spec : Format) (a b : UnpackedFloat) :
    UnpackedFloat.mul spec a b = UnpackedFloat.mul spec b a := by
  cases a <;> cases b <;> simp [UnpackedFloat.mul, sign_mul_comm, Nat.mul_comm, Int.add_comm]

theorem unpacked_add_comm (spec : Format) (a b : UnpackedFloat) :
    UnpackedFloat.add spec a b = UnpackedFloat.add spec b a := by
  cases a <;> cases b
  case infinity.infinity s t => cases s <;> cases t <;> rfl
  case zero.zero s t => cases s <;> cases t <;> rfl
  case finite.finite s m e hm t n f hn =>
    -- both are aligned at the smaller exponent, and the signed mantissas add
    simp only [UnpackedFloat.add, Int.min_comm e f, Int.add_comm]
  all_goals rfl

/-- Binary64 multiplication commutes. -/
theorem float_mul_comm (x y : Float) : x * y = y * x := by
  show Float.ofModel (x.toModel * y.toModel) = Float.ofModel (y.toModel * x.toModel)
  show Float.ofModel (Float.Model.pack _) = Float.ofModel (Float.Model.pack _)
  rw [unpacked_mul_comm]

/-! ## Packing and unpacking -/

/-- The sign is the top bit, above the exponent and the mantissa. -/
theorem unpackSign_packComponents {s : Sign} {e : BitVec 11} {m : BitVec 52} :
    Sign.ofBitVec (unpackSign (packComponents .binary64 s e m)) = s := by
  simp only [unpackSign, packComponents, BitVec.extractLsb]
  rw [BitVec.extractLsb'_append_eq_of_le (by omega), BitVec.extractLsb'_append_eq_of_le (by omega)]
  cases s <;> rfl

/-- The shapes a binary64 word unpacks to: the specials, a subnormal mantissa at the least
exponent, or a mantissa of 53 bits at an exponent in range. -/
inductive Canonical : UnpackedFloat → Prop
  | notANumber : Canonical .notANumber
  | infinity (s : Sign) : Canonical (.infinity s)
  | zero (s : Sign) : Canonical (.zero s)
  | subnormal (s : Sign) (m : Nat) (h : 0 < m) (hm : m < 2 ^ 52) :
      Canonical (.finite s m (-1074) h)
  | normal (s : Sign) (m : Nat) (e : Int) (h : 0 < m) (hlo : 2 ^ 52 ≤ m) (hhi : m < 2 ^ 53)
      (helo : -1074 ≤ e) (hehi : e ≤ 971) : Canonical (.finite s m e h)

/-- Every binary64 word unpacks to one of the canonical shapes. -/
theorem canonical_unpack (b : BitVec 64) : Canonical (UnpackedFloat.unpack .binary64 b) := by
  have hm := (@unpackMantissa Format.binary64 b).isLt
  have he := (@unpackExponent Format.binary64 b).isLt
  rw [UnpackedFloat.unpack]
  split
  · split
    · exact .infinity _
    · exact .notANumber
  rename_i hinf
  split
  · split
    · exact .zero _
    · rename_i hzero _
      -- a zero exponent field: the mantissa is stored as it is, at the least exponent
      have h0 : (@unpackExponent Format.binary64 b).toNat = 0 := by
        simpa [BitVec.toNat_eq] using hzero
      have hexp : ((@unpackExponent Format.binary64 b).toNat : Int) -
          ((Format.binary64.exponentBias : Nat) + (52 : Nat)) + 1 = -1074 := by
        rw [h0]
        rfl
      rw [hexp]
      exact .subnormal _ _ _ hm
  · -- a normal float: the implicit leading bit sits above the 52 stored ones
    rename_i hzero
    have h1 : (@unpackExponent Format.binary64 b).toNat ≠ 2047 := by
      simpa [BitVec.toNat_eq] using hinf
    have h0 : (@unpackExponent Format.binary64 b).toNat ≠ 0 := by
      simpa [BitVec.toNat_eq] using hzero
    have hlead : (1#1 ++ @unpackMantissa Format.binary64 b).toNat =
        2 ^ 52 + (@unpackMantissa Format.binary64 b).toNat := by
      rw [BitVec.toNat_append, ← Nat.shiftLeft_add_eq_or_of_lt hm]
      simp [Nat.shiftLeft_eq]
    have hbias : ((Format.binary64.exponentBias : Nat) : Int) = 1023 := rfl
    change 2 ^ 11 > _ at he
    change _ < 2 ^ 52 at hm
    refine .normal _ _ _ _ (by omega) (by omega) ?_ ?_ <;>
      simp only [hbias] <;> push_cast <;> omega

/-- The implicit leading bit of a normal mantissa. -/
theorem toNat_one_append (v : BitVec 52) : (1#1 ++ v).toNat = 2 ^ 52 + v.toNat := by
  rw [BitVec.toNat_append, ← Nat.shiftLeft_add_eq_or_of_lt v.isLt]
  simp [Nat.shiftLeft_eq]

/-- Packing a float of one of the shapes `unpack` gives and unpacking it again changes
nothing. -/
theorem unpack_pack {u : UnpackedFloat} (h : Canonical u) :
    UnpackedFloat.unpack .binary64 (pack .binary64 u) = u := by
  have hbias : ((Format.binary64.exponentBias : Nat) : Int) = 1023 := rfl
  cases h with
  | notANumber => rfl
  | infinity s => cases s <;> rfl
  | zero s => cases s <;> rfl
  | subnormal s m hp hm =>
    -- a zero exponent field, and the mantissa stored as it is
    have hlog : m.log2 + 1 ≠ 53 := by
      have := (Nat.log2_lt (by omega)).2 hm
      omega
    have hmant : (BitVec.ofNat 52 m).toNat = m := by
      rw [BitVec.toNat_ofNat, Nat.mod_eq_of_lt hm]
    have hne : BitVec.ofNat 52 m ≠ 0#52 := fun h0 => by
      have := congrArg BitVec.toNat h0
      rw [hmant] at this
      simp at this
      omega
    rw [UnpackedFloat.pack, if_neg (by decide),
      if_neg (show ¬m.log2 + 1 = Format.binary64.mantissaBits from hlog), UnpackedFloat.unpack]
    simp only [unpackMantissa_packComponents, unpackExponent_packComponents,
      unpackSign_packComponents]
    rw [if_neg (by decide), if_pos trivial, dif_neg hne]
    simp [hmant, hbias]
  | normal s m e hp hlo hhi helo hehi =>
    -- the biased exponent fits the field, and the implicit bit is dropped
    have hlog : m.log2 = 52 := by
      have h1 := (Nat.le_log2 (by omega)).2 hlo
      have h2 := (Nat.log2_lt (by omega)).2 hhi
      omega
    have hexp : (e + (Format.binary64.exponentBias : Nat) + (52 : Nat)).toNat =
        (e + 1075).toNat := by
      rw [hbias]
      omega
    have hfield : (BitVec.ofNat 11 (e + 1075).toNat).toNat = (e + 1075).toNat := by
      rw [BitVec.toNat_ofNat, Nat.mod_eq_of_lt (by omega)]
    have hne1 : BitVec.ofNat 11 (e + 1075).toNat ≠ -1#11 := fun h1 => by
      have := congrArg BitVec.toNat h1
      rw [hfield] at this
      simp at this
      omega
    have hne0 : BitVec.ofNat 11 (e + 1075).toNat ≠ 0#11 := fun h0 => by
      have := congrArg BitVec.toNat h0
      rw [hfield] at this
      simp at this
      omega
    have hmant : (1#1 ++ BitVec.ofNat 52 m).toNat = m := by
      rw [toNat_one_append, BitVec.toNat_ofNat]
      omega
    rw [UnpackedFloat.pack]
    simp only [hlog, hexp]
    rw [if_neg (by simp; omega), if_pos (show 52 + 1 = Format.binary64.mantissaBits from rfl),
      UnpackedFloat.unpack]
    simp only [unpackMantissa_packComponents, unpackExponent_packComponents,
      unpackSign_packComponents]
    rw [if_neg hne1, if_neg hne0]
    simp only [hmant, hfield, hbias]
    congr 1
    omega

/-! ## Unpacking and packing again

The other direction holds of every valid word: a `Float.Model` carries its own validity, so
packing what it unpacks to gives it back, and a float's bits read back give the float
(`ofBits_toBits`). Validity rules out the one exception, a NaN with another payload. -/

theorem toBitVec_ofBitVec (v : BitVec 1) : (Sign.ofBitVec v).toBitVec = v := by
  revert v
  decide

/-- A word is its sign, exponent and mantissa fields put back together. -/
theorem packComponents_unpackFields (b : BitVec 64) :
    packComponents .binary64 (Sign.ofBitVec (@unpackSign .binary64 b))
      (@unpackExponent .binary64 b) (@unpackMantissa .binary64 b) = b := by
  simp only [packComponents, toBitVec_ofBitVec, unpackSign, unpackExponent, unpackMantissa,
    BitVec.extractLsb]
  ext i hi
  grind

theorem packComponents_of_fields {b : BitVec 64} {e : BitVec 11} {m : BitVec 52}
    (he : @unpackExponent .binary64 b = e) (hm : @unpackMantissa .binary64 b = m) :
    packComponents .binary64 (Sign.ofBitVec (@unpackSign .binary64 b)) e m = b := by
  subst he hm
  exact packComponents_unpackFields b

/-- Unpacking a valid word and packing it again gives the word back. -/
theorem pack_unpack {b : BitVec 64} (hv : Format.binary64.Valid b) :
    pack .binary64 (UnpackedFloat.unpack .binary64 b) = b := by
  have hbias : ((Format.binary64.exponentBias : Nat) : Int) = 1023 := rfl
  have hm := (@unpackMantissa Format.binary64 b).isLt
  have he := (@unpackExponent Format.binary64 b).isLt
  change _ < 2 ^ 52 at hm
  change _ < 2 ^ 11 at he
  rw [UnpackedFloat.unpack]
  split
  · -- an infinity, or the one NaN a valid word holds
    rename_i hinf
    split
    · exact packComponents_of_fields hinf ‹_›
    · exact (hv.eq_packedNaN hinf ‹_›).symm
  rename_i hinf
  split
  · rename_i hzero
    split
    · exact packComponents_of_fields hzero ‹_›
    · -- a subnormal: the mantissa is too short for the normal branch of `pack`
      rename_i hne
      have h0 : (@unpackExponent Format.binary64 b).toNat = 0 := by
        simpa [BitVec.toNat_eq] using hzero
      have hpos : (@unpackMantissa Format.binary64 b).toNat ≠ 0 := fun h =>
        hne (by simpa [BitVec.toNat_eq] using h)
      have hlog : ¬(@unpackMantissa Format.binary64 b).toNat.log2 + 1 = 53 := by
        have := (Nat.log2_lt hpos).2 hm
        omega
      rw [UnpackedFloat.pack, if_neg (by simp [h0, hbias]),
        if_neg (show ¬_ = Format.binary64.mantissaBits from hlog)]
      exact packComponents_of_fields hzero (by simp)
  · -- a normal float: the stored exponent comes back, and the implicit bit is dropped
    rename_i hzero
    have h1 : (@unpackExponent Format.binary64 b).toNat ≠ 2047 := by
      simpa [BitVec.toNat_eq] using hinf
    have h0 : (@unpackExponent Format.binary64 b).toNat ≠ 0 := by
      simpa [BitVec.toNat_eq] using hzero
    have hlead : (1#1 ++ @unpackMantissa Format.binary64 b).toNat =
        2 ^ 52 + (@unpackMantissa Format.binary64 b).toNat :=
      toNat_one_append _
    have hlog : (1#1 ++ @unpackMantissa Format.binary64 b).toNat.log2 = 52 := by
      have hlo : 52 ≤ (1#1 ++ @unpackMantissa Format.binary64 b).toNat.log2 :=
        (Nat.le_log2 (by omega)).2 (by omega)
      have hhi : (1#1 ++ @unpackMantissa Format.binary64 b).toNat.log2 < 53 :=
        (Nat.log2_lt (by omega)).2 (by omega)
      omega
    have hexp : (((@unpackExponent Format.binary64 b).toNat : Int) -
        ((Format.binary64.exponentBias : Nat) + (52 : Nat)) +
        (Format.binary64.exponentBias : Nat) + (52 : Nat)).toNat =
        (@unpackExponent Format.binary64 b).toNat := by
      omega
    rw [UnpackedFloat.pack]
    simp only [hlog, hexp]
    rw [if_neg (by simp; omega), if_pos (show 52 + 1 = Format.binary64.mantissaBits from rfl)]
    refine packComponents_of_fields (by simp) ?_
    rw [← BitVec.toNat_inj, BitVec.toNat_ofNat, hlead,
      show (2 : Nat) ^ Format.binary64.mantissaBitsWithoutImplicit = 2 ^ 52 from rfl]
    omega

/-- Unpacking a float and packing it again gives the float. -/
theorem pack_unpack_model (f : Float.Model) : Float.Model.pack f.unpack = f := by
  obtain ⟨bits, hv⟩ := f
  rw [Float.Model.pack, Float.Model.mk.injEq]
  exact congrArg UInt64.ofBitVec (pack_unpack hv)

/-- Reading a float's bits back gives the float. -/
theorem ofBits_toBits (x : Float) : Float.ofBits x.toBits = x :=
  congrArg Float.ofModel (pack_unpack_model x.toModel)

/-! ## Sums that start from zero -/

/-- What adding to positive zero does to a float: a zero of either sign becomes positive,
everything else stays. -/
def plusZero : UnpackedFloat → UnpackedFloat
  | .zero _ => .zero .positive
  | u => u

theorem add_zero_left (spec : Format) (u : UnpackedFloat) :
    UnpackedFloat.add spec (.zero .positive) u = plusZero u := by
  cases u
  case zero s => cases s <;> rfl
  all_goals rfl

theorem Canonical.plusZero {u : UnpackedFloat} (h : Canonical u) : Canonical (plusZero u) := by
  cases u
  case zero s => exact .zero _
  all_goals exact h

/-- Adding a float to a sum started from zero is symmetric in the two: the zero only fixes the
sign of a zero. -/
theorem add_plusZero_comm (spec : Format) (a b : UnpackedFloat) :
    UnpackedFloat.add spec (plusZero a) b = UnpackedFloat.add spec (plusZero b) a := by
  cases a <;> cases b
  case zero.zero s t => cases s <;> cases t <;> rfl
  all_goals first | rfl | exact unpacked_add_comm _ _ _

theorem unpack_zero : (0.0 : Float).toModel.unpack = .zero .positive := rfl

/-- Adding a float other than a zero to positive zero gives the float. -/
theorem zero_add_of_ne_zero {x : Float} (h : (x == 0.0) = false) : 0.0 + x = x := by
  -- every zero compares equal to positive zero
  have hnz : ∀ s, x.toModel.unpack ≠ .zero s := by
    intro s hs
    have hzero : (x == 0.0) = true := by
      show x.toModel.unpack.beq (0.0 : Float).toModel.unpack = true
      rw [hs, unpack_zero]
      cases s <;> rfl
    rw [h] at hzero
    cases hzero
  have hplus : plusZero x.toModel.unpack = x.toModel.unpack := by
    cases hx : x.toModel.unpack with
    | zero s => exact absurd hx (hnz s)
    | _ => rfl
  show Float.ofModel (Float.Model.pack (UnpackedFloat.add .binary64 (0.0 : Float).toModel.unpack
    x.toModel.unpack)) = x
  rw [unpack_zero, add_zero_left, hplus, pack_unpack_model]

/-- Starting from zero, adding `x` then `y` gives the sum of adding `y` then `x`. -/
theorem zero_add_add_comm (x y : Float) : 0.0 + x + y = 0.0 + y + x := by
  have hstart : ∀ z : Float, (0.0 + z).toModel.unpack = plusZero z.toModel.unpack := fun z => by
    show UnpackedFloat.unpack .binary64 (pack .binary64
      (UnpackedFloat.add .binary64 (0.0 : Float).toModel.unpack z.toModel.unpack)) = _
    rw [unpack_zero, add_zero_left]
    exact unpack_pack (canonical_unpack z.toModel.toBits.toBitVec).plusZero
  show Float.ofModel (Float.Model.pack (UnpackedFloat.add .binary64 (0.0 + x).toModel.unpack
      y.toModel.unpack)) = Float.ofModel (Float.Model.pack (UnpackedFloat.add .binary64
      (0.0 + y).toModel.unpack x.toModel.unpack))
  rw [hstart, hstart, add_plusZero_comm]

/-! ## Floats equal to a finite one -/

/-- The binary64 one and minus one unpack to finite floats. -/
theorem unpack_one : (1.0 : Float).toModel.unpack = .finite .positive (2 ^ 52) (-52) (by decide) :=
  rfl

theorem unpack_neg_one :
    (-1.0 : Float).toModel.unpack = .finite .negative (2 ^ 52) (-52) (by decide) := rfl

/-- A float equal to a finite one unpacks to it: finite floats compare equal only to
themselves. -/
theorem unpack_eq_of_beq_finite {a : UnpackedFloat} {s : Sign} {m : Nat} {e : Int} {hm : 0 < m}
    (h : a.beq (.finite s m e hm) = true) : a = .finite s m e hm := by
  cases a with
  | notANumber => simp [UnpackedFloat.beq, UnpackedFloat.compare] at h
  | infinity t => cases t <;> cases s <;> simp [UnpackedFloat.beq, UnpackedFloat.compare] at h
  | zero t => cases t <;> cases s <;> simp [UnpackedFloat.beq, UnpackedFloat.compare] at h
  | finite t m' e' hm' =>
    -- equal signs, and then equal exponents and mantissas
    cases t <;> cases s <;> simp [UnpackedFloat.beq, UnpackedFloat.compare] at h
    all_goals
      obtain ⟨rfl, rfl⟩ := h
      rfl

/-- Two products whose factors compare equal to finite floats are the same float. -/
theorem mul_eq_of_beq {x y c d : Float} (hc : ∃ s m e hm, c.toModel.unpack = .finite s m e hm)
    (hd : ∃ s m e hm, d.toModel.unpack = .finite s m e hm) (hx : (x == c) = true)
    (hy : (y == d) = true) : x * y = c * d := by
  obtain ⟨s, m, e, hm, hc⟩ := hc
  obtain ⟨s', m', e', hm', hd⟩ := hd
  have ux : x.toModel.unpack = c.toModel.unpack := by
    rw [hc]
    exact unpack_eq_of_beq_finite (hc ▸ hx)
  have uy : y.toModel.unpack = d.toModel.unpack := by
    rw [hd]
    exact unpack_eq_of_beq_finite (hd ▸ hy)
  show Float.ofModel (Float.Model.pack (UnpackedFloat.mul .binary64 x.toModel.unpack
    y.toModel.unpack)) = Float.ofModel (Float.Model.pack (UnpackedFloat.mul .binary64
    c.toModel.unpack d.toModel.unpack))
  rw [ux, uy]

end Binary64

end TaylorOde
