import TaylorOde.Scalar
import Mathlib
/-!
# Comparisons of scalars

The comparisons of both scalar types are those of IEEE arithmetic. Lean's `Float` and `Float32`
compare through their logical model: each operand is unpacked into an `UnpackedFloat` (a NaN, a
signed infinity, a signed zero, or a sign with a mantissa and an exponent), and
`UnpackedFloat.compare` orders two of them.

## Shape of the proof

The comparison of unpacked floats that are not NaN is the lexicographic comparison of a key
(`orderKey`): infinities at the ends, then the finite values of each sign ordered by exponent and
mantissa (reversed for negative values), and zeros of both signs in the middle, as one value
(`le_iff_keyLe`, `lt_iff_keyLt`). A NaN compares false with everything. Every law of the order
then comes from the order of the keys, where `omega` decides it, and passes to every scalar type
whose comparisons read its values through unpacked floats (`OrderLaws.ofUnpacked`): binary64
and binary32.

The laws (`Scalar.OrderLaws`): `≤` is transitive, `<` implies `≤`, two values that are not NaN
are comparable, and a value compared `≤` is no NaN.
-/

namespace TaylorOde

open Float.Model

namespace Scalar

/-- The order laws of IEEE comparisons: `≤` is a total preorder of the values that are not
NaN, `<` is its strict part, and a NaN compares false with everything. -/
class OrderLaws (α : Type) [Scalar α] : Prop where
  le_trans : ∀ {a b c : α}, le a b = true → le b c = true → le a c = true
  le_of_lt : ∀ {a b : α}, lt a b = true → le a b = true
  le_of_not_lt : ∀ {a b : α}, isNaN a = false → isNaN b = false → lt a b = false → le b a = true
  not_isNaN_left : ∀ {a b : α}, le a b = true → isNaN a = false
  not_isNaN_right : ∀ {a b : α}, le a b = true → isNaN b = false

variable {α : Type} [Scalar α]

/-- The smaller of two values is one of them. -/
theorem min_eq_or (a b : α) : Scalar.min a b = a ∨ Scalar.min a b = b := by
  unfold Scalar.min
  grind

/-- The larger of two values is one of them. -/
theorem max_eq_or (a b : α) : Scalar.max a b = a ∨ Scalar.max a b = b := by
  unfold Scalar.max
  grind

end Scalar

namespace UnpackedOrder

/-- Lexicographic comparison of keys. -/
def KeyLe (x y : Int × Int × Int) : Prop :=
  x.1 < y.1 ∨ x.1 = y.1 ∧ (x.2.1 < y.2.1 ∨ x.2.1 = y.2.1 ∧ x.2.2 ≤ y.2.2)

/-- Strict lexicographic comparison of keys. -/
def KeyLt (x y : Int × Int × Int) : Prop :=
  x.1 < y.1 ∨ x.1 = y.1 ∧ (x.2.1 < y.2.1 ∨ x.2.1 = y.2.1 ∧ x.2.2 < y.2.2)

/-- Where an unpacked float stands in the order: its rank (negative infinity, negative, zero,
positive, positive infinity), then its exponent and mantissa, negated for negative values. -/
def orderKey : UnpackedFloat → Int × Int × Int
  | .infinity .negative => (-2, 0, 0)
  | .finite .negative m e _ => (-1, -e, -m)
  | .zero _ => (0, 0, 0)
  | .finite .positive m e _ => (1, e, m)
  | .infinity .positive => (2, 0, 0)
  | .notANumber => (0, 0, 0)

/-- Comparing by exponent, then by mantissa, is lexicographic. -/
theorem isLE_then_compare (e₁ e₂ : Int) (m₁ m₂ : Nat) :
    ((compare e₁ e₂).then (compare m₁ m₂)).isLE = true ↔ e₁ < e₂ ∨ e₁ = e₂ ∧ m₁ ≤ m₂ := by
  rcases Int.lt_trichotomy e₁ e₂ with h | rfl | h
  · simp [h, Int.compare_eq_lt.2 h]
  · simp [Nat.isLE_compare]
  · simp [Int.compare_eq_gt.2 h]
    omega

theorem then_compare_eq_lt (e₁ e₂ : Int) (m₁ m₂ : Nat) :
    (compare e₁ e₂).then (compare m₁ m₂) = .lt ↔ e₁ < e₂ ∨ e₁ = e₂ ∧ m₁ < m₂ := by
  rcases Int.lt_trichotomy e₁ e₂ with h | rfl | h
  · simp [h, Int.compare_eq_lt.2 h]
  · simp [Nat.compare_eq_lt]
  · simp [Int.compare_eq_gt.2 h]
    omega

/-- Negative values compare the other way round. -/
theorem swap_then_compare (e₁ e₂ : Int) (m₁ m₂ : Nat) :
    ((compare e₁ e₂).then (compare m₁ m₂)).swap = (compare e₂ e₁).then (compare m₂ m₁) := by
  rw [Ordering.swap_then, Int.compare_swap, Nat.compare_swap]

/-- `≤` on unpacked floats is the order of their keys, away from NaN. -/
theorem le_iff_keyLe (a b : UnpackedFloat) :
    a.le b = true ↔ a.isNaN = false ∧ b.isNaN = false ∧ KeyLe (orderKey a) (orderKey b) := by
  -- one case per pair of shapes; finite values of one sign compare lexicographically
  rcases a with ⟨_ | _⟩ | _ | ⟨_ | _⟩ | ⟨_ | _, m, e, hm⟩ <;>
  rcases b with ⟨_ | _⟩ | _ | ⟨_ | _⟩ | ⟨_ | _, n, f, hn⟩ <;>
  simp +decide [UnpackedFloat.le, UnpackedFloat.compare, UnpackedFloat.isNaN, orderKey, KeyLe,
    swap_then_compare, isLE_then_compare]
  all_goals omega

/-- `<` on unpacked floats is the strict order of their keys, away from NaN. -/
theorem lt_iff_keyLt (a b : UnpackedFloat) :
    a.lt b = true ↔ a.isNaN = false ∧ b.isNaN = false ∧ KeyLt (orderKey a) (orderKey b) := by
  rcases a with ⟨_ | _⟩ | _ | ⟨_ | _⟩ | ⟨_ | _, m, e, hm⟩ <;>
  rcases b with ⟨_ | _⟩ | _ | ⟨_ | _⟩ | ⟨_ | _, n, f, hn⟩ <;>
  simp +decide [UnpackedFloat.lt, UnpackedFloat.compare, UnpackedFloat.isNaN, orderKey, KeyLt,
    swap_then_compare, then_compare_eq_lt]
  all_goals omega

theorem KeyLe.trans {x y z : Int × Int × Int} (h₁ : KeyLe x y) (h₂ : KeyLe y z) : KeyLe x z := by
  unfold KeyLe at *
  omega

theorem KeyLe.of_keyLt {x y : Int × Int × Int} (h : KeyLt x y) : KeyLe x y := by
  unfold KeyLe KeyLt at *
  omega

theorem KeyLe.of_not_keyLt {x y : Int × Int × Int} (h : ¬ KeyLt x y) : KeyLe y x := by
  unfold KeyLe KeyLt at *
  omega

end UnpackedOrder

open UnpackedOrder in
/-- A scalar type whose comparisons read its values through unpacked floats obeys the order
laws. -/
theorem Scalar.OrderLaws.ofUnpacked {α : Type} [Scalar α] (u : α → UnpackedFloat)
    (hle : ∀ a b, Scalar.le a b = (u a).le (u b)) (hlt : ∀ a b, Scalar.lt a b = (u a).lt (u b))
    (hnan : ∀ a, Scalar.isNaN a = (u a).isNaN) : Scalar.OrderLaws α where
  le_trans h₁ h₂ := by
    rw [hle, le_iff_keyLe] at h₁ h₂ ⊢
    exact ⟨h₁.1, h₂.2.1, h₁.2.2.trans h₂.2.2⟩
  le_of_lt h := by
    rw [hlt, lt_iff_keyLt] at h
    rw [hle, le_iff_keyLe]
    exact ⟨h.1, h.2.1, .of_keyLt h.2.2⟩
  le_of_not_lt ha hb h := by
    rw [hnan] at ha hb
    rw [hlt, Bool.eq_false_iff, Ne, lt_iff_keyLt] at h
    rw [hle, le_iff_keyLe]
    exact ⟨hb, ha, .of_not_keyLt fun hk => h ⟨ha, hb, hk⟩⟩
  not_isNaN_left h := by
    rw [hle, le_iff_keyLe] at h
    rw [hnan]
    exact h.1
  not_isNaN_right h := by
    rw [hle, le_iff_keyLe] at h
    rw [hnan]
    exact h.2.1

/-- Binary64 values compare through their unpacked forms. -/
theorem float_le_eq (a b : Float) : Scalar.le a b = a.toModel.unpack.le b.toModel.unpack := by
  change decide (a ≤ b) = _
  cases h : a.toModel.unpack.le b.toModel.unpack <;> simp [h, LE.le, Float.le, Float.Model.le]

theorem float_lt_eq (a b : Float) : Scalar.lt a b = a.toModel.unpack.lt b.toModel.unpack := by
  change decide (a < b) = _
  cases h : a.toModel.unpack.lt b.toModel.unpack <;> simp [h, LT.lt, Float.lt, Float.Model.lt]

/-- Binary32 values compare through their unpacked forms. -/
theorem float32_le_eq (a b : Float32) :
    Scalar.le a b = a.toModel.unpack.le b.toModel.unpack := by
  change decide (a ≤ b) = _
  cases h : a.toModel.unpack.le b.toModel.unpack <;> simp [h, LE.le, Float32.le, Float32.Model.le]

theorem float32_lt_eq (a b : Float32) :
    Scalar.lt a b = a.toModel.unpack.lt b.toModel.unpack := by
  change decide (a < b) = _
  cases h : a.toModel.unpack.lt b.toModel.unpack <;> simp [h, LT.lt, Float32.lt, Float32.Model.lt]

instance : Scalar.OrderLaws Float :=
  .ofUnpacked (fun a => a.toModel.unpack) float_le_eq float_lt_eq fun _ => rfl

instance : Scalar.OrderLaws Float32 :=
  .ofUnpacked (fun a => a.toModel.unpack) float32_le_eq float32_lt_eq fun _ => rfl

end TaylorOde
