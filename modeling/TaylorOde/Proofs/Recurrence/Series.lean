import TaylorOde.Proofs.Recurrence.Field
import Mathlib.RingTheory.PowerSeries.Derivative

/-! # The recurrences over formal power series

Each recurrence finds the order-`n` coefficient of an operator's result from lower orders. Read
over a field, the coefficients become those of formal power series, and each operator has a
defining identity between the series: `a = b * c` for a product, `a' = b' * a` for an
exponential, `h * a' = b'` for an arcsine with `h = √(1 - b²)`, and so on. This file states
those identities (`Op.Solves`), writes down the recurrence's value in field arithmetic
(`Op.nextCoeff`), and proves that this value is the one and only order-`n` coefficient that
makes the identity hold at order `n`, given the lower ones (`Op.solves_iff`). The order-0
quantity each recurrence divides by is `Op.leadingDenominator`.
-/

namespace TaylorOde

open PowerSeries

variable {F : Type} [Field F]

/-- The defining identity of an operator at order `n`, for the series `a` of the entry, `bs` of
its arguments and `hs` of its hidden dependencies. An identity between derivatives is read at
order `n - 1`, the first order at which it involves `a^[n]`. -/
def Op.Solves (op : Op) (n : Nat) (a : F⟦X⟧) (bs hs : List F⟦X⟧) : Prop :=
  let b := bs.getD 0 0
  let c := bs.getD 1 0
  let h := hs.getD 0 0
  let d := derivative F
  match op with
  | .sum => coeff n a = (bs.map (coeff n)).sum
  | .neg => coeff n a = coeff n (-b)
  | .mul => coeff n a = coeff n (b * c)
  | .div => coeff n (a * c) = coeff n b
  | .square => coeff n a = coeff n (b ^ 2)
  | .sqrt => coeff n (a ^ 2) = coeff n b
  | .exp => coeff (n - 1) (d a) = coeff (n - 1) (d b * a)
  | .log => coeff (n - 1) (b * d a) = coeff (n - 1) (d b)
  | .pow => coeff (n - 1) (b * d a) = coeff (n - 1) (coeff 0 c • (d b * a))
  | .sin | .sinh | .cosh => coeff (n - 1) (d a) = coeff (n - 1) (d b * h)
  | .cos => coeff (n - 1) (d a) = coeff (n - 1) (-(d b * h))
  | .tan => coeff (n - 1) (d a) = coeff (n - 1) (d b * (1 + h))
  | .tanh => coeff (n - 1) (d a) = coeff (n - 1) (d b * (1 - h))
  | .asin => coeff (n - 1) (h * d a) = coeff (n - 1) (d b)
  | .acos => coeff (n - 1) (h * d a) = coeff (n - 1) (-d b)
  | .atan => coeff (n - 1) ((1 + h) * d a) = coeff (n - 1) (d b)
  | .atan2 => coeff (n - 1) (h * d a) = coeff (n - 1) (c * d b - b * d c)
  | .kepE => coeff (n - 1) (d a) = coeff (n - 1) (d c + d b * h + b * hs.getD 1 0 * d a)

/-- The order-0 quantity the recurrence of an operator divides by, from the coefficients of the
entry (`a`), of its arguments and of its hidden dependencies; one for the recurrences that
divide by the order alone. -/
def Op.leadingDenominator (op : Op) (a : Nat → F) (bs hs : List (Nat → F)) : F :=
  match op with
  | .div => bs.getD 1 0 0
  | .sqrt => a 0
  | .log | .pow => bs.getD 0 0 0
  | .asin | .acos | .atan2 => hs.getD 0 0 0
  | .atan => 1 + hs.getD 0 0 0
  | .kepE => 1 - bs.getD 0 0 0 * hs.getD 1 0 0
  | _ => 1

/-- `∑_{j ∈ js} w j * (p j * q (n - j))`: the order-`n` convolution of two coefficient
sequences over the orders `js`, weighted by `w`. -/
def convAt (p q : Nat → F) (n : Nat) (js : List Nat) (w : Nat → F) : F :=
  (js.map fun j => w j * (p j * q (n - j))).sum

/-- The order-`n` coefficient of an operator's result by its recurrence over a field, from the
coefficients of its arguments `bs`, of its hidden dependencies `hs` and of the result `a`
itself below order `n`. -/
def Op.nextCoeff (op : Op) (n : Nat) (a : Nat → F) (bs hs : List (Nat → F)) : F :=
  let b := bs.getD 0 0
  let c := bs.getD 1 0
  let h := hs.getD 0 0
  let nat : Nat → F := fun j => j
  let one : Nat → F := fun _ => 1
  match op with
  | .sum => (bs.map (· n)).sum
  | .neg => -b n
  | .mul => convAt b c n (CoeffOps.span 0 n) one
  | .div => (b n - convAt c a n (CoeffOps.span 1 n) one) / c 0
  | .square =>
    2 * convAt b b n (CoeffOps.span 0 ((n - 1) / 2)) one +
      if n % 2 = 0 then b (n / 2) * b (n / 2) else 0
  | .sqrt => 2⁻¹ * ((b n - convAt a a n (CoeffOps.span 1 (n - 1)) one) / a 0)
  | .exp => (n : F)⁻¹ * convAt b a n (CoeffOps.span 1 n) nat
  | .log => (n : F)⁻¹ * ((n * b n - convAt a b n (CoeffOps.span 1 (n - 1)) nat) / b 0)
  | .pow =>
    (n : F)⁻¹ * (((List.range n).map fun j =>
      (c 0 * ((n - j : Nat) : F) - j) * (b (n - j) * a j)).sum / b 0)
  | .sin | .sinh | .cosh => (n : F)⁻¹ * convAt b h n (CoeffOps.span 1 n) nat
  | .cos => -(n : F)⁻¹ * convAt b h n (CoeffOps.span 1 n) nat
  | .tan => b n + (n : F)⁻¹ * convAt b h n (CoeffOps.span 1 n) nat
  | .tanh => b n - (n : F)⁻¹ * convAt b h n (CoeffOps.span 1 n) nat
  | .asin => (n : F)⁻¹ * ((n * b n - convAt a h n (CoeffOps.span 1 (n - 1)) nat) / h 0)
  | .acos => (n : F)⁻¹ * ((-n * b n - convAt a h n (CoeffOps.span 1 (n - 1)) nat) / h 0)
  | .atan =>
    (n : F)⁻¹ * ((n * b n - convAt a h n (CoeffOps.span 1 (n - 1)) nat) / (1 + h 0))
  | .atan2 =>
    (n : F)⁻¹ * ((convAt b c n (CoeffOps.span 1 n) nat - convAt c b n (CoeffOps.span 1 n) nat -
      convAt a h n (CoeffOps.span 1 (n - 1)) nat) / h 0)
  | .kepE =>
    let h₁ := hs.getD 1 0
    (n : F)⁻¹ * ((n * c n + convAt b h n (CoeffOps.span 1 n) nat +
      ((CoeffOps.span 1 (n - 1)).map fun j : Nat =>
        (j : F) * a j * convAt b h₁ (n - j) (CoeffOps.span 0 (n - j)) one).sum) /
      (1 - b 0 * h₁ 0))

/-! ## Coefficients over the ranges of the recurrences -/

theorem sum_range_eq_list (n : Nat) (f : Nat → F) :
    ∑ i ∈ Finset.range n, f i = ((List.range n).map f).sum := by
  rw [Finset.sum, Finset.range_val, Multiset.range, Multiset.map_coe, Multiset.sum_coe]

theorem span_zero (n : Nat) : CoeffOps.span 0 n = List.range (n + 1) := by
  simp [CoeffOps.span, List.range_eq_range']

theorem span_one (n : Nat) : CoeffOps.span 1 n = (List.range n).map (· + 1) := by
  simp [CoeffOps.span, List.range'_eq_map_range, Nat.add_comm]

theorem span_zero_eq_cons (n : Nat) : CoeffOps.span 0 n = 0 :: CoeffOps.span 1 n := by
  simp [CoeffOps.span, List.range'_succ]

theorem span_one_eq_append {n : Nat} (hn : 0 < n) :
    CoeffOps.span 1 n = CoeffOps.span 1 (n - 1) ++ [n] := by
  simp only [CoeffOps.span]
  rw [show n + 1 - 1 = (n - 1 + 1 - 1) + 1 by omega, List.range'_concat]
  congr 2
  omega

theorem mem_span {lo hi j : Nat} : j ∈ CoeffOps.span lo hi ↔ lo ≤ j ∧ j ≤ hi := by
  rw [CoeffOps.span, List.mem_range'_1]
  omega

theorem coeff_mul_span (P Q : F⟦X⟧) (n : Nat) :
    coeff n (P * Q) = ((CoeffOps.span 0 n).map fun j => coeff j P * coeff (n - j) Q).sum := by
  rw [coeff_mul, Finset.Nat.sum_antidiagonal_eq_sum_range_succ_mk, sum_range_eq_list, span_zero]

theorem coeff_derivative_pred (P : F⟦X⟧) {n : Nat} (hn : 0 < n) :
    coeff (n - 1) (derivative F P) = n * coeff n P := by
  rw [coeff_derivative, Nat.sub_add_cancel hn, mul_comm]
  push_cast [Nat.cast_sub hn]
  ring

theorem coeff_derivative_mul (P Q : F⟦X⟧) {n : Nat} (hn : 0 < n) :
    coeff (n - 1) (derivative F P * Q) =
      ((CoeffOps.span 1 n).map fun j : Nat => (j : F) * (coeff j P * coeff (n - j) Q)).sum := by
  rw [coeff_mul_span, span_zero, span_one, Nat.sub_add_cancel hn, List.map_map]
  congr 1
  apply List.map_congr_left
  intro j hj
  simp only [Function.comp, coeff_derivative]
  have hj : j < n := List.mem_range.1 hj
  rw [show n - 1 - j = n - (j + 1) by omega]
  push_cast
  ring

/-! ## The entry's series, unknown at order `n` -/

section Unknown

variable (s : Nat → F) {n : Nat} (x : F)

omit [Field F] in
theorem update_of_lt {j : Nat} (hj : j < n) : Function.update s n x j = s j :=
  Function.update_of_ne (by omega) _ _

theorem coeff_update_of_lt {j : Nat} (hj : j < n) :
    coeff j (mk (Function.update s n x)) = s j := by
  rw [coeff_mk, update_of_lt s x hj]

/-- A derivative times the entry's series reads the entry below order `n` only. -/
theorem coeff_derivative_mul_update (P : F⟦X⟧) (hn : 0 < n) :
    coeff (n - 1) (derivative F P * mk (Function.update s n x)) =
      ((CoeffOps.span 1 n).map fun j : Nat => (j : F) * (coeff j P * s (n - j))).sum := by
  rw [coeff_derivative_mul _ _ hn]
  congr 1
  apply List.map_congr_left
  intro j hj
  rw [coeff_update_of_lt s x (by rw [mem_span] at hj; omega)]

/-- A series times the derivative of the entry's series: the unknown comes in with the
series' order-0 coefficient. -/
theorem coeff_mul_derivative_update (H : F⟦X⟧) (hn : 0 < n) :
    coeff (n - 1) (H * derivative F (mk (Function.update s n x))) =
      n * x * coeff 0 H +
        ((CoeffOps.span 1 (n - 1)).map fun j : Nat => (j : F) * (s j * coeff (n - j) H)).sum := by
  rw [mul_comm, coeff_derivative_mul _ _ hn, span_one_eq_append hn, List.map_append,
    List.sum_append]
  simp only [List.map_cons, List.map_nil, List.sum_cons, List.sum_nil, add_zero, Nat.sub_self,
    coeff_mk, Function.update_self]
  rw [add_comm]
  congr 1
  · ring
  · congr 1
    apply List.map_congr_left
    intro j hj
    rw [update_of_lt s x (by rw [mem_span] at hj; omega)]

/-- The entry's series times a series: the unknown comes in with the series' order-0
coefficient. -/
theorem coeff_update_mul (C : F⟦X⟧) :
    coeff n (mk (Function.update s n x) * C) =
      x * coeff 0 C + ((CoeffOps.span 1 n).map fun j => coeff j C * s (n - j)).sum := by
  rw [mul_comm, coeff_mul_span, span_zero_eq_cons]
  simp only [List.map_cons, List.sum_cons, Nat.sub_zero, coeff_mk, Function.update_self]
  congr 1
  · ring
  · congr 1
    apply List.map_congr_left
    intro j hj
    rw [mem_span] at hj
    rw [update_of_lt s x (by omega)]

/-- The square of the entry's series: the unknown comes in twice, with the entry's order-0
coefficient. -/
theorem coeff_update_sq (hn : 0 < n) :
    coeff n (mk (Function.update s n x) ^ 2) =
      x * (2 * s 0) + ((CoeffOps.span 1 (n - 1)).map fun j => s j * s (n - j)).sum := by
  rw [pow_two, coeff_mul_span, span_zero_eq_cons, span_one_eq_append hn]
  simp only [List.map_cons, List.map_append, List.map_nil, List.sum_cons, List.sum_append,
    List.sum_nil, Nat.sub_zero, Nat.sub_self, coeff_mk, Function.update_self, add_zero]
  rw [update_of_lt s x hn]
  have hmid : ((CoeffOps.span 1 (n - 1)).map fun j =>
      Function.update s n x j * Function.update s n x (n - j)) =
      (CoeffOps.span 1 (n - 1)).map fun j => s j * s (n - j) := by
    apply List.map_congr_left
    intro j hj
    rw [mem_span] at hj
    rw [update_of_lt s x (by omega), update_of_lt s x (by omega)]
  rw [hmid]
  ring

end Unknown

/-! ## Solving the defining identities -/

/-- An identity whose two sides differ by a non-zero multiple of `x - v` holds exactly
at `x = v`. -/
theorem eq_iff_of_sub_eq {L R x v : F} (p : F) (hp : p ≠ 0) (h : L - R = p * (x - v)) :
    L = R ↔ x = v := by
  rw [← sub_eq_zero, h, mul_eq_zero, sub_eq_zero, or_iff_right hp]

theorem getD_map_mk (fs : List (Nat → F)) (i : Nat) :
    (fs.map mk).getD i 0 = mk (fs.getD i 0) := by
  rw [show (0 : F⟦X⟧) = mk 0 by ext; simp, List.getD_map]

/-- The upper part of a sequence's convolution with itself, reflected, is the lower part. -/
theorem sum_range_upper_half (f : Nat → F) {N c m : Nat} (h : c + m = N + 1) :
    ∑ j ∈ Finset.range m, f (c + j) * f (N - (c + j)) =
      ∑ j ∈ Finset.range m, f j * f (N - j) := by
  rw [← Finset.sum_range_reflect (fun j => f j * f (N - j)) m]
  refine Finset.sum_congr rfl fun j hj => ?_
  have hj := Finset.mem_range.1 hj
  rw [show N - (c + j) = m - 1 - j by omega, show N - (m - 1 - j) = c + j by omega, mul_comm]

/-- A convolution of a sequence with itself is symmetric: it is twice its lower half, plus the
middle term for an even order. -/
theorem convAt_self (f : Nat → F) {n : Nat} (hn : 0 < n) :
    convAt f f n (CoeffOps.span 0 n) (fun _ => 1) =
      2 * convAt f f n (CoeffOps.span 0 ((n - 1) / 2)) (fun _ => 1) +
        if n % 2 = 0 then f (n / 2) * f (n / 2) else 0 := by
  simp only [convAt, one_mul, span_zero, ← sum_range_eq_list]
  -- the terms at `j` and `n - j` are equal: split the range at its middle, reflect the top part
  obtain ⟨k, rfl | rfl⟩ : ∃ k, n = 2 * k + 1 ∨ n = 2 * k + 2 := by
    rcases Nat.even_or_odd' n with ⟨k, rfl | rfl⟩
    · exact ⟨k - 1, .inr (by omega)⟩
    · exact ⟨k, .inl rfl⟩
  · rw [show 2 * k + 1 + 1 = (k + 1) + (k + 1) by ring, Finset.sum_range_add,
      sum_range_upper_half f (by omega), show (2 * k + 1 - 1) / 2 + 1 = k + 1 by omega,
      if_neg (by omega)]
    ring
  · rw [show 2 * k + 2 + 1 = (k + 2) + (k + 1) by ring, Finset.sum_range_add,
      Finset.sum_range_succ, sum_range_upper_half f (by omega),
      show (2 * k + 2 - 1) / 2 + 1 = k + 1 by omega, if_pos (by omega),
      show (2 * k + 2) / 2 = k + 1 by omega, show 2 * k + 2 - (k + 1) = k + 1 by omega]
    ring

theorem coeff_mk_mul_mk (p q : Nat → F) (n : Nat) :
    coeff n (mk p * mk q) = convAt p q n (CoeffOps.span 0 n) (fun _ => 1) := by
  simp [coeff_mul_span, convAt]

theorem coeff_derivative_update (s : Nat → F) {n : Nat} (hn : 0 < n) (x : F) :
    coeff (n - 1) (derivative F (mk (Function.update s n x))) = n * x := by
  rw [coeff_derivative_pred _ hn, coeff_mk, Function.update_self]

/-- The power recurrence's sum over `j < n` is the difference of the two convolutions of its
identity, the first reflected. -/
theorem pow_sum_eq (α : F) (b s : Nat → F) {n : Nat} (hn : 0 < n) :
    ((List.range n).map fun j => (α * ((n - j : Nat) : F) - j) * (b (n - j) * s j)).sum =
      α * convAt b s n (CoeffOps.span 1 n) (fun j => j) -
        convAt s b n (CoeffOps.span 1 (n - 1)) (fun j => j) := by
  simp only [convAt, span_one, List.map_map, Function.comp_def, ← sum_range_eq_list,
    Finset.mul_sum, sub_mul, Finset.sum_sub_distrib]
  congr 1
  · rw [← Finset.sum_range_reflect]
    refine Finset.sum_congr rfl fun j hj => ?_
    have hj := Finset.mem_range.1 hj
    rw [show n - (n - 1 - j) = j + 1 by omega, show n - 1 - j = n - (j + 1) by omega]
    push_cast
    ring
  · obtain ⟨m, rfl⟩ : ∃ m, n = m + 1 := ⟨n - 1, by omega⟩
    rw [Finset.sum_range_succ', Nat.add_sub_cancel]
    simp only [Nat.cast_zero, zero_mul, add_zero]
    refine Finset.sum_congr rfl fun j _ => ?_
    push_cast
    ring

variable [CharZero F]

/-- Given the lower orders of the result and all the orders of the arguments and hidden
dependencies, the recurrence's value is the one order-`n` coefficient of the result for which
the operator's defining identity holds at order `n`, when the order-0 quantity it divides by
is not zero. -/
theorem Op.solves_iff (op : Op) {n : Nat} (hn : 0 < n) (s : Nat → F) (bs hs : List (Nat → F))
    (hden : op.leadingDenominator s bs hs ≠ 0) (x : F) :
    op.Solves n (mk (Function.update s n x)) (bs.map mk) (hs.map mk) ↔
      x = op.nextCoeff n s bs hs := by
  have hn' : (n : F) ≠ 0 := Nat.cast_ne_zero.2 (by omega)
  -- each identity is linear in the unknown `x`: bring it to `p * (x - v)` with `p` the order
  -- times the leading denominator, and let `field_simp` and `ring` check the rest
  cases op <;> simp only [Op.Solves, Op.nextCoeff, getD_map_mk] <;>
    simp only [Op.leadingDenominator] at hden
  case sum => simp [List.map_map, Function.comp_def]
  case neg => simp
  case mul => rw [coeff_mk, Function.update_self, coeff_mk_mul_mk]
  case div =>
    refine eq_iff_of_sub_eq _ hden ?_
    simp only [coeff_update_mul, coeff_mk, convAt, one_mul]
    field_simp
    ring
  case square =>
    rw [coeff_mk, Function.update_self, pow_two, coeff_mk_mul_mk, convAt_self _ hn]
  case sqrt =>
    refine eq_iff_of_sub_eq _ (mul_ne_zero two_ne_zero hden) ?_
    simp only [coeff_update_sq _ _ hn, coeff_mk, convAt, one_mul]
    field_simp
    ring
  case exp =>
    refine eq_iff_of_sub_eq _ hn' ?_
    simp only [coeff_derivative_update _ hn, coeff_derivative_mul_update _ _ _ hn, coeff_mk,
      convAt]
    field_simp
  case log =>
    refine eq_iff_of_sub_eq _ (mul_ne_zero hn' hden) ?_
    simp only [coeff_mul_derivative_update _ _ _ hn, coeff_derivative_pred _ hn, coeff_mk, convAt]
    field_simp
    ring
  case pow =>
    refine eq_iff_of_sub_eq _ (mul_ne_zero hn' hden) ?_
    rw [pow_sum_eq _ _ _ hn]
    simp only [coeff_mul_derivative_update _ _ _ hn, coeff_smul,
      coeff_derivative_mul_update _ _ _ hn,
      coeff_mk, convAt, smul_eq_mul]
    field_simp
    ring
  case sin | sinh | cosh =>
    refine eq_iff_of_sub_eq _ hn' ?_
    simp only [coeff_derivative_update _ hn, coeff_derivative_mul _ _ hn, coeff_mk, convAt]
    field_simp
  case cos =>
    refine eq_iff_of_sub_eq _ hn' ?_
    simp only [coeff_derivative_update _ hn, map_neg, coeff_derivative_mul _ _ hn, coeff_mk,
      convAt]
    field_simp
  case tan | tanh =>
    refine eq_iff_of_sub_eq _ hn' ?_
    simp only [coeff_derivative_update _ hn, mul_add, mul_sub, mul_one, map_add, map_sub,
      coeff_derivative_pred _ hn, coeff_derivative_mul _ _ hn, coeff_mk, convAt]
    field_simp
  case asin | acos =>
    refine eq_iff_of_sub_eq _ (mul_ne_zero hn' hden) ?_
    simp only [coeff_mul_derivative_update _ _ _ hn, map_neg, coeff_derivative_pred _ hn,
      coeff_mk, convAt]
    field_simp
    ring
  case atan =>
    refine eq_iff_of_sub_eq _ (mul_ne_zero hn' hden) ?_
    simp only [add_mul, one_mul, map_add, coeff_derivative_update _ hn,
      coeff_mul_derivative_update _ _ _ hn, coeff_derivative_pred _ hn, coeff_mk, convAt]
    field_simp
    ring
  case atan2 =>
    refine eq_iff_of_sub_eq _ (mul_ne_zero hn' hden) ?_
    simp only [coeff_mul_derivative_update _ _ _ hn, map_sub, mul_comm (mk (bs.getD 0 0)),
      mul_comm (mk (bs.getD 1 0)), coeff_derivative_mul _ _ hn, coeff_mk, convAt]
    field_simp
    ring
  case kepE =>
    refine eq_iff_of_sub_eq _ (mul_ne_zero hn' hden) ?_
    have h0 : coeff 0 (mk (bs.getD 0 0) * mk (hs.getD 1 0)) = bs.getD 0 0 0 * hs.getD 1 0 0 := by
      simp [coeff_mk_mul_mk, convAt, CoeffOps.span]
    simp only [map_add, coeff_derivative_update _ hn, coeff_derivative_pred _ hn,
      coeff_derivative_mul _ _ hn, coeff_mul_derivative_update _ _ _ hn, h0, coeff_mk_mul_mk,
      coeff_mk]
    simp only [convAt, mul_assoc]
    field_simp
    ring

end TaylorOde
