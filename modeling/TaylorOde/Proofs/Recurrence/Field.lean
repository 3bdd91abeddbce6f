import TaylorOde.Proofs.Recurrence.Constants
import Mathlib.Algebra.BigOperators.Group.List.Basic
import Mathlib.Algebra.Field.Basic
/-!
# The recurrences read in a field

The recurrences are written over `CoeffOps`, so they can be read in any field `F`: each
reference stands for a series given by its coefficients, a literal reference for a series
with no coefficient above order 0, each constant for the number it denotes before rounding,
and negation, sums, differences, products and quotients for the field's. `FieldOps` states
this reading of a `CoeffOps Id F R`; `CoeffOps.inField` is one.

Under it every helper of the recurrences computes the field value it stands for, `none`
reading as zero: a coefficient is the series' coefficient (`coeff_getD`), a scaled value is
the product by the constant (`scale_getD`: the product skipped for a constant that tests
equal to `±1` is a product by `±1`, by `Const.toFloat_beq_one_iff`), a pairwise sum is the sum
(`pairwiseSum_getD`), and a convolution is the weighted sum of products of coefficients
(`conv_getD`), the terms it skips for literal references being zero.
-/

namespace TaylorOde

variable {F : Type} [Field F] {R : Type}

namespace Const

/-- The number a constant denotes, before rounding: a count, its negation, its reciprocal or
the negated reciprocal. -/
def denote (F : Type) [Field F] : Const → F
  | .nat k => k
  | .negNat k => -k
  | .inv k => (k : F)⁻¹
  | .negInv k => -(k : F)⁻¹

@[simp] theorem denote_nat (k : Nat) : (Const.nat k).denote F = k := rfl

@[simp] theorem denote_negNat (k : Nat) : (Const.negNat k).denote F = -k := rfl

@[simp] theorem denote_inv (k : Nat) : (Const.inv k).denote F = (k : F)⁻¹ := rfl

@[simp] theorem denote_negInv (k : Nat) : (Const.negInv k).denote F = -(k : F)⁻¹ := rfl

/-- A constant that tests equal to one denotes one. -/
theorem denote_of_beq_one {c : Const} (h : (c.toFloat == 1.0) = true) : c.denote F = 1 := by
  rcases (toFloat_beq_one_iff c).1 h with rfl | rfl <;> simp

/-- A constant that tests equal to minus one denotes minus one. -/
theorem denote_of_beq_neg_one {c : Const} (h : (c.toFloat == -1.0) = true) :
    c.denote F = -1 := by
  rcases (toFloat_beq_neg_one_iff c).1 h with rfl | rfl <;> simp

end Const

/-- The recurrence operations `b` read in a field, with `series r k` the order-`k` coefficient of
reference `r`: loads read the series, literal references have no coefficient above order 0,
constants denote their numbers, and negation and the four binary operations are the field's.
The elementary functions are left free: the recurrences above order 0 do not use them. -/
structure FieldOps (b : CoeffOps Id F R) (series : R → Nat → F) : Prop where
  load : ∀ r k, (b.load r k).run = series r k
  literal : ∀ r k, b.isConstant r = true → 0 < k → series r k = 0
  constant : ∀ c, (b.constant c).run = c.denote F
  neg : ∀ x, (b.unary .neg x).run = -x
  add : ∀ x y, (b.binary .add x y).run = x + y
  sub : ∀ x y, (b.binary .sub x y).run = x - y
  mul : ∀ x y, (b.binary .mul x y).run = x * y
  div : ∀ x y, (b.binary .div x y).run = x / y

/-- A round of pairwise reduction leaves half the terms, rounded up. -/
theorem CoeffOps.pairRound_length {V : Type} (b : CoeffOps Id V R) (l : List V) :
    (b.pairRound l).run.length = (l.length + 1) / 2 := by
  fun_induction CoeffOps.pairRound b l with
  | case1 x y rest ih =>
    show ((b.binary .add x y).run :: (b.pairRound rest).run).length = _
    simp only [List.length_cons, ih]
    omega
  | case2 rest h =>
    match rest, h with
    | [], _ => simp
    | [_], _ => simp
    | _ :: _ :: _, h => exact absurd rfl (h _ _ _)

/-- The recurrence operations over a field, reading the series of each reference from
`series` and the literal references from `isConst`; the elementary functions read as zero. -/
def CoeffOps.inField (series : R → Nat → F) (isConst : R → Bool) : CoeffOps Id F R where
  load r k := series r k
  isConstant := isConst
  constant c := c.denote F
  unary f x := match f with
    | .neg => -x
    | _ => 0
  binary f x y := match f with
    | .add => x + y
    | .sub => x - y
    | .mul => x * y
    | .div => x / y
    | _ => 0

/-- Reading the operations in a field is a field reading, once literal references have no
coefficients above order 0. -/
theorem FieldOps.inField {series : R → Nat → F} {isConst : R → Bool}
    (h : ∀ r k, isConst r = true → 0 < k → series r k = 0) :
    FieldOps (CoeffOps.inField series isConst) series where
  load _ _ := rfl
  literal := h
  constant _ := rfl
  neg _ := rfl
  add _ _ := rfl
  sub _ _ := rfl
  mul _ _ := rfl
  div _ _ := rfl

namespace FieldOps

variable {b : CoeffOps Id F R} {series : R → Nat → F}

/-! ## Pairwise sums -/

/-- A round of pairwise reduction keeps the sum. -/
theorem pairRound_sum (hb : FieldOps b series) (l : List F) :
    (b.pairRound l).run.sum = l.sum := by
  fun_induction CoeffOps.pairRound b l with
  | case1 x y rest ih =>
    show ((b.binary .add x y).run :: (b.pairRound rest).run).sum = _
    rw [List.sum_cons, ih, hb.add, List.sum_cons, List.sum_cons, add_assoc]
  | case2 rest => rfl

/-- With enough rounds, pairwise reduction sums its terms: each round at least halves them. -/
theorem pairwiseSumAux_getD (hb : FieldOps b series) (fuel : Nat) (l : List F)
    (h : l.length ≤ fuel + 1) : (b.pairwiseSumAux fuel l).run.getD 0 = l.sum := by
  induction fuel generalizing l with
  | zero =>
    match l, h with
    | [], _ => rfl
    | [x], _ => simp [CoeffOps.pairwiseSumAux]
  | succ fuel ih =>
    match l, h with
    | [], _ => rfl
    | [x], _ => simp [CoeffOps.pairwiseSumAux]
    | x :: y :: rest, h =>
      -- one round of pairing halves the terms and keeps their sum
      show (b.pairwiseSumAux fuel (b.pairRound (x :: y :: rest)).run).run.getD 0 = _
      rw [ih _ (by rw [CoeffOps.pairRound_length]; simp only [List.length_cons] at h ⊢; omega),
        hb.pairRound_sum]

theorem pairwiseSum_getD (hb : FieldOps b series) (l : List F) :
    (b.pairwiseSum l).run.getD 0 = l.sum :=
  hb.pairwiseSumAux_getD _ l (Nat.le_succ _)

/-! ## Coefficients, scaling and convolutions -/

theorem coeff_run (hb : FieldOps b series) (r : R) (k : Nat) :
    (b.coeff r k).run = if 0 < k ∧ b.isConstant r = true then none else some (series r k) := by
  simp only [CoeffOps.coeff]
  split <;> rename_i h <;> simp_all [hb.load]

/-- A coefficient, present or skipped, is the series' coefficient. -/
theorem coeff_getD (hb : FieldOps b series) (r : R) (k : Nat) :
    (b.coeff r k).run.getD 0 = series r k := by
  rw [hb.coeff_run]
  split
  · rename_i h
    exact (hb.literal r k h.2 h.1).symm
  · rfl

/-- Scaling is the product by the number the constant denotes: the product is skipped only for
constants that denote one or minus one. -/
theorem scale_some (hb : FieldOps b series) (c : Const) (x : F) :
    (b.scale c (some x)).run = some (c.denote F * x) := by
  simp only [CoeffOps.scale]
  split
  · rename_i h
    simp [Const.denote_of_beq_one h]
  · split
    · rename_i _ h
      simp [hb.neg, Const.denote_of_beq_neg_one h]
    · simp [hb.constant, hb.mul]

theorem scale_getD (hb : FieldOps b series) (c : Const) (o : Option F) :
    (b.scale c o).run.getD 0 = c.denote F * o.getD 0 := by
  cases o with
  | none => simp [CoeffOps.scale]
  | some x => rw [hb.scale_some]; rfl

/-- A loop that only pushes onto an array, each element adding `t a` to the array's sum. -/
theorem forIn_push_sum {α : Type} (l : List α) (acc : Array F)
    (body : α → Array F → Id (ForInStep (Array F))) (t : α → F)
    (hbody : ∀ a r, ∃ r', (body a r).run = .yield r' ∧ r'.toList.sum = r.toList.sum + t a) :
    (forIn l acc body).run.toList.sum = acc.toList.sum + (l.map t).sum := by
  induction l generalizing acc with
  | nil => simp
  | cons a l ih =>
    obtain ⟨r', hr', hsum⟩ := hbody a acc
    rw [List.forIn_cons, Id.run_bind, hr']
    rw [ih, hsum, List.map_cons, List.sum_cons, add_assoc]

/-- A convolution is the weighted sum of products of coefficients over its range. -/
theorem conv_getD (hb : FieldOps b series) (x y : R) (n : Nat) (js : List Nat)
    (w : Nat → Const) :
    (b.conv x y n js w).run.getD 0 =
      (js.map fun j => (w j).denote F * (series x j * series y (n - j))).sum := by
  unfold CoeffOps.conv
  show (b.pairwiseSum (Id.run (forIn js (#[] : Array F) _)).toList).run.getD 0 = _
  rw [hb.pairwiseSum_getD,
    forIn_push_sum _ _ _ (fun j => (w j).denote F * (series x j * series y (n - j))) ?step]
  · simp
  intro j r
  simp only [Id.run_bind, hb.coeff_run]
  -- a term is pushed when both coefficients are there, and vanishes otherwise
  by_cases hx : 0 < j ∧ b.isConstant x = true
  · rw [if_pos hx, hb.literal x j hx.2 hx.1]
    exact ⟨r, rfl, by simp⟩
  by_cases hy : 0 < n - j ∧ b.isConstant y = true
  · rw [if_neg hx, if_pos hy, hb.literal y _ hy.2 hy.1]
    exact ⟨r, rfl, by simp⟩
  rw [if_neg hx, if_neg hy]
  simp only [Id.run_bind, hb.mul, hb.scale_some, Id.run_pure]
  exact ⟨_, rfl, by simp⟩

/-! ## Optional values -/

theorem addOpt_getD (hb : FieldOps b series) (o o' : Option F) :
    (b.addOpt o o').run.getD 0 = o.getD 0 + o'.getD 0 := by
  cases o <;> cases o' <;> simp [CoeffOps.addOpt, hb.add]

theorem negOpt_getD (hb : FieldOps b series) (o : Option F) :
    (b.negOpt o).run.getD 0 = -o.getD 0 := by
  cases o <;> simp [CoeffOps.negOpt, hb.neg]

theorem subOpt_getD (hb : FieldOps b series) (o o' : Option F) :
    (b.subOpt o o').run.getD 0 = o.getD 0 - o'.getD 0 := by
  cases o <;> cases o' <;> simp [CoeffOps.subOpt, CoeffOps.negOpt, hb.sub, hb.neg]

theorem mulOpt_getD (hb : FieldOps b series) (o o' : Option F) :
    (b.mulOpt o o').run.getD 0 = o.getD 0 * o'.getD 0 := by
  cases o <;> cases o' <;> simp [CoeffOps.mulOpt, hb.mul]

theorem divBy_getD (hb : FieldOps b series) (o : Option F) (d : F) :
    (b.divBy o d).run.getD 0 = o.getD 0 / d := by
  cases o <;> simp [CoeffOps.divBy, hb.div]

theorem orZero_run (hb : FieldOps b series) (o : Option F) : (b.orZero o).run = o.getD 0 := by
  cases o <;> simp [CoeffOps.orZero, hb.constant]

end FieldOps

end TaylorOde
