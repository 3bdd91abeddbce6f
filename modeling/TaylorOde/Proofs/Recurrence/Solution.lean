import TaylorOde.Proofs.Recurrence.Series
import TaylorOde.Proofs.Expr.Equality

/-! # The recurrences find the unique next coefficient

Read in a field of characteristic zero (`FieldOps`), the recurrence of every operator computes
`Op.nextCoeff` (`FieldOps.higher_getD`): the terms it skips for literal references are zero,
its constants denote what they stand for, and the pairwise sums it builds are sums. Together
with `Op.solves_iff`, the coefficient the recurrences return at an order `n ≥ 1` is the one value
of the result's order-`n` coefficient for which the operator's defining identity holds at
order `n` (`coefficient_solves_uniquely`).
-/

namespace TaylorOde

open PowerSeries

variable {F : Type} [Field F]

/-- The recurrences read a missing argument as the entry itself, `Op.nextCoeff` as zero: the
two agree on the arguments that are there. -/
theorem getD_map_eq {R : Type} (f : R → Nat → F) (l : List R) (i : Nat) (d : R) :
    (l.map f).getD i 0 = if i < l.length then f (l.getD i d) else 0 := by
  by_cases h : i < l.length
  · rw [if_pos h, List.getD_eq_getElem _ _ (by simpa using h), List.getElem_map,
      List.getD_eq_getElem _ _ h]
  · rw [if_neg h, List.getD_eq_default _ _ (by simpa using h)]

theorem toList_sum_eq_getD (o : Option F) : o.toList.sum = o.getD 0 := by
  cases o <;> simp

namespace FieldOps

variable {R : Type} {b : CoeffOps Id F R} {series : R → Nat → F}

/-! ## The three recurrences that loop -/

/-- A sum adds the order-`n` coefficients of its arguments, a skipped one being zero. -/
theorem higher_sum_getD (hb : FieldOps b series) (this : R) (args hidden : List R) (n : Nat) :
    (b.higher .sum this args hidden n).run.getD 0 = (args.map fun a => series a n).sum := by
  simp only [CoeffOps.higher, Id.run_bind]
  rw [hb.pairwiseSum_getD, forIn_push_sum _ _ _ (fun a => series a n) ?_]
  · simp
  intro a r
  have hc := hb.coeff_getD a n
  rcases hco : (b.coeff a n).run with _ | c <;> rw [hco] at hc <;>
    simp only [Id.run_bind, hco] <;> exact ⟨_, rfl, by simp [← hc]⟩

/-- A power adds `(α (n - j) - j) b^[n-j] a^[j]` over `j < n`, with `α` the exponent's order-0
coefficient, and divides by `n b^[0]`. -/
theorem higher_pow_getD (hb : FieldOps b series) (this : R) (args hidden : List R) (n : Nat) :
    (b.higher .pow this args hidden n).run.getD 0 =
      (n : F)⁻¹ * (((List.range n).map fun j =>
        (series (args.getD 1 this) 0 * ((n - j : Nat) : F) - j) *
          (series (args.getD 0 this) (n - j) * series this j)).sum /
        series (args.getD 0 this) 0) := by
  simp only [CoeffOps.higher, Id.run_bind, hb.scale_getD, hb.divBy_getD, hb.load,
    Const.denote_inv]
  rw [hb.pairwiseSum_getD, forIn_push_sum _ _ _ (fun j => (series (args.getD 1 this) 0 *
    ((n - j : Nat) : F) - j) * (series (args.getD 0 this) (n - j) * series this j)) ?_]
  · simp
  intro j r
  have hB := hb.coeff_getD (args.getD 0 this) (n - j)
  have hA := hb.coeff_getD this j
  simp only [Id.run_bind]
  -- a skipped term has a zero coefficient in it
  rcases hcB : (b.coeff (args.getD 0 this) (n - j)).run with _ | bk
  · rw [hcB, Option.getD_none] at hB
    exact ⟨r, rfl, by rw [← hB]; simp⟩
  rcases hcA : (b.coeff this j).run with _ | aj
  · rw [hcA, Option.getD_none] at hA
    exact ⟨r, rfl, by rw [← hA]; simp⟩
  rw [hcB, Option.getD_some] at hB
  rw [hcA, Option.getD_some] at hA
  subst hA hB
  -- the weight `α (n - j) - j`, the subtraction left out at `j = 0`
  by_cases hj : j > 0
  · simp only [if_pos hj, Id.run_bind, Id.run_pure, hb.constant, hb.sub, hb.mul,
      Const.denote_nat]
    exact ⟨_, rfl, by simp⟩
  · obtain rfl : j = 0 := by omega
    simp only [if_neg hj, Id.run_bind, Id.run_pure, hb.constant, hb.mul, Const.denote_nat]
    exact ⟨_, rfl, by simp⟩

/-- Kepler's equation adds `n M^[n]`, the convolution of `e` with `sin E`, and
`j E^[j] (e cos E)^[n-j]` over `0 < j < n`, and divides by `n (1 - e^[0] (cos E)^[0])`. -/
theorem higher_kepE_getD (hb : FieldOps b series) (this : R) (args hidden : List R) (n : Nat) :
    (b.higher .kepE this args hidden n).run.getD 0 =
      (n : F)⁻¹ * ((n * series (args.getD 1 this) n +
        ((CoeffOps.span 1 n).map fun j : Nat =>
          (j : F) * (series (args.getD 0 this) j * series (hidden.getD 0 this) (n - j))).sum +
        ((CoeffOps.span 1 (n - 1)).map fun j : Nat => (j : F) * series this j *
          ((CoeffOps.span 0 (n - j)).map fun i =>
            series (args.getD 0 this) i * series (hidden.getD 1 this) (n - j - i)).sum).sum) /
        (1 - series (args.getD 0 this) 0 * series (hidden.getD 1 this) 0)) := by
  simp only [CoeffOps.higher, Id.run_bind, hb.scale_getD, hb.divBy_getD, hb.load,
    Const.denote_inv]
  rw [hb.pairwiseSum_getD, List.sum_append, List.sum_append, toList_sum_eq_getD,
    toList_sum_eq_getD, toList_sum_eq_getD,
    hb.scale_getD, hb.coeff_getD, hb.conv_getD, hb.pairwiseSum_getD,
    forIn_push_sum _ _ _ (fun j : Nat => (j : F) * series this j *
      ((CoeffOps.span 0 (n - j)).map fun i =>
        series (args.getD 0 this) i * series (hidden.getD 1 this) (n - j - i)).sum) ?_,
    hb.sub, hb.mul, hb.constant]
  · simp
  intro j r
  simp only [Id.run_bind]
  -- the inner convolution is `(e cos E)^[n-j]`; a skipped product is zero
  have ht := hb.mulOpt_getD (b.scale (.nat j) (b.coeff this j).run).run
    (b.conv (args.getD 0 this) (hidden.getD 1 this) (n - j) (CoeffOps.span 0 (n - j))
      fun _ => .nat 1).run
  simp only [hb.scale_getD, hb.coeff_getD, hb.conv_getD, Const.denote_nat, Nat.cast_one,
    one_mul] at ht
  generalize (b.mulOpt (b.scale (.nat j) (b.coeff this j).run).run
    (b.conv (args.getD 0 this) (hidden.getD 1 this) (n - j) (CoeffOps.span 0 (n - j))
      fun _ => .nat 1).run).run = o at ht ⊢
  cases o <;> refine ⟨_, rfl, ?_⟩ <;>
    simp only [← ht, Option.getD_none, Option.getD_some, add_zero, Array.toList_push,
      List.sum_append, List.sum_cons, List.sum_nil]

/-! ## Every recurrence -/

/-- Read in a field, the recurrence of every operator computes `Op.nextCoeff`, once the
operator has the arguments and hidden dependencies it expects. -/
theorem higher_getD (hb : FieldOps b series) (op : Op) (this : R) (args hidden : List R) {n : Nat}
    (harity : op.accepts args.length = true)
    (hhidden : hidden.length = op.hiddenCount) :
    (b.higher op this args hidden n).run.getD 0 =
      op.nextCoeff n (series this) (args.map series) (hidden.map series) := by
  -- one case per operator, with the arguments it reads present: the loops by their own
  -- lemmas, `square` by the parity of `n`, the straight-line recurrences by `simp` alone
  cases op <;> simp only [Op.accepts, Op.arity, beq_iff_eq] at harity <;>
    simp only [Op.hiddenCount] at hhidden
  case sum => simp [hb.higher_sum_getD, Op.nextCoeff, Function.comp_def]
  case pow =>
    simp only [hb.higher_pow_getD, Op.nextCoeff, getD_map_eq _ _ _ this, ← harity]
    simp
  case kepE =>
    simp only [hb.higher_kepE_getD, Op.nextCoeff, convAt, getD_map_eq _ _ _ this, ← harity,
      hhidden]
    simp
  case square =>
    by_cases he : n % 2 = 0 <;>
      simp [CoeffOps.higher, Op.nextCoeff, convAt, ← harity, he,
        hb.addOpt_getD, hb.mulOpt_getD, hb.coeff_getD, hb.scale_getD, hb.conv_getD]
  all_goals
    simp +decide only [CoeffOps.higher, Op.nextCoeff, Id.run_bind, hb.scale_getD, hb.divBy_getD,
      hb.subOpt_getD, hb.addOpt_getD, hb.negOpt_getD, hb.coeff_getD, hb.conv_getD,
      hb.load, getD_map_eq _ _ _ this, ← harity, hhidden, Const.denote_nat, Const.denote_inv,
      Const.denote_negNat, Const.denote_negInv, Nat.cast_one, Nat.cast_ofNat, one_mul, convAt,
      ite_true, ite_false, Id.run_pure, hb.add, hb.constant]

end FieldOps

/-- Read in a field of characteristic zero, the coefficient the recurrences build at an order
`n ≥ 1` exists and is the one value of the result's order-`n` coefficient that makes the
operator's defining identity hold at order `n`, the lower orders of the result and all the
orders of its arguments and hidden dependencies being given. It needs the right number of
arguments and hidden dependencies, a literal exponent for a power, and a non-zero order-0
quantity to divide by. -/
theorem coefficient_solves_uniquely [CharZero F] [Inhabited F] {R : Type} {b : CoeffOps Id F R}
    {series : R → Nat → F} (hb : FieldOps b series) (op : Op) (this : R) (args hidden : List R)
    {n : Nat} (hn : 0 < n) (harity : op.accepts args.length = true)
    (hhidden : hidden.length = op.hiddenCount)
    (hpow : op = .pow → b.isConstant (args.getD 1 this) = true)
    (hden : op.leadingDenominator (series this) (args.map series) (hidden.map series) ≠ 0) :
    ∃ v : F, coefficient b op this args hidden n = .ok (pure v) ∧
      ∀ x, op.Solves n (mk (Function.update (series this) n x)) (args.map fun r => mk (series r))
        (hidden.map fun r => mk (series r)) ↔ x = v := by
  refine ⟨op.nextCoeff n (series this) (args.map series) (hidden.map series), ?_, fun x => ?_⟩
  · -- every check passes, and the order is not zero
    have harity' : op.checkArity args.length = .ok () := by simp [Op.checkArity, harity]
    have hhidden' : (hidden.length != op.hiddenCount) = false := by simp [hhidden]
    have hpow' : (op == .pow && !b.isConstant (args.getD 1 this)) = false := by
      by_cases hop : op = .pow
      · subst hop
        rw [hpow rfl]
        rfl
      · simp [hop]
    have hn' : (n == 0) = false := by simp; omega
    simp only [coefficient, harity', hhidden', hpow', hn', Bool.false_eq_true, if_false]
    show Except.ok (pure (b.orZero (b.higher op this args hidden n).run).run : Id F) = _
    rw [hb.orZero_run, hb.higher_getD op this args hidden harity hhidden]
  · simpa only [List.map_map, Function.comp_def] using op.solves_iff hn _ _ _ hden x

/-- The logarithm of `1 + 2t + 3t² + …`, read over the rationals: at order two the recurrence
returns the one coefficient that makes `b * a' = b'` hold there. -/
theorem log_coefficient_solves_uniquely :
    FieldOps (CoeffOps.inField (fun r k : Nat => ((r + k : Nat) : ℚ)) fun _ => false)
        (fun r k : Nat => ((r + k : Nat) : ℚ)) ∧
      0 < 2 ∧ Op.log.accepts [1].length = true ∧ ([] : List Nat).length = Op.log.hiddenCount ∧
      (Op.log = .pow → (fun _ : Nat => false) ([1].getD 1 0) = true) ∧
      Op.log.leadingDenominator (fun k : Nat => ((0 + k : Nat) : ℚ))
        ([1].map fun r k : Nat => ((r + k : Nat) : ℚ)) [] ≠ 0 ∧
      ∃ v : ℚ,
        coefficient (CoeffOps.inField (fun r k : Nat => ((r + k : Nat) : ℚ)) fun _ => false)
          Op.log 0 [1] [] 2 = .ok (pure v) ∧
        ∀ x, Op.log.Solves 2 (mk (Function.update (fun k : Nat => ((0 + k : Nat) : ℚ)) 2 x))
          ([1].map fun r => mk fun k : Nat => ((r + k : Nat) : ℚ)) [] ↔ x = v := by
  have hb : FieldOps (CoeffOps.inField (fun r k : Nat => ((r + k : Nat) : ℚ)) fun _ => false)
      (fun r k : Nat => ((r + k : Nat) : ℚ)) := FieldOps.inField (by simp)
  have hden : Op.log.leadingDenominator (fun k : Nat => ((0 + k : Nat) : ℚ))
      ([1].map fun r k : Nat => ((r + k : Nat) : ℚ)) [] ≠ 0 := by
    simp [Op.leadingDenominator]
  exact ⟨hb, by decide, by decide, rfl, by simp, hden,
    coefficient_solves_uniquely hb .log 0 [1] [] (by decide) (by decide) rfl (by simp) hden⟩

end TaylorOde
