import TaylorOde.Polynomial.Roots
import TaylorOde.Proofs.Scalar.Exact
import Mathlib.Algebra.Polynomial.RuleOfSigns
import Mathlib.Algebra.Polynomial.Reverse
import Mathlib.Algebra.Polynomial.Derivative
import Mathlib.Data.List.GetD
/-!
# The polynomial kernels in exact arithmetic

Read through an exact reading `val` of the scalars in a commutative ring (`Scalar.RingReading`),
a coefficient list `p` denotes the polynomial `denote val p` with the readings of `p` as its
coefficients in increasing degree. The kernels then compute what their names say:

* `horner` evaluates it: the value is the sum of `c_i x^i` (`val_horner`, `eval_denote`);
* `taylorShift a` gives the coefficients of `p (x + a)` (`denote_taylorShift`): a pass of
  synthetic division splits `p = (x - a) q + p(a)` (`denote_shiftPass`), and the rest is `q`
  shifted in turn;
* `rescale s` gives those of `p (s x)` (`denote_rescale`), and `derivative` those of `p'`
  (`map_derivative`, given the counts it multiplies by are exact);
* with comparisons read as an order (`Scalar.OrderReading`), `signChanges` counts the sign
  changes of the denoted polynomial's coefficients, zeros skipped, as `signVariations` does
  (`signChanges_eq_signVariations`), so `descartesBound p` is the number of sign changes of
  `(1 + x) ^ d · p (1 / (1 + x))`, written `(reflect d p).comp (X + 1)`.

Each list statement comes from a polynomial identity and the fact that a list of length `n`
holds the first `n` coefficients of what it denotes (`map_eq_coeffsBelow`).
-/

namespace TaylorOde

open Polynomial

namespace Poly

open Scalar

/-! ## Sign changes along a list -/

section Changes

variable {β : Type*} [DecidableEq β]

/-- The number of adjacent entries of a list that differ. -/
def changeCount : List β → ℕ
  | a :: b :: l => (if a = b then 0 else 1) + changeCount (b :: l)
  | _ => 0

@[simp] theorem changeCount_nil : changeCount ([] : List β) = 0 := rfl

@[simp] theorem changeCount_singleton (a : β) : changeCount [a] = 0 := rfl

@[simp] theorem changeCount_cons_cons (a b : β) (l : List β) :
    changeCount (a :: b :: l) = (if a = b then 0 else 1) + changeCount (b :: l) := rfl

/-- Keeping the first entry of every run leaves one entry more than there are changes. -/
theorem length_destutter'_ne (a : β) (l : List β) :
    (l.destutter' (· ≠ ·) a).length = changeCount (a :: l) + 1 := by
  induction l generalizing a with
  | nil => simp
  | cons b l ih =>
    rw [List.destutter'_cons]
    by_cases hab : a = b
    · subst hab
      rw [if_neg (by simp), ih]
      simp
    · rw [if_pos hab, List.length_cons, ih]
      simp [hab]
      omega

theorem length_destutter_ne_sub_one (l : List β) :
    (l.destutter (· ≠ ·)).length - 1 = changeCount l := by
  cases l with
  | nil => rfl
  | cons a l => rw [List.destutter_cons', length_destutter'_ne, Nat.add_sub_cancel]

theorem changeCount_append_singleton (l : List β) (b : β) :
    changeCount (l ++ [b]) = changeCount l + (match l.getLast? with
      | some a => if a = b then 0 else 1
      | none => 0) := by
  induction l with
  | nil => simp
  | cons a l ih =>
    cases l with
    | nil => simp
    | cons c l =>
      rw [List.cons_append, List.cons_append, changeCount_cons_cons, ← List.cons_append, ih,
        changeCount_cons_cons, List.getLast?_cons_cons]
      omega

/-- Changes are counted alike from either end. -/
theorem changeCount_reverse (l : List β) : changeCount l.reverse = changeCount l := by
  induction l with
  | nil => rfl
  | cons a l ih =>
    rw [List.reverse_cons, changeCount_append_singleton, ih, List.getLast?_reverse]
    cases l with
    | nil => simp
    | cons b l =>
      simp only [List.head?_cons, changeCount_cons_cons]
      by_cases hab : a = b
      · simp [hab]
      · simp [hab, Ne.symm hab]
        omega

theorem changeCount_map {γ : Type*} [DecidableEq γ] {f : β → γ} (hf : Function.Injective f)
    (l : List β) : changeCount (l.map f) = changeCount l := by
  induction l with
  | nil => rfl
  | cons a l ih =>
    cases l with
    | nil => rfl
    | cons b l =>
      rw [List.map_cons, List.map_cons, changeCount_cons_cons, ← List.map_cons, ih,
        changeCount_cons_cons]
      simp only [hf.eq_iff]

end Changes

/-! ## Coefficient lists as polynomials -/

variable {α : Type} {R : Type*} [CommRing R]

/-- The polynomial whose coefficients, in increasing degree, are the readings of `p`. -/
noncomputable def denote (val : α → R) : Poly α → R[X]
  | [] => 0
  | c :: p => C (val c) + X * denote val p

/-- The first `n` coefficients of a polynomial, in increasing degree. -/
noncomputable def coeffsBelow (n : ℕ) (P : R[X]) : List R := (List.range n).map P.coeff

section Denote

variable (val : α → R)

@[simp] theorem denote_nil : denote val [] = 0 := rfl

@[simp] theorem denote_cons (c : α) (p : Poly α) :
    denote val (c :: p) = C (val c) + X * denote val p := rfl

@[simp] theorem length_coeffsBelow (n : ℕ) (P : R[X]) : (coeffsBelow n P).length = n := by
  simp [coeffsBelow]

theorem coeff_denote (p : Poly α) (i : ℕ) : (denote val p).coeff i = (p.map val).getD i 0 := by
  induction p generalizing i with
  | nil => simp
  | cons c p ih =>
    cases i with
    | zero => simp
    | succ i => simp [ih]

theorem degree_denote_lt (p : Poly α) : (denote val p).degree < p.length := by
  rw [degree_lt_iff_coeff_zero]
  intro m hm
  rw [coeff_denote, List.getD_eq_default _ _ (by simpa using hm)]

/-- A coefficient list holds the first coefficients of the polynomial it denotes. -/
theorem map_eq_coeffsBelow (p : Poly α) : p.map val = coeffsBelow p.length (denote val p) := by
  apply List.ext_getElem (by simp)
  intro i h₁ _
  have hi : i < p.length := by simpa using h₁
  simp [coeffsBelow, coeff_denote, List.getElem?_eq_getElem hi]

/-- Summing the terms `c_i y^i` evaluates the denoted polynomial. -/
theorem eval_denote (p : Poly α) (y : R) :
    (denote val p).eval y = ∑ i : Fin p.length, val p[i] * y ^ (i : ℕ) := by
  induction p with
  | nil => simp
  | cons c p ih =>
    show _ = ∑ i : Fin (p.length + 1), val (c :: p)[i] * y ^ (i : ℕ)
    rw [denote_cons, eval_add, eval_C, eval_mul, eval_X, ih, Fin.sum_univ_succ, Finset.mul_sum]
    simp only [Fin.getElem_fin, Fin.val_zero, List.getElem_cons_zero, Fin.val_succ,
      List.getElem_cons_succ, pow_zero, mul_one, pow_succ]
    congr 1
    exact Finset.sum_congr rfl fun i _ => by ring

/-- Reversing a coefficient list reflects the polynomial about the middle degree. -/
theorem denote_reverse (p : Poly α) :
    denote val p.reverse = reflect (p.length - 1) (denote val p) := by
  ext i
  rw [coeff_reflect, coeff_denote, coeff_denote]
  rcases Nat.lt_or_ge i p.length with hi | hi
  · rw [revAt_le (by omega), List.map_reverse, List.getD_eq_getElem?_getD,
      List.getElem?_reverse (by simpa using hi)]
    simp [List.getD_eq_getElem?_getD]
  · -- beyond the list both sides read past its end
    have hrev : p.length ≤ revAt (p.length - 1) i := by
      rcases Nat.lt_or_ge (p.length - 1) i with h | h
      · rw [revAt_eq_self_of_lt h]
        exact hi
      · rw [revAt_le h]
        omega
    rw [List.getD_eq_default _ _ (by simpa using hi), List.getD_eq_default _ _ (by simpa using hrev)]

/-- Past its degree a polynomial's coefficients vanish: its first `n` coefficients are its
coefficient list read from the constant term up, then zeros. -/
theorem coeffsBelow_eq {n : ℕ} {Q : R[X]} (hQ : Q.degree < n) :
    coeffsBelow n Q = Q.coeffList.reverse ++ List.replicate (n - Q.coeffList.length) 0 := by
  have hlen : Q.coeffList.length ≤ n := by
    rw [length_coeffList_eq_withBotSucc_degree]
    rcases eq_or_ne Q 0 with rfl | hQ0
    · simp
    · rw [withBotSucc_degree_eq_natDegree_add_one hQ0]
      rw [degree_eq_natDegree hQ0] at hQ
      exact_mod_cast hQ
  apply List.ext_getElem (by simp; omega)
  intro i h₁ h₂
  simp only [coeffsBelow, List.getElem_map, List.getElem_range]
  rcases Nat.lt_or_ge i Q.coeffList.length with hi | hi
  · rw [List.getElem_append_left (by simpa using hi)]
    simp [coeffList]
  · rw [List.getElem_append_right (by simpa using hi), List.getElem_replicate]
    apply coeff_eq_zero_of_degree_lt
    rcases eq_or_ne Q 0 with rfl | hQ0
    · simp
    · rw [length_coeffList_eq_withBotSucc_degree, withBotSucc_degree_eq_natDegree_add_one hQ0]
        at hi
      rw [degree_eq_natDegree hQ0]
      exact_mod_cast (by omega : Q.natDegree < i)

end Denote

/-! ## Shapes of the kernels' results -/

section Shape

variable [Scalar α]

/-- Only the empty list has an empty first pass. -/
theorem eq_nil_of_shiftPass {a : α} {p : Poly α} (hp : shiftPass a p = []) : p = [] :=
  List.eq_nil_of_length_eq_zero (by rw [← length_shiftPass a p, hp, List.length_nil])

theorem taylorShift_of_shiftPass {a : α} {p : Poly α} {c : α} {rest : Poly α}
    (hp : shiftPass a p = c :: rest) : taylorShift a p = c :: taylorShift a rest := by
  rw [taylorShift]
  split <;> simp_all

theorem length_taylorShift (a : α) (p : Poly α) : (taylorShift a p).length = p.length := by
  induction p using taylorShift.induct a with
  | case1 p hp =>
    rw [eq_nil_of_shiftPass hp, taylorShift]
    simp [shiftPass]
  | case2 p c rest hp _ ih =>
    have := length_shiftPass a p
    rw [hp, List.length_cons] at this
    rw [taylorShift_of_shiftPass hp, List.length_cons, ih, this]

theorem length_rescale_go (s f : α) (p : Poly α) : (rescale.go s f p).length = p.length := by
  induction p generalizing f with
  | nil => rfl
  | cons c p ih => simp [rescale.go, ih]

theorem length_rescale (s : α) (p : Poly α) : (rescale s p).length = p.length :=
  length_rescale_go s one p

theorem length_derivative (p : Poly α) : (Poly.derivative p).length = p.length - 1 := by
  simp [Poly.derivative]

theorem getElem?_derivative (p : Poly α) {i : ℕ} (h : i + 1 < p.length) :
    (Poly.derivative p)[i]? = some (p[i + 1] * ofFloat (Float.ofNat (i + 1))) := by
  simp [Poly.derivative, List.getElem?_zipIdx, Nat.add_comm 1 i,
    List.getElem?_eq_getElem h]

/-- The sign `signChanges` reads off a coefficient: one above zero, minus one below, and zero
for zero and NaN. -/
def signOf (c : α) : ℤ := if Scalar.lt zero c then 1 else if Scalar.lt c zero then -1 else 0

/-- One step of `signChanges`: the last nonzero sign met and the changes counted so far. -/
def signStep (acc : ℤ × ℕ) (c : α) : ℤ × ℕ :=
  let (last, count) := acc
  let s := signOf c
  if s = 0 then acc else (s, if last ≠ 0 ∧ s ≠ last then count + 1 else count)

theorem signChanges_eq_foldl (p : Poly α) : signChanges p = (p.foldl signStep (0, 0)).2 := rfl

/-- After a nonzero sign, the count grows by the changes along the nonzero signs to come. -/
theorem foldl_signStep {last : ℤ} (hlast : last ≠ 0) (count : ℕ) (l : Poly α) :
    (l.foldl signStep (last, count)).2 =
      count + changeCount (last :: (l.map signOf).filter (· ≠ 0)) := by
  induction l generalizing last count with
  | nil => simp
  | cons c l ih =>
    rw [List.foldl_cons]
    by_cases hs : signOf c = 0
    · have hstep : signStep (last, count) c = (last, count) := by simp [signStep, hs]
      rw [hstep, ih hlast]
      simp [hs]
    · have hstep : signStep (last, count) c =
          (signOf c, if last = signOf c then count else count + 1) := by
        simp only [signStep, hs, if_false, ne_eq, hlast, not_false_eq_true, true_and]
        by_cases he : last = signOf c <;> simp [he, eq_comm]
      rw [hstep, ih hs]
      simp only [List.map_cons, List.filter_cons, ne_eq, hs, not_false_eq_true, decide_true,
        if_true, changeCount_cons_cons]
      split <;> omega

theorem foldl_signStep_zero (count : ℕ) (l : Poly α) :
    (l.foldl signStep (0, count)).2 = count + changeCount ((l.map signOf).filter (· ≠ 0)) := by
  induction l generalizing count with
  | nil => simp
  | cons c l ih =>
    rw [List.foldl_cons]
    by_cases hs : signOf c = 0
    · have hstep : signStep (0, count) c = (0, count) := by simp [signStep, hs]
      rw [hstep, ih]
      simp [hs]
    · have hstep : signStep (0, count) c = (signOf c, count) := by simp [signStep, hs]
      rw [hstep, foldl_signStep hs]
      simp [hs]

/-- `signChanges` counts the changes along the nonzero signs. -/
theorem signChanges_eq_changeCount (p : Poly α) :
    signChanges p = changeCount ((p.map signOf).filter (· ≠ 0)) := by
  rw [signChanges_eq_foldl, foldl_signStep_zero, Nat.zero_add]

end Shape

/-! ## The kernels read exactly -/

section Exact

variable [Scalar α] {val : α → R} (hv : Scalar.RingReading val)
include hv

theorem val_horner (p : Poly α) (x : α) : val (horner p x) = (denote val p).eval (val x) := by
  induction p with
  | nil =>
    rw [denote_nil, eval_zero]
    exact hv.zero
  | cons c p ih =>
    change val (horner p x * x + c) = _
    rw [hv.add, hv.mul, ih, denote_cons, eval_add, eval_C, eval_mul, eval_X]
    ring

/-- A pass of synthetic division by `x - a` leaves the value at `a` first and the quotient
after it. -/
theorem denote_shiftPass (a : α) :
    ∀ {p : Poly α} {h : α} {t : Poly α}, shiftPass a p = h :: t →
      denote val p = (X - C (val a)) * denote val t + C (val h)
  | [], _, _, hp => by simp [shiftPass] at hp
  | c :: rest, h, t, hp => by
    simp only [shiftPass] at hp
    split at hp
    case h_1 hrest =>
      have := eq_nil_of_shiftPass hrest
      obtain ⟨rfl, rfl⟩ := List.cons.inj hp
      simp [this]
    case h_2 h' t' hrest =>
      obtain ⟨rfl, rfl⟩ := List.cons.inj hp
      rw [denote_cons, denote_shiftPass a hrest, denote_cons, hv.add, hv.mul, C_add, C_mul]
      ring

/-- Rescaling from the factor `f` multiplies by `f` the polynomial at `s x`. -/
theorem denote_rescale_go (s f : α) (p : Poly α) :
    denote val (rescale.go s f p) = C (val f) * (denote val p).comp (C (val s) * X) := by
  induction p generalizing f with
  | nil => simp [rescale.go]
  | cons c p ih =>
    rw [rescale.go, denote_cons, ih, denote_cons, hv.mul, hv.mul]
    simp only [add_comp, mul_comp, C_comp, X_comp, map_mul]
    ring

/-- Rescaling by `s` gives the coefficients of `p (s x)`. -/
theorem denote_rescale (s : α) (p : Poly α) :
    denote val (rescale s p) = (denote val p).comp (C (val s) * X) := by
  rw [rescale, denote_rescale_go hv, hv.one, map_one, one_mul]

/-- The derivative multiplies coefficient `n` by `n`, read exactly when the counts up to the
length are. -/
theorem map_derivative (p : Poly α)
    (hn : ∀ n < p.length, val (ofFloat (Float.ofNat n)) = n) :
    (Poly.derivative p).map val =
      coeffsBelow (p.length - 1) (Polynomial.derivative (denote val p)) := by
  apply List.ext_getElem (by simp [length_derivative])
  intro i h₁ _
  have hi' : i < (Poly.derivative p).length := by simpa using h₁
  have hi : i + 1 < p.length := by
    rw [length_derivative] at hi'
    omega
  have hd : (Poly.derivative p)[i] = p[i + 1] * ofFloat (Float.ofNat (i + 1)) :=
    Option.some.inj ((List.getElem?_eq_getElem _).symm.trans (getElem?_derivative p hi))
  rw [List.getElem_map, hd, hv.mul, hn (i + 1) hi]
  simp only [coeffsBelow, List.getElem_map, List.getElem_range, coeff_derivative, coeff_denote]
  rw [List.getD_eq_getElem _ _ (by simpa using hi), List.getElem_map]
  push_cast
  ring

/-- The Taylor shift by `a` gives the coefficients of `p (x + a)`. -/
theorem denote_taylorShift (a : α) (p : Poly α) :
    denote val (taylorShift a p) = (denote val p).comp (X + C (val a)) := by
  induction p using taylorShift.induct a with
  | case1 p hp =>
    rw [eq_nil_of_shiftPass hp, taylorShift]
    simp [shiftPass]
  | case2 p c rest hp _ ih =>
    rw [taylorShift_of_shiftPass hp, denote_cons, ih, denote_shiftPass hv a hp]
    simp only [add_comp, mul_comp, sub_comp, X_comp, C_comp]
    ring

section Ordered

variable [LinearOrder R] (ho : Scalar.OrderReading val)
include ho

/-- With comparisons read as an order, `signOf` is the sign of the reading. -/
theorem signOf_eq (c : α) : signOf c = SignType.sign (val c) := by
  have h₁ : Scalar.lt zero c = true ↔ 0 < val c := by rw [ho.lt, hv.zero]
  have h₂ : Scalar.lt c zero = true ↔ val c < 0 := by rw [ho.lt, hv.zero]
  rcases lt_trichotomy (val c) 0 with h | h | h
  · simp [signOf, h₁, h₂, h, not_lt.2 h.le, sign_neg h]
  · simp [signOf, h₁, h₂, h]
  · simp [signOf, h₁, h, sign_pos h]

/-- `signChanges` counts the sign changes of the denoted polynomial's coefficients, zeros
skipped. -/
theorem signChanges_eq_signVariations (p : Poly α) :
    signChanges p = (denote val p).signVariations := by
  have hcast : Function.Injective (fun s : SignType => (s : ℤ)) := by decide
  have hsigns : p.map signOf =
      ((p.map val).map SignType.sign).map (fun s : SignType => (s : ℤ)) := by
    simp [signOf_eq hv ho, Function.comp_def]
  rw [signChanges_eq_changeCount, hsigns, List.filter_map, map_eq_coeffsBelow val p,
    coeffsBelow_eq (degree_denote_lt val p), changeCount_map hcast]
  have hpred : ((fun x : ℤ => decide (x ≠ 0)) ∘ fun s : SignType => (s : ℤ)) =
      fun s => decide (s ≠ 0) := by
    funext s
    cases s <;> rfl
  -- the zeros past the degree are skipped, and the rest is the coefficient list backwards
  simp only [hpred, List.map_append, List.map_reverse, List.map_replicate, sign_zero,
    List.filter_append, List.filter_reverse, List.filter_replicate, ne_eq, not_true_eq_false,
    decide_false, Bool.false_eq_true, if_false, List.append_nil, changeCount_reverse]
  simp only [signVariations, length_destutter_ne_sub_one]

/-- Descartes' bound counts the sign changes of `(1 + x) ^ d · p (1 / (1 + x))`, with `d` one
below the length: the reversed list denotes `x ^ d · p (1 / x)`, shifted by one. -/
theorem descartesBound_eq (p : Poly α) :
    descartesBound p = ((reflect (p.length - 1) (denote val p)).comp (X + 1)).signVariations := by
  rw [descartesBound, signChanges_eq_signVariations hv ho, denote_taylorShift hv, denote_reverse,
    hv.one, map_one]

end Ordered

end Exact

/-- In exact arithmetic the polynomial kernels compute what they are named for: Horner's rule
sums the terms `c_i x^i`, the Taylor shift by `a` and the rescaling by `s` leave the
coefficients of `p (x + a)` and `p (s x)`, the derivative gives those of `p'`, and Descartes'
bound is the number of sign changes, zeros skipped, of the coefficients of
`(1 + x) ^ d · p (1 / (1 + x))`, `d` one below the length. -/
theorem kernels_in_exact_arithmetic [Scalar α] [LinearOrder R] {val : α → R}
    (hv : Scalar.RingReading val) (ho : Scalar.OrderReading val) (p : Poly α) (a s x : α)
    (hn : ∀ n < p.length, val (ofFloat (Float.ofNat n)) = n) :
    val (horner p x) = ∑ i : Fin p.length, val p[i] * val x ^ (i : ℕ) ∧
    (taylorShift a p).map val = coeffsBelow p.length ((denote val p).comp (X + C (val a))) ∧
    (rescale s p).map val = coeffsBelow p.length ((denote val p).comp (C (val s) * X)) ∧
    (Poly.derivative p).map val =
      coeffsBelow (p.length - 1) (Polynomial.derivative (denote val p)) ∧
    descartesBound p = ((reflect (p.length - 1) (denote val p)).comp (X + 1)).signVariations := by
  refine ⟨?_, ?_, ?_, map_derivative hv p hn, descartesBound_eq hv ho p⟩
  · rw [val_horner hv, eval_denote]
  · rw [map_eq_coeffsBelow, length_taylorShift, denote_taylorShift hv]
  · rw [map_eq_coeffsBelow, length_rescale, denote_rescale hv]

/-- The kernels over the exact rationals, on `1 + 2 x + 3 x²`. -/
theorem kernels_in_exact_arithmetic_rat :
    Scalar.RingReading (id : ℚ → ℚ) ∧ Scalar.OrderReading (id : ℚ → ℚ) ∧
      (∀ n < ([1, 2, 3] : Poly ℚ).length, id (ofFloat (Float.ofNat n) : ℚ) = n) ∧
      (id (horner [1, 2, 3] (1 / 2 : ℚ)) =
          ∑ i : Fin ([1, 2, 3] : Poly ℚ).length, id ([1, 2, 3] : Poly ℚ)[i] * id (1 / 2 : ℚ) ^ (i : ℕ) ∧
        (taylorShift 1 ([1, 2, 3] : Poly ℚ)).map id =
          coeffsBelow 3 ((denote id ([1, 2, 3] : Poly ℚ)).comp (X + C (id 1))) ∧
        (rescale 2 ([1, 2, 3] : Poly ℚ)).map id =
          coeffsBelow 3 ((denote id ([1, 2, 3] : Poly ℚ)).comp (C (id 2) * X)) ∧
        (Poly.derivative ([1, 2, 3] : Poly ℚ)).map id =
          coeffsBelow (3 - 1) (Polynomial.derivative (denote id ([1, 2, 3] : Poly ℚ))) ∧
        descartesBound ([1, 2, 3] : Poly ℚ) =
          ((reflect (3 - 1) (denote id ([1, 2, 3] : Poly ℚ))).comp (X + 1)).signVariations) :=
  ⟨Scalar.ringReading_rat, Scalar.orderReading_rat, by decide +kernel,
    kernels_in_exact_arithmetic Scalar.ringReading_rat Scalar.orderReading_rat [1, 2, 3] 1 2 (1 / 2)
      (by decide +kernel)⟩

end Poly

end TaylorOde
