import TaylorOde.Integrator.Continuous
import TaylorOde.Proofs.Scalar.Order
/-!
# Evaluating the continuous output

`ContinuousOutput.eval t` looks for the step to evaluate in: it counts the step ends, from the
end of the first step on, that lie strictly before `t` in the direction of integration, and takes
the step after them, or the last step when `t` lies past every end. The count is a lower bound
in the sense of a binary search (`countWhile_spec`): every end it counts lies before `t`, and the
first end it does not count does not.

For an output whose times run in the direction of integration (`Ordered`), as a propagation
records them, and a time within its bounds, the step found contains the time between its two ends
(`eval_in_step`); repeated times, the first and the last time, and backward outputs included.
Outside its bounds, at a NaN, and for an output with no step, evaluation fails as invalid input.

Both directions are treated at once through the comparisons in the direction of integration
(`dirLe`, `dirLt`): the comparisons themselves going forward, and the reversed ones going
backward. They obey the same order laws (`Scalar.OrderLaws`).
-/

namespace TaylorOde

namespace ContinuousOutput

open Scalar

/-! ## Counting the leading elements that pass a test -/

section CountWhile

variable {α : Type}

theorem countWhile_cons (p : α → Bool) (a : α) (l : List α) :
    countWhile p (a :: l) = if p a then countWhile p l + 1 else 0 := by
  unfold countWhile
  rw [List.takeWhile_cons]
  split <;> simp

theorem countWhile_le_length (p : α → Bool) (l : List α) : countWhile p l ≤ l.length :=
  (List.takeWhile_prefix p).length_le

/-- The leading elements counted pass the test, and the first element not counted fails it. -/
theorem countWhile_spec (p : α → Bool) :
    ∀ l : List α, (∀ j < countWhile p l, ∀ x, l[j]? = some x → p x = true) ∧
      ∀ x, l[countWhile p l]? = some x → p x = false
  | [] => ⟨fun j hj => absurd hj (by simp [countWhile]), fun x hx => by simp at hx⟩
  | a :: l => by
    obtain ⟨hpass, hstop⟩ := countWhile_spec p l
    by_cases ha : p a = true
    · have hcount : countWhile p (a :: l) = countWhile p l + 1 := by rw [countWhile_cons, if_pos ha]
      refine ⟨fun j hj x hx => ?_, fun x hx => ?_⟩
      · cases j with
        | zero => simpa [← Option.some.inj hx] using ha
        | succ j => exact hpass j (by omega) x (by simpa using hx)
      · rw [hcount, List.getElem?_cons_succ] at hx
        exact hstop x hx
    · have hcount : countWhile p (a :: l) = 0 := by rw [countWhile_cons, if_neg ha]
      refine ⟨fun j hj => absurd hj (by omega), fun x hx => ?_⟩
      rw [hcount, List.getElem?_cons_zero, Option.some.injEq] at hx
      simpa [← hx] using ha

end CountWhile

/-! ## Comparisons in the direction of integration -/

section Direction

variable {α : Type} [Scalar α]

/-- `x ≤ y` in the direction of integration: the comparison itself forward, reversed backward. -/
def dirLe (fwd : Bool) (x y : α) : Bool := if fwd then le x y else le y x

/-- `x < y` in the direction of integration. -/
def dirLt (fwd : Bool) (x y : α) : Bool := if fwd then lt x y else lt y x

variable [OrderLaws α]

theorem dirLe_trans {fwd : Bool} {x y z : α} (h₁ : dirLe fwd x y = true)
    (h₂ : dirLe fwd y z = true) : dirLe fwd x z = true := by
  cases fwd <;> simp only [dirLe, Bool.false_eq_true, ↓reduceIte] at *
  · exact OrderLaws.le_trans h₂ h₁
  · exact OrderLaws.le_trans h₁ h₂

theorem dirLe_of_dirLt {fwd : Bool} {x y : α} (h : dirLt fwd x y = true) :
    dirLe fwd x y = true := by
  cases fwd <;> simp only [dirLe, dirLt, Bool.false_eq_true, ↓reduceIte] at *
  all_goals exact OrderLaws.le_of_lt h

/-- Two values that are not NaN and not strictly in order are in order the other way. -/
theorem dirLe_of_not_dirLt {fwd : Bool} {x y : α} (hx : isNaN x = false) (hy : isNaN y = false)
    (h : dirLt fwd x y = false) : dirLe fwd y x = true := by
  cases fwd <;> simp only [dirLe, dirLt, Bool.false_eq_true, ↓reduceIte] at *
  · exact OrderLaws.le_of_not_lt hy hx h
  · exact OrderLaws.le_of_not_lt hx hy h

theorem not_isNaN_of_dirLe_right {fwd : Bool} {x y : α} (h : dirLe fwd x y = true) :
    isNaN y = false := by
  cases fwd <;> simp only [dirLe, Bool.false_eq_true, ↓reduceIte] at h
  · exact OrderLaws.not_isNaN_left h
  · exact OrderLaws.not_isNaN_right h

/-- Between the smaller and the larger of `a` and `b` is between `a` and `b`, in the direction
from `a` to `b`. -/
theorem dirLe_of_within {fwd : Bool} {a b t : α} (hab : dirLe fwd a b = true)
    (hlo : le (Scalar.min a b) t = true) (hhi : le t (Scalar.max a b) = true) :
    dirLe fwd a t = true ∧ dirLe fwd t b = true := by
  have hlo' : le a t = true ∨ le b t = true := by
    rcases Scalar.min_eq_or a b with h | h <;> rw [h] at hlo <;> simp [hlo]
  have hhi' : le t a = true ∨ le t b = true := by
    rcases Scalar.max_eq_or a b with h | h <;> rw [h] at hhi <;> simp [hhi]
  cases fwd <;> simp only [dirLe, Bool.false_eq_true, ↓reduceIte] at hab ⊢
  · -- backward: `b ≤ a`
    exact ⟨hhi'.elim id fun h => OrderLaws.le_trans h hab,
      hlo'.elim (fun h => OrderLaws.le_trans hab h) id⟩
  · -- forward: `a ≤ b`
    exact ⟨hlo'.elim id fun h => OrderLaws.le_trans hab h,
      hhi'.elim (fun h => OrderLaws.le_trans h hab) id⟩

end Direction

/-! ## Ordered outputs -/

section Ordered

variable {α : Type} [Scalar α]

/-- The direction of integration: forward when the last time is at or after the first. -/
def forward (c : ContinuousOutput α) : Bool :=
  le (c.times.getD 0 zero) (c.times.back?.getD zero)

/-- The times of an output as a propagation records them: the start and the end of every step,
each at or after the one before it in the direction of integration (non-decreasing forward,
non-increasing backward, repeated times allowed). -/
structure Ordered (c : ContinuousOutput α) : Prop where
  size_times : c.times.size = c.coeffs.size + 1
  monotone : ∀ i, i + 1 < c.times.size →
    dirLe c.forward (c.times.getD i zero) (c.times.getD (i + 1) zero) = true

/-- `t` lies between the two ends of step `i`, ends included. -/
def Between (c : ContinuousOutput α) (i : Nat) (t : α) : Prop :=
  (le (c.times.getD i zero) t = true ∧ le t (c.times.getD (i + 1) zero) = true) ∨
    (le (c.times.getD (i + 1) zero) t = true ∧ le t (c.times.getD i zero) = true)

/-- The step `eval` evaluates in: the step after the step ends lying strictly before `t` in the
direction of integration, or the last step. -/
def stepOf (c : ContinuousOutput α) (t : α) : Nat :=
  Nat.min (countWhile (fun b => dirLt c.forward b t) (c.times.toList.drop 1)) (c.coeffs.size - 1)

theorem last_eq_getD (c : ContinuousOutput α) :
    c.times.back?.getD zero = c.times.getD (c.times.size - 1) zero := by
  simp [Array.back?_eq_getElem?]

theorem between_of_dirLe {c : ContinuousOutput α} {i : Nat} {t : α} {fwd : Bool}
    (hlo : dirLe fwd (c.times.getD i zero) t = true)
    (hhi : dirLe fwd t (c.times.getD (i + 1) zero) = true) : c.Between i t := by
  cases fwd <;> simp only [dirLe, Bool.false_eq_true, ↓reduceIte] at hlo hhi
  · exact .inr ⟨hhi, hlo⟩
  · exact .inl ⟨hlo, hhi⟩

/-- The test `eval` makes first: a step, and `t` within the bounds. -/
def Within (c : ContinuousOutput α) (t : α) : Prop :=
  0 < c.nSteps ∧ le c.bounds.1 t = true ∧ le t c.bounds.2 = true

theorem within_iff (c : ContinuousOutput α) (t : α) :
    c.Within t ↔ (c.coeffs.isEmpty || !(le c.bounds.1 t && le t c.bounds.2)) = false := by
  simp [Within, nSteps, Nat.pos_iff_ne_zero]

/-- Outside the bounds, or with no step, evaluation fails as invalid input. -/
theorem eval_of_not_within {c : ContinuousOutput α} {t : α} (h : ¬ c.Within t) :
    ∃ msg, c.eval t = .error (.invalid msg) := by
  rw [within_iff, Bool.not_eq_false] at h
  unfold eval
  simp only
  rw [if_pos h]
  exact ⟨_, rfl⟩

/-- Within the bounds, evaluation evaluates the polynomials of `stepOf t`. -/
theorem eval_of_within {c : ContinuousOutput α} {t : α} (h : c.Within t) :
    c.eval t = .ok ((c.coeffs.getD (c.stepOf t) #[]).toList.map
      fun p => Poly.horner p (t - c.times.getD (c.stepOf t) zero)) := by
  rw [within_iff] at h
  unfold eval
  simp only
  rw [if_neg (by rw [h]; exact Bool.false_ne_true)]
  rfl

theorem eval_error_iff (c : ContinuousOutput α) (t : α) :
    (∃ msg, c.eval t = .error (.invalid msg)) ↔ ¬ c.Within t :=
  ⟨fun ⟨_, he⟩ hw => (by rw [eval_of_within hw] at he; cases he), eval_of_not_within⟩

theorem stepOf_lt {c : ContinuousOutput α} (hn : 0 < c.nSteps) (t : α) :
    c.stepOf t < c.nSteps :=
  Nat.lt_of_le_of_lt (Nat.min_le_right _ _) (by unfold nSteps at hn ⊢; omega)

/-- The ends searched are the times from the first step end on. -/
theorem getElem?_ends {c : ContinuousOutput α} {j : Nat} (hj : j + 1 < c.times.size) :
    (c.times.toList.drop 1)[j]? = some (c.times.getD (j + 1) zero) := by
  simp [hj]

variable [OrderLaws α]

/-- Each time of an ordered output lies at or after every earlier one. -/
theorem Ordered.dirLe_getD {c : ContinuousOutput α} (h : c.Ordered) {i : Nat} :
    ∀ {j}, i < j → j < c.times.size →
      dirLe c.forward (c.times.getD i zero) (c.times.getD j zero) = true
  | 0, hij, _ => absurd hij (Nat.not_lt_zero i)
  | j + 1, hij, hj => by
    -- the chain up to `j`, then one more link
    rcases Nat.lt_succ_iff_lt_or_eq.1 hij with hij | rfl
    · exact dirLe_trans (h.dirLe_getD hij (by omega)) (h.monotone j hj)
    · exact h.monotone i hj

/-- The first time of an ordered output with a step lies before its last one. -/
theorem Ordered.dirLe_first_last {c : ContinuousOutput α} (h : c.Ordered) (hn : 0 < c.nSteps) :
    dirLe c.forward (c.times.getD 0 zero) (c.times.back?.getD zero) = true := by
  have hsize := h.size_times
  rw [last_eq_getD]
  exact h.dirLe_getD (by unfold nSteps at hn; omega) (by omega)

/-- A time within the bounds of an ordered output lies between its first and its last time. -/
theorem Ordered.dirLe_of_bounds {c : ContinuousOutput α} (h : c.Ordered) (hn : 0 < c.nSteps)
    {t : α} (hlo : le c.bounds.1 t = true) (hhi : le t c.bounds.2 = true) :
    dirLe c.forward (c.times.getD 0 zero) t = true ∧
      dirLe c.forward t (c.times.back?.getD zero) = true :=
  dirLe_of_within (h.dirLe_first_last hn) hlo hhi

/-- The step found starts at or before `t`. -/
theorem Ordered.dirLe_stepOf {c : ContinuousOutput α} (h : c.Ordered) {t : α} (hw : c.Within t) :
    dirLe c.forward (c.times.getD (c.stepOf t) zero) t = true := by
  obtain ⟨hn, hlo, hhi⟩ := hw
  have hsize := h.size_times
  have hlt := stepOf_lt hn t
  have hle : c.stepOf t ≤ countWhile (fun b => dirLt c.forward b t) (c.times.toList.drop 1) :=
    Nat.min_le_left _ _
  obtain ⟨hpass, -⟩ := countWhile_spec (fun b => dirLt c.forward b t) (c.times.toList.drop 1)
  cases hs : c.stepOf t with
  | zero => exact (h.dirLe_of_bounds hn hlo hhi).1
  | succ s =>
    -- a later step starts at an end counted as lying strictly before `t`
    rw [hs] at hle hlt
    unfold nSteps at hlt
    exact dirLe_of_dirLt (hpass s (by omega) _ (getElem?_ends (by omega)))

/-- The step found ends at or after `t`. -/
theorem Ordered.dirLe_stepOf_succ {c : ContinuousOutput α} (h : c.Ordered) {t : α}
    (hw : c.Within t) : dirLe c.forward t (c.times.getD (c.stepOf t + 1) zero) = true := by
  obtain ⟨hn, hlo, hhi⟩ := hw
  have hsize := h.size_times
  unfold nSteps at hn
  have hlen : (c.times.toList.drop 1).length = c.coeffs.size := by simp [hsize]
  have hcount := countWhile_le_length (fun b => dirLt c.forward b t) (c.times.toList.drop 1)
  obtain ⟨-, hstop⟩ := countWhile_spec (fun b => dirLt c.forward b t) (c.times.toList.drop 1)
  rw [hlen] at hcount
  unfold stepOf
  generalize countWhile (fun b => dirLt c.forward b t) (c.times.toList.drop 1) = k at hcount hstop ⊢
  rcases Nat.lt_or_eq_of_le hcount with hk | hk
  · -- the search stops at an end not strictly before `t`: the end of the step found
    rw [show Nat.min k (c.coeffs.size - 1) = k from Nat.min_eq_left (by omega)]
    have hend := hstop _ (getElem?_ends (by omega))
    have hchain : dirLe c.forward (c.times.getD 0 zero) (c.times.getD (k + 1) zero) = true :=
      h.dirLe_getD (Nat.succ_pos k) (by omega)
    exact dirLe_of_not_dirLt (not_isNaN_of_dirLe_right hchain) (OrderLaws.not_isNaN_right hlo) hend
  · -- every end lies strictly before `t`: the last step, which ends at the last time
    rw [show Nat.min k (c.coeffs.size - 1) = c.coeffs.size - 1 from Nat.min_eq_right (by omega),
      show c.coeffs.size - 1 + 1 = c.times.size - 1 by omega,
      ← last_eq_getD]
    exact (h.dirLe_of_bounds hn hlo hhi).2

end Ordered

section Evaluation

variable {α : Type} [Scalar α] [OrderLaws α]

/-- Evaluating a continuous output. It fails as invalid input exactly when the output has no
step, the time is NaN, or it lies outside the bounds. For an ordered output and a time within its
bounds it evaluates, at the time since the start of the step, the polynomials of a step whose two
ends the time lies between. -/
theorem eval_in_step (c : ContinuousOutput α) (t : α) :
    ((∃ msg, c.eval t = .error (.invalid msg)) ↔
      c.nSteps = 0 ∨ isNaN t = true ∨ ¬ (le c.bounds.1 t = true ∧ le t c.bounds.2 = true)) ∧
    (c.Ordered → 0 < c.nSteps → le c.bounds.1 t = true → le t c.bounds.2 = true →
      ∃ i < c.nSteps, c.Between i t ∧ c.eval t = .ok ((c.coeffs.getD i #[]).toList.map
        fun p => Poly.horner p (t - c.times.getD i zero))) := by
  refine ⟨(eval_error_iff c t).trans ⟨fun hout => ?_, ?_⟩, fun h hn hlo hhi => ?_⟩
  · -- the test fails: no step, or `t` outside the bounds
    rcases Nat.eq_zero_or_pos c.nSteps with h0 | hn
    · exact .inl h0
    · exact .inr (.inr fun hb => hout ⟨hn, hb⟩)
  · -- a NaN lies within no bounds
    rintro hbad ⟨hn, hlo, hhi⟩
    rcases hbad with h0 | hnan | hout
    · omega
    · rw [OrderLaws.not_isNaN_right hlo] at hnan
      cases hnan
    · exact hout ⟨hlo, hhi⟩
  · have hw : c.Within t := ⟨hn, hlo, hhi⟩
    exact ⟨c.stepOf t, stepOf_lt hn t,
      between_of_dirLe (h.dirLe_stepOf hw) (h.dirLe_stepOf_succ hw), eval_of_within hw⟩

end Evaluation

/-- A backward output over `[0, 2]` whose second step has length zero. -/
def backwardSample : ContinuousOutput Float :=
  ⟨#[2.0, 1.0, 1.0, 0.0], #[#[[1.0, 2.0]], #[[3.0]], #[[4.0, 5.0]]]⟩

theorem backwardSample_eval :
    backwardSample.Ordered ∧
      (∃ i < backwardSample.nSteps, backwardSample.Between i 1.0 ∧
        backwardSample.eval 1.0 = .ok ((backwardSample.coeffs.getD i #[]).toList.map
          fun p => Poly.horner p (1.0 - backwardSample.times.getD i zero))) ∧
      ∃ msg, backwardSample.eval 3.0 = .error (.invalid msg) := by
  have hord : backwardSample.Ordered := by
    refine ⟨rfl, fun i hi => ?_⟩
    have hsize : backwardSample.times.size = 4 := rfl
    rcases i with _ | _ | _ | i
    all_goals first | decide | omega
  exact ⟨hord, (eval_in_step backwardSample 1.0).2 hord (by decide) (by decide) (by decide),
    (eval_in_step backwardSample 3.0).1.2 (.inr (.inr (by decide)))⟩

end ContinuousOutput

end TaylorOde
