import TaylorOde.Proofs.Polynomial.Transforms
import Mathlib.Algebra.Polynomial.RingDivision
/-!
# Root isolation: the work stack and its invariants

Root isolation halves subintervals depth first, the left half first. Its loop `isolateLoop`
pops entries `(lb, ub, r, depthLeft)` from a work stack, does the work of `visit` on each, and
pushes the two halves of an entry that `splits`, the right half below the left. `popped` lists
the entries in the order they are popped from one entry: `isolateLoop_eq_foldl` shows that the
loop is the fold of `visit` over them, and `isolate_eq_foldl` that the recursion `isolate` is
the same fold, so that the loop started at one entry is `isolate` (`isolateLoop_eq_isolate`).

With the scalars read exactly in an ordered field (`Scalar.FieldReading`):

* every popped entry `Represents` the rescaled polynomial `q` on its interval: its polynomial
  times a factor with no positive root is `q (lb + (ub - lb) x)`, so for `x > 0` the two have
  the same roots with the same multiplicities (`Represents.rootMultiplicity_eq`). Stripping a
  zero constant coefficient moves a factor `x` into that factor, and halving composes both
  sides with an affine map that keeps `x > 0` (`Represents.comp`);
* an entry `k` halvings deep spans `2⁻ᵏ` of its first interval (`mem_popped`);
* an entry popped later lies inside an earlier one that splits, or to its right
  (`pairwise_popped`), so the entries that do not split meet at most in an endpoint and come
  left to right (`pairwise_popped_final`); what `visit` adds lies in the entry's interval
  (`visit_pushes`); so `isolate` adds a non-decreasing list of values in `[lb, ub]`
  (`foldl_visit_popped`) and `rootsIn p h` is a non-decreasing list of values in `[0, h)`.
-/

namespace TaylorOde

open Polynomial

namespace Poly

open Scalar

variable {α : Type}

section Stack

variable [Scalar α]

/-- Whether isolation halves an entry: the Descartes bound of its polynomial, zero constant
coefficients stripped, is at least two, and a halving is left. -/
def StackEntry.splits (e : StackEntry α) : Bool :=
  2 ≤ descartesBound (stripRootsAtStart e.lb e.poly []).1 && 0 < e.depthLeft

/-- The entries in the order the work stack pops them, from the entry `(lb, ub, r, d)`: the
entry itself and, if it splits, those of its left half and then those of its right half. -/
def popped : Nat → α → α → Poly α → List (StackEntry α)
  | 0, lb, ub, r => [⟨lb, ub, r, 0⟩]
  | d + 1, lb, ub, r =>
    let s := (stripRootsAtStart lb r []).1
    if 2 ≤ descartesBound s then
      let half := ofFloat 0.5
      let left := rescale half s
      let mid := (lb + ub) * half
      ⟨lb, ub, r, d + 1⟩ :: (popped d lb mid left ++ popped d mid ub (taylorShift one left))
    else [⟨lb, ub, r, d + 1⟩]

/-- The work done on a popped entry: its zero constant coefficients are stripped, recording
the lower end as a root; an entry whose Descartes bound is zero, or that splits, adds nothing
more; any other adds the root that bisection of `q` finds in its interval, if any. -/
def visit (q : Poly α) (roots : List α) (e : StackEntry α) : List α :=
  let (s, roots) := stripRootsAtStart e.lb e.poly roots
  if descartesBound s = 0 || e.splits then roots
  else
    match bisect q e.lb e.ub with
    | some x => roots ++ [x]
    | none => roots

/-! ## The loop as a fold over the popped entries -/

/-- The polynomial left by stripping does not depend on the roots recorded so far. -/
theorem stripRootsAtStart_fst (lb : α) (r : Poly α) (roots : List α) :
    (stripRootsAtStart lb r roots).1 = (stripRootsAtStart lb r []).1 := by
  induction r generalizing roots with
  | nil => simp [stripRootsAtStart]
  | cons c rest ih =>
    cases rest with
    | nil => simp [stripRootsAtStart]
    | cons c' rest =>
      simp only [stripRootsAtStart]
      split
      · exact (ih _).trans (ih _).symm
      · rfl

/-- Stripping adds the lower end to the roots, at most once. -/
theorem stripRootsAtStart_snd (lb : α) (r : Poly α) (roots : List α) :
    ∃ new, (stripRootsAtStart lb r roots).2 = roots ++ new ∧ ∀ x ∈ new, x = lb := by
  induction r generalizing roots with
  | nil => exact ⟨[], by simp [stripRootsAtStart]⟩
  | cons c rest ih =>
    cases rest with
    | nil => exact ⟨[], by simp [stripRootsAtStart]⟩
    | cons c' rest =>
      simp only [stripRootsAtStart]
      split
      · split
        · exact ih roots
        · obtain ⟨new, hnew, hlb⟩ := ih (roots ++ [lb])
          refine ⟨lb :: new, by simp [hnew], ?_⟩
          simpa using hlb
      · exact ⟨[], by simp⟩

theorem splits_iff {lb ub : α} {r : Poly α} {d : Nat} :
    (StackEntry.splits ⟨lb, ub, r, d⟩) = true ↔
      2 ≤ descartesBound (stripRootsAtStart lb r []).1 ∧ 0 < d := by
  simp [StackEntry.splits]

/-- An entry whose bound, its zero constant coefficients stripped, is below two pops only
itself. -/
theorem popped_of_lt_two (d : Nat) (lb ub : α) (r : Poly α)
    (h : descartesBound (stripRootsAtStart lb r []).1 < 2) : popped d lb ub r = [⟨lb, ub, r, d⟩] := by
  cases d with
  | zero => rfl
  | succ d => simp [popped, Nat.not_le.2 h]

/-- `isolate` pops the entries of `popped` in order and does the work of `visit` on each. -/
theorem isolate_eq_foldl (q : Poly α) (d : Nat) (lb ub : α) (r : Poly α) (roots : List α) :
    isolate q d lb ub r roots = (popped d lb ub r).foldl (visit q) roots := by
  rcases hs : stripRootsAtStart lb r roots with ⟨s, roots'⟩
  have hs' : (stripRootsAtStart lb r []).1 = s := by rw [← stripRootsAtStart_fst lb r roots, hs]
  -- the cases of `isolate`: bound zero, bound one, and a larger bound
  rcases hb : descartesBound s with _ | _ | n
  · rw [isolate, popped_of_lt_two d lb ub r (by rw [hs', hb]; omega)]
    simp [hs, hb, visit]
  · rw [isolate, popped_of_lt_two d lb ub r (by rw [hs', hb]; omega)]
    cases hx : bisect q lb ub <;> simp [hs, hb, visit, hs', StackEntry.splits, hx]
  · cases d with
    | zero =>
      rw [isolate]
      cases hx : bisect q lb ub <;> simp [hs, hb, popped, visit, hs', StackEntry.splits, hx]
    | succ d =>
      -- the entry splits: `isolate` runs on the left half and then on the right half
      have ih := fun lb ub r roots => isolate_eq_foldl q d lb ub r roots
      rw [isolate]
      simp [hs, hb, popped, hs', List.foldl_append, ← ih]
      simp [visit, hs, hs', hb, StackEntry.splits]

/-- An entry `d` halvings deep pops fewer than `2 ^ (d + 1)` entries. -/
theorem length_popped_lt (d : Nat) (lb ub : α) (r : Poly α) :
    (popped d lb ub r).length < 2 ^ (d + 1) := by
  induction d generalizing lb ub r with
  | zero => simp [popped]
  | succ d ih =>
    rw [popped]
    dsimp only
    split
    · -- the entry and its two halves, each popping fewer than `2 ^ (d + 1)`
      have h₁ := ih lb ((lb + ub) * ofFloat 0.5)
        (rescale (ofFloat 0.5) (stripRootsAtStart lb r []).1)
      have h₂ := ih ((lb + ub) * ofFloat 0.5) ub
        (taylorShift one (rescale (ofFloat 0.5) (stripRootsAtStart lb r []).1))
      simp only [List.length_cons, List.length_append, pow_succ] at h₁ h₂ ⊢
      omega
    · rw [List.length_singleton]
      exact Nat.one_lt_two_pow (by omega)

/-- The work loop pops the entries `popped` from each entry of its stack in turn, the top
first, and does the work of `visit` on each, when the fuel gives a pass to each. -/
theorem isolateLoop_eq_foldl (q : Poly α) (fuel : Nat) (stack : List (StackEntry α))
    (roots : List α)
    (hfuel : (stack.flatMap fun e => popped e.depthLeft e.lb e.ub e.poly).length ≤ fuel) :
    isolateLoop q fuel stack roots =
      (stack.flatMap fun e => popped e.depthLeft e.lb e.ub e.poly).foldl (visit q) roots := by
  induction fuel generalizing stack roots with
  | zero =>
    rw [List.eq_nil_of_length_eq_zero (Nat.le_zero.mp hfuel)]
    simp [isolateLoop]
  | succ fuel ih =>
    rcases stack with _ | ⟨⟨lb, ub, r, d⟩, stack⟩
    · simp [isolateLoop]
    rcases hs : stripRootsAtStart lb r roots with ⟨s, roots'⟩
    have hs' : (stripRootsAtStart lb r []).1 = s := by rw [← stripRootsAtStart_fst lb r roots, hs]
    simp only [List.flatMap_cons, List.length_append] at hfuel ⊢
    rw [List.foldl_append]
    -- the cases of the loop: bound zero, bound one, and a larger bound
    rcases hb : descartesBound s with _ | _ | n
    · -- bound zero: the entry adds nothing more and does not split
      have hp := popped_of_lt_two d lb ub r (by rw [hs', hb]; omega)
      have hv : visit q roots ⟨lb, ub, r, d⟩ = roots' := by simp [visit, hs, hb]
      rw [hp, List.length_singleton] at hfuel
      rw [isolateLoop, hp, List.foldl_cons, List.foldl_nil, hv]
      simp only [hs, hb]
      exact ih stack roots' (by omega)
    · -- bound one: the entry adds what bisection finds and does not split
      have hp := popped_of_lt_two d lb ub r (by rw [hs', hb]; omega)
      rw [hp, List.length_singleton] at hfuel
      rw [isolateLoop, hp, List.foldl_cons, List.foldl_nil]
      cases hx : bisect q lb ub <;>
        simpa [hs, hb, visit, hs', StackEntry.splits, hx] using ih stack _ (by omega)
    · cases d with
      | zero =>
        have hp : popped 0 lb ub r = [⟨lb, ub, r, 0⟩] := rfl
        rw [hp, List.length_singleton] at hfuel
        rw [isolateLoop, hp, List.foldl_cons, List.foldl_nil]
        cases hx : bisect q lb ub <;>
          simpa [hs, hb, visit, hs', StackEntry.splits, hx] using ih stack _ (by omega)
      | succ d =>
        -- the entry splits: its two halves go on the stack, the left one on top
        let mid := (lb + ub) * ofFloat 0.5
        let left := rescale (ofFloat 0.5) s
        have hp : popped (d + 1) lb ub r = ⟨lb, ub, r, d + 1⟩ ::
            (popped d lb mid left ++ popped d mid ub (taylorShift one left)) := by
          simp [popped, hs', hb, mid, left]
        have hv : visit q roots ⟨lb, ub, r, d + 1⟩ = roots' := by
          simp [visit, hs, hs', hb, StackEntry.splits]
        rw [hp, List.length_cons, List.length_append] at hfuel
        rw [isolateLoop, hp, List.foldl_cons, hv, List.foldl_append]
        simp only [hs, hb]
        have := ih (⟨lb, mid, left, d⟩ :: ⟨mid, ub, taylorShift one left, d⟩ :: stack) roots'
        simp only [List.flatMap_cons, List.length_append, List.foldl_append] at this
        exact this (by omega)

/-- From one entry `d` halvings deep, the work loop given `2 ^ (d + 1)` passes computes what
`isolate` computes by recursion. -/
theorem isolateLoop_eq_isolate (q : Poly α) (d : Nat) (lb ub : α) (r : Poly α) (roots : List α)
    {fuel : Nat} (hfuel : 2 ^ (d + 1) ≤ fuel) :
    isolateLoop q fuel [⟨lb, ub, r, d⟩] roots = isolate q d lb ub r roots := by
  have hlen := length_popped_lt d lb ub r
  rw [isolateLoop_eq_foldl, isolate_eq_foldl] <;> simp only [List.flatMap_cons, List.flatMap_nil,
    List.append_nil]
  omega

end Stack

/-! ## Sorted lists of readings -/

section Sorted

variable {R : Type*} [LinearOrder R] {val : α → R}

/-- Two lists whose readings are sorted, separated by `m`, are sorted one after the other. -/
theorem pairwise_append_of_le {l₁ l₂ : List α} {m : R}
    (h₁ : l₁.Pairwise (val · ≤ val ·)) (h₂ : l₂.Pairwise (val · ≤ val ·))
    (hl : ∀ x ∈ l₁, val x ≤ m) (hr : ∀ y ∈ l₂, m ≤ val y) :
    (l₁ ++ l₂).Pairwise (val · ≤ val ·) :=
  List.pairwise_append.2 ⟨h₁, h₂, fun x hx y hy => (hl x hx).trans (hr y hy)⟩

theorem pairwise_of_forall_eq {l : List α} {a : α} (h : ∀ x ∈ l, x = a) :
    l.Pairwise (val · ≤ val ·) :=
  List.pairwise_of_forall_mem_list fun x hx y hy => by rw [h x hx, h y hy]

end Sorted

/-! ## Exact arithmetic -/

/-- The polynomial of an entry represents `Q` on the entry's interval: times a factor `w` with
no positive root (so `w ≠ 0` and its roots are `≤ 0`), it is `Q (lb + (ub - lb) x)`. -/
def StackEntry.Represents {R : Type*} [CommRing R] [LinearOrder R] (val : α → R) (Q : R[X])
    (e : StackEntry α) : Prop :=
  ∃ w : R[X], (∀ x : R, 0 < x → w.eval x ≠ 0) ∧
    denote val e.poly * w = Q.comp (C (val e.lb) + C (val e.ub - val e.lb) * X)

section Represents

variable {R : Type*} [CommRing R] [LinearOrder R] [IsStrictOrderedRing R] {val : α → R}
  {Q : R[X]}

/-- At a positive point, a represented polynomial has the roots of `Q` on the interval, with
their multiplicities. -/
theorem StackEntry.Represents.rootMultiplicity_eq {e : StackEntry α}
    (h : e.Represents val Q) {x : R} (hx : 0 < x) :
    rootMultiplicity x (denote val e.poly) =
      rootMultiplicity x (Q.comp (C (val e.lb) + C (val e.ub - val e.lb) * X)) := by
  obtain ⟨w, hw, heq⟩ := h
  have hwx : ¬w.IsRoot x := hw x hx
  rw [← heq]
  by_cases h0 : denote val e.poly = 0
  · simp [h0]
  · have hw0 : w ≠ 0 := fun hw0 => hwx (by simp [hw0])
    rw [rootMultiplicity_mul (mul_ne_zero h0 hw0), rootMultiplicity_eq_zero hwx, add_zero]

/-- Composing an entry's polynomial with `u + t x`, `u ≥ 0 < t`, represents `Q` on the
subinterval that the map cuts out: the factor is composed with the same map, which keeps
positive points positive. -/
theorem StackEntry.Represents.comp {e e' : StackEntry α} (h : e.Represents val Q) {u t : R}
    (hu : 0 ≤ u) (ht : 0 < t) (hpoly : denote val e'.poly = (denote val e.poly).comp (C u + C t * X))
    (hlb : val e'.lb = val e.lb + (val e.ub - val e.lb) * u)
    (hwidth : val e'.ub - val e'.lb = (val e.ub - val e.lb) * t) : e'.Represents val Q := by
  obtain ⟨w, hw, heq⟩ := h
  refine ⟨w.comp (C u + C t * X), fun x hx => ?_, ?_⟩
  · rw [eval_comp]
    apply hw
    simp only [eval_add, eval_C, eval_mul, eval_X]
    exact add_pos_of_nonneg_of_pos hu (mul_pos ht hx)
  · rw [hpoly, ← mul_comp, heq, comp_assoc, hwidth, hlb]
    congr 1
    simp only [add_comp, mul_comp, C_comp, X_comp, C_add, C_mul]
    ring

end Represents

section Exact

variable [Scalar α] {R : Type*} [Field R] [LinearOrder R] {val : α → R}
  (hv : Scalar.FieldReading val)
include hv

theorem val_mid (a b : α) : val ((a + b) * ofFloat 0.5) = (val a + val b) / 2 := by
  rw [hv.mul, hv.add, hv.half]
  ring

theorem val_bisectMid (a b : α) : val ((a + b) / (one + one)) = (val a + val b) / 2 := by
  rw [hv.div, hv.add, hv.add, hv.one]
  norm_num

theorem isZeroValue_iff (c : α) : isZeroValue c = true ↔ val c = 0 := by
  rw [isZeroValue, hv.eq, hv.zero]

/-- The midpoint of isolation lies between the ends. -/
theorem val_mid_mem [IsStrictOrderedRing R] {a b : α} (hle : val a ≤ val b) :
    val a ≤ val ((a + b) * ofFloat 0.5) ∧ val ((a + b) * ofFloat 0.5) ≤ val b := by
  rw [val_mid hv]
  constructor <;> linarith

/-- The midpoint of bisection lies between the ends. -/
theorem val_bisectMid_mem [IsStrictOrderedRing R] {a b : α} (hle : val a ≤ val b) :
    val a ≤ val ((a + b) / (one + one)) ∧ val ((a + b) / (one + one)) ≤ val b := by
  rw [val_bisectMid hv]
  constructor <;> linarith

/-- Stripping divides by a power of `x`. -/
theorem denote_stripRootsAtStart (lb : α) (r : Poly α) (roots : List α) :
    ∃ k, denote val r = X ^ k * denote val (stripRootsAtStart lb r roots).1 := by
  induction r generalizing roots with
  | nil => exact ⟨0, by simp [stripRootsAtStart]⟩
  | cons c rest ih =>
    cases rest with
    | nil => exact ⟨0, by simp [stripRootsAtStart]⟩
    | cons c' rest =>
      simp only [stripRootsAtStart]
      split
      · next hc =>
        obtain ⟨k, hk⟩ := ih (if (roots.getLast?.any (Scalar.eq · lb)) = true then roots
          else roots ++ [lb])
        refine ⟨k + 1, ?_⟩
        rw [denote_cons, (isZeroValue_iff hv c).1 hc, map_zero, zero_add, hk]
        ring
      · exact ⟨0, by simp⟩

/-- Bisection stays between the ends it starts from. -/
theorem bisectLoop_mem [IsStrictOrderedRing R] (q : Poly α) (fuel : Nat) {lb ub : α} (f : α)
    (hle : val lb ≤ val ub) :
    val lb ≤ val (bisectLoop q fuel lb ub f) ∧ val (bisectLoop q fuel lb ub f) ≤ val ub := by
  induction fuel generalizing lb ub f with
  | zero =>
    rw [bisectLoop]
    exact val_bisectMid_mem hv hle
  | succ fuel ih =>
    rw [bisectLoop]
    simp only
    split
    · exact val_bisectMid_mem hv hle
    · next hin =>
      -- the midpoint was checked to lie strictly inside
      simp only [Bool.not_eq_true', Bool.not_eq_false, Bool.and_eq_true] at hin
      have hlm := (hv.lt _ _).1 hin.1
      have hmu := (hv.lt _ _).1 hin.2
      split
      · exact ⟨hlm.le, hmu.le⟩
      · split
        · have := ih (horner q ((lb + ub) / (one + one))) hmu.le
          exact ⟨hlm.le.trans this.1, this.2⟩
        · have := ih f hlm.le
          exact ⟨this.1, this.2.trans hmu.le⟩

theorem bisect_mem [IsStrictOrderedRing R] {q : Poly α} {lb ub x : α} (hle : val lb ≤ val ub)
    (h : bisect q lb ub = some x) : val lb ≤ val x ∧ val x ≤ val ub := by
  unfold bisect at h
  simp only at h
  split at h
  · cases h
    exact ⟨le_rfl, hle⟩
  · split at h
    · cases h
    · cases h
      exact bisectLoop_mem hv q 256 _ hle

/-- What `visit` adds is sorted and lies in the entry's interval; an entry that splits adds
its lower end only. -/
theorem visit_pushes [IsStrictOrderedRing R] (q : Poly α) (roots : List α) (e : StackEntry α) (hle : val e.lb ≤ val e.ub) :
    ∃ new, visit q roots e = roots ++ new ∧ new.Pairwise (val · ≤ val ·) ∧
      (∀ x ∈ new, val e.lb ≤ val x ∧ val x ≤ val e.ub) ∧
      (e.splits = true → ∀ x ∈ new, x = e.lb) := by
  obtain ⟨new, hnew, hlb⟩ := stripRootsAtStart_snd e.lb e.poly roots
  have hsorted : new.Pairwise (val · ≤ val ·) := pairwise_of_forall_eq hlb
  have hrange : ∀ x ∈ new, val e.lb ≤ val x ∧ val x ≤ val e.ub := fun x hx => by
    rw [hlb x hx]
    exact ⟨le_rfl, hle⟩
  rcases hs : stripRootsAtStart e.lb e.poly roots with ⟨s, roots'⟩
  simp only [hs] at hnew
  unfold visit
  simp only [hs]
  split
  · exact ⟨new, hnew, hsorted, hrange, fun _ => hlb⟩
  · next hc =>
    have hns : e.splits = false := (by simpa using hc : _ ∧ _).2
    split
    · next x hx =>
      have hx' := bisect_mem hv hle hx
      refine ⟨new ++ [x], by simp [hnew], ?_, ?_, by simp [hns]⟩
      · exact pairwise_append_of_le hsorted (List.pairwise_singleton _ x)
          (fun y hy => (congrArg val (hlb y hy)).le)
          (fun y hy => by rw [List.mem_singleton.1 hy]; exact hx'.1)
      · intro y hy
        rcases List.mem_append.1 hy with hy | hy
        · exact hrange y hy
        · rw [List.mem_singleton.1 hy]
          exact hx'
    · exact ⟨new, hnew, hsorted, hrange, fun _ => hlb⟩

/-- Stripping keeps the representation: the power of `x` it divides by joins the factor. -/
theorem StackEntry.Represents.strip {Q : R[X]} {lb ub : α} {r : Poly α} {d k : Nat}
    (h : StackEntry.Represents val Q ⟨lb, ub, r, d⟩) :
    StackEntry.Represents val Q ⟨lb, ub, (stripRootsAtStart lb r []).1, k⟩ := by
  obtain ⟨j, hj⟩ := denote_stripRootsAtStart hv lb r []
  obtain ⟨w, hw, heq⟩ := h
  refine ⟨X ^ j * w, fun x hx => ?_, ?_⟩
  · rw [eval_mul, eval_pow, eval_X]
    exact mul_ne_zero (pow_ne_zero _ hx.ne') (hw x hx)
  · rw [← heq]
    dsimp only
    rw [hj]
    ring

/-- Both halves of a split entry represent `Q` on their intervals: the left half is the
stripped polynomial at `x / 2`, the right half the left one at `x + 1`. -/
theorem StackEntry.Represents.halves [IsStrictOrderedRing R] {Q : R[X]} {lb ub : α}
    {s : Poly α} {d k : Nat} (h : StackEntry.Represents val Q ⟨lb, ub, s, d⟩) :
    StackEntry.Represents val Q ⟨lb, (lb + ub) * ofFloat 0.5, rescale (ofFloat 0.5) s, k⟩ ∧
      StackEntry.Represents val Q
        ⟨(lb + ub) * ofFloat 0.5, ub, taylorShift one (rescale (ofFloat 0.5) s), k⟩ := by
  have hmid := val_mid hv lb ub
  have hleft : StackEntry.Represents val Q
      ⟨lb, (lb + ub) * ofFloat 0.5, rescale (ofFloat 0.5) s, k⟩ := by
    refine h.comp (u := 0) (t := 1 / 2) le_rfl (by norm_num) ?_ ?_ ?_
    · simp [denote_rescale hv.toRingReading, hv.half]
    · simp
    · dsimp only
      rw [hmid]
      ring
  refine ⟨hleft, hleft.comp (u := 1) (t := 1) zero_le_one one_pos ?_ ?_ ?_⟩
  · simp [denote_taylorShift hv.toRingReading, hv.one, add_comm]
  · dsimp only
    ring
  · dsimp only
    rw [hmid]
    ring

/-- An entry popped from `(lb, ub, r, d)` lies in `[lb, ub]`, and `k` halvings deep it spans
`2⁻ᵏ` of it. -/
theorem mem_popped [IsStrictOrderedRing R] {d : Nat} {lb ub : α} {r : Poly α}
    (hle : val lb ≤ val ub) {e : StackEntry α} (he : e ∈ popped d lb ub r) :
    val lb ≤ val e.lb ∧ val e.ub ≤ val ub ∧ e.depthLeft ≤ d ∧
      val e.ub - val e.lb = (val ub - val lb) * (1 / 2) ^ (d - e.depthLeft) := by
  induction d generalizing lb ub r with
  | zero =>
    rw [popped, List.mem_singleton] at he
    subst he
    simp
  | succ d ih =>
    simp only [popped] at he
    split at he
    · obtain ⟨hlm, hmu⟩ := val_mid_mem hv hle
      rcases List.mem_cons.1 he with rfl | he
      · simp
      -- a half is `k` halvings deep in itself and one more in the whole
      rcases List.mem_append.1 he with he | he
      · obtain ⟨h₁, h₂, h₃, h₄⟩ := ih hlm he
        refine ⟨h₁, h₂.trans hmu, by omega, ?_⟩
        rw [h₄, val_mid hv, Nat.succ_sub h₃, pow_succ]
        ring
      · obtain ⟨h₁, h₂, h₃, h₄⟩ := ih hmu he
        refine ⟨hlm.trans h₁, h₂, by omega, ?_⟩
        rw [h₄, val_mid hv, Nat.succ_sub h₃, pow_succ]
        ring
    · rw [List.mem_singleton] at he
      subst he
      simp

/-- Every entry popped from an entry that represents `Q` represents `Q`. -/
theorem represents_of_mem_popped [IsStrictOrderedRing R] {Q : R[X]} {d : Nat} {lb ub : α}
    {r : Poly α} (h : StackEntry.Represents val Q ⟨lb, ub, r, d⟩) {e : StackEntry α}
    (he : e ∈ popped d lb ub r) : e.Represents val Q := by
  induction d generalizing lb ub r with
  | zero =>
    rw [popped, List.mem_singleton] at he
    exact he ▸ h
  | succ d ih =>
    simp only [popped] at he
    split at he
    · have hhalves := (h.strip hv (k := d)).halves hv (k := d)
      rcases List.mem_cons.1 he with rfl | he
      · exact h
      rcases List.mem_append.1 he with he | he
      · exact ih hhalves.1 he
      · exact ih hhalves.2 he
    · rw [List.mem_singleton] at he
      exact he ▸ h

/-- An entry popped later lies inside an earlier one that splits, or to its right. -/
theorem pairwise_popped [IsStrictOrderedRing R] {d : Nat} {lb ub : α} {r : Poly α}
    (hle : val lb ≤ val ub) :
    (popped d lb ub r).Pairwise fun e e' =>
      (e.splits = true ∧ val e.lb ≤ val e'.lb ∧ val e'.ub ≤ val e.ub) ∨ val e.ub ≤ val e'.lb := by
  induction d generalizing lb ub r with
  | zero => exact List.pairwise_singleton _ _
  | succ d ih =>
    simp only [popped]
    split
    · next hb =>
      obtain ⟨hlm, hmu⟩ := val_mid_mem hv hle
      refine List.pairwise_cons.2 ⟨fun e' he' => .inl ⟨splits_iff.2 ⟨hb, d.succ_pos⟩, ?_⟩,
        List.pairwise_append.2 ⟨ih hlm, ih hmu, fun e he e' he' => .inr ?_⟩⟩
      · rcases List.mem_append.1 he' with he' | he'
        · obtain ⟨h₁, h₂, -⟩ := mem_popped hv hlm he'
          exact ⟨h₁, h₂.trans hmu⟩
        · obtain ⟨h₁, h₂, -⟩ := mem_popped hv hmu he'
          exact ⟨hlm.trans h₁, h₂⟩
      · -- the left half's entries end before the midpoint, the right half's start after it
        exact (mem_popped hv hlm he).2.1.trans (mem_popped hv hmu he').1
    · exact List.pairwise_singleton _ _

/-- The entries that do not split, those whose intervals are final, meet at most in an
endpoint and are popped from left to right. -/
theorem pairwise_popped_final [IsStrictOrderedRing R] {d : Nat} {lb ub : α} {r : Poly α}
    (hle : val lb ≤ val ub) :
    ((popped d lb ub r).filter fun e => !e.splits).Pairwise fun e e' => val e.ub ≤ val e'.lb :=
  ((pairwise_popped hv hle).filter _).imp_of_mem fun he _ hr => hr.resolve_left fun hs => by
    simpa [hs.1] using (List.mem_filter.1 he).2

/-- The roots that the entries popped from `(lb, ub, r, d)` add are sorted and lie in
`[lb, ub]`. -/
theorem foldl_visit_popped [IsStrictOrderedRing R] (q : Poly α) {d : Nat} {lb ub : α}
    {r : Poly α} (hle : val lb ≤ val ub) (roots : List α) :
    ∃ new, (popped d lb ub r).foldl (visit q) roots = roots ++ new ∧
      new.Pairwise (val · ≤ val ·) ∧ ∀ x ∈ new, val lb ≤ val x ∧ val x ≤ val ub := by
  induction d generalizing lb ub r roots with
  | zero =>
    obtain ⟨new, hnew, hs, hr, -⟩ := visit_pushes hv q roots ⟨lb, ub, r, 0⟩ hle
    exact ⟨new, by simpa [popped] using hnew, hs, hr⟩
  | succ d ih =>
    simp only [popped]
    split
    · next hb =>
      obtain ⟨hlm, hmu⟩ := val_mid_mem hv hle
      -- the entry adds its lower end only, then its halves add theirs, left before right
      obtain ⟨n₀, h₀, -, -, hlb₀⟩ := visit_pushes hv q roots ⟨lb, ub, r, d + 1⟩ hle
      have hlb₀ := hlb₀ (splits_iff.2 ⟨hb, d.succ_pos⟩)
      obtain ⟨n₁, h₁, s₁, r₁⟩ :=
        ih (r := rescale (ofFloat 0.5) (stripRootsAtStart lb r []).1) hlm (roots ++ n₀)
      obtain ⟨n₂, h₂, s₂, r₂⟩ :=
        ih (r := taylorShift one (rescale (ofFloat 0.5) (stripRootsAtStart lb r []).1)) hmu
          (roots ++ n₀ ++ n₁)
      refine ⟨n₀ ++ n₁ ++ n₂, by rw [List.foldl_cons, List.foldl_append, h₀, h₁, h₂]; simp, ?_, ?_⟩
      · refine pairwise_append_of_le (pairwise_append_of_le (pairwise_of_forall_eq hlb₀) s₁
          (fun x hx => (congrArg val (hlb₀ x hx)).le) (fun x hx => (r₁ x hx).1)) s₂ ?_
          (fun x hx => (r₂ x hx).1)
        intro x hx
        rcases List.mem_append.1 hx with hx | hx
        · rw [hlb₀ x hx]
          exact hlm
        · exact (r₁ x hx).2
      · intro x hx
        simp only [List.mem_append] at hx
        rcases hx with (hx | hx) | hx
        · rw [hlb₀ x hx]
          exact ⟨le_rfl, hle⟩
        · exact ⟨(r₁ x hx).1, (r₁ x hx).2.trans hmu⟩
        · exact ⟨hlm.trans (r₂ x hx).1, (r₂ x hx).2⟩
    · obtain ⟨new, hnew, hs, hr, -⟩ := visit_pushes hv q roots ⟨lb, ub, r, d + 1⟩ hle
      exact ⟨new, by simpa using hnew, hs, hr⟩

/-- `rootsIn p h` is a non-decreasing list of values in `[0, h)`. -/
theorem rootsIn_sorted [IsStrictOrderedRing R] (p : Poly α) (h : α) :
    ((rootsIn p h).map val).Pairwise (· ≤ ·) ∧ ∀ x ∈ rootsIn p h, 0 ≤ val x ∧ val x < val h := by
  unfold rootsIn
  dsimp only
  split
  · simp
  · next hg =>
    have hh : 0 < val h := by
      have : Scalar.lt zero h = true := by simp_all
      rwa [hv.lt, hv.zero] at this
    have h01 : val (zero : α) ≤ val one := by
      rw [hv.zero, hv.one]
      exact zero_le_one
    obtain ⟨new, hnew, hsorted, hrange⟩ := foldl_visit_popped hv
      (rescale h (p.reverse.dropWhile isZeroValue).reverse) (d := 48)
      (r := rescale h (p.reverse.dropWhile isZeroValue).reverse) h01 []
    rw [isolateLoop_eq_isolate _ 48 _ _ _ _ (@Nat.pow_eq 2 49).ge, isolate_eq_foldl, hnew,
      List.nil_append]
    constructor
    · -- scaling by `h > 0` keeps the order, and filtering keeps a sorted list sorted
      rw [List.pairwise_map]
      refine List.Pairwise.filter _ ?_
      rw [List.pairwise_map]
      exact hsorted.imp fun hxy => by
        rw [hv.mul, hv.mul]
        exact mul_le_mul_of_nonneg_right hxy hh.le
    · intro x hx
      rw [List.mem_filter, List.mem_map] at hx
      obtain ⟨⟨y, hy, rfl⟩, hlt⟩ := hx
      refine ⟨?_, (hv.lt _ _).1 hlt⟩
      rw [hv.mul]
      have hy0 := (hrange y hy).1
      rw [hv.zero] at hy0
      exact mul_nonneg hy0 hh.le

/-- Root isolation in exact arithmetic. With `q` the input, its zero top coefficients dropped,
rescaled by `h`: `isolate` is the fold of `visit` over the entries `popped` from the work stack
started at `(0, 1, q, 48)`. Every popped entry is at most 48 halvings deep, spans `2⁻ᵏ` of the
unit interval `k` halvings deep, and represents `q` on its interval, so that at every positive
point its polynomial has the roots of `q (lb + (ub - lb) x)` with their multiplicities. An
entry popped later lies inside an earlier one that splits, or to its right, so the entries
that do not split meet at most in an endpoint and come left to right; what is added
while an entry is visited lies in its interval; and `rootsIn p h` is a non-decreasing list of
values in `[0, h)`. -/
theorem isolation_invariants [IsStrictOrderedRing R] (p : Poly α) (h : α) :
    let q := rescale h (p.reverse.dropWhile isZeroValue).reverse
    isolate q 48 zero one q [] = (popped 48 zero one q).foldl (visit q) [] ∧
    (∀ e ∈ popped 48 zero one q, e.depthLeft ≤ 48 ∧ 0 ≤ val e.lb ∧ val e.ub ≤ 1 ∧
      val e.ub - val e.lb = (1 / 2) ^ (48 - e.depthLeft) ∧ e.Represents val (denote val q) ∧
      ∀ x, 0 < x → rootMultiplicity x (denote val e.poly) =
        rootMultiplicity x ((denote val q).comp (C (val e.lb) + C (val e.ub - val e.lb) * X))) ∧
    (popped 48 zero one q).Pairwise (fun e e' =>
      (e.splits = true ∧ val e.lb ≤ val e'.lb ∧ val e'.ub ≤ val e.ub) ∨ val e.ub ≤ val e'.lb) ∧
    ((popped 48 zero one q).filter fun e => !e.splits).Pairwise
      (fun e e' => val e.ub ≤ val e'.lb) ∧
    (∀ e ∈ popped 48 zero one q, ∀ roots, ∃ new, visit q roots e = roots ++ new ∧
      ∀ x ∈ new, val e.lb ≤ val x ∧ val x ≤ val e.ub) ∧
    ((rootsIn p h).map val).Pairwise (· ≤ ·) ∧ ∀ x ∈ rootsIn p h, 0 ≤ val x ∧ val x < val h := by
  intro q
  have h01 : val (zero : α) ≤ val one := by
    rw [hv.zero, hv.one]
    exact zero_le_one
  -- the first entry represents `q` itself, with the factor one
  have hstart : StackEntry.Represents val (denote val q) ⟨zero, one, q, 48⟩ :=
    ⟨1, fun x _ => by rw [eval_one]; exact one_ne_zero, by simp [hv.zero, hv.one]⟩
  refine ⟨isolate_eq_foldl q 48 zero one q [], fun e he => ?_, pairwise_popped hv h01,
    pairwise_popped_final hv h01, fun e he roots => ?_, rootsIn_sorted hv p h⟩
  · obtain ⟨h₁, h₂, h₃, h₄⟩ := mem_popped hv h01 he
    have hrep := represents_of_mem_popped hv hstart he
    simp only [hv.zero, hv.one, sub_zero, one_mul] at h₁ h₂ h₄
    exact ⟨h₃, h₁, h₂, h₄, hrep, fun x hx => hrep.rootMultiplicity_eq hx⟩
  · have hwidth : 0 ≤ val e.ub - val e.lb := by
      rw [(mem_popped hv h01 he).2.2.2]
      positivity
    obtain ⟨new, hnew, -, hrange, -⟩ := visit_pushes hv q roots e (by linarith)
    exact ⟨new, hnew, hrange⟩

end Exact

/-- Over the rationals, for `3/16 - x + x²`, with roots `1/4` and `3/4`, on `[0, 1)`. -/
theorem isolation_invariants_rat :
    Scalar.FieldReading (id : ℚ → ℚ) ∧
    let q := rescale (1 : ℚ) (([3 / 16, -1, 1] : Poly ℚ).reverse.dropWhile isZeroValue).reverse
    isolate q 48 zero one q [] = (popped 48 zero one q).foldl (visit q) [] ∧
    (∀ e ∈ popped 48 zero one q, e.depthLeft ≤ 48 ∧ 0 ≤ id e.lb ∧ id e.ub ≤ 1 ∧
      id e.ub - id e.lb = (1 / 2) ^ (48 - e.depthLeft) ∧ e.Represents id (denote id q) ∧
      ∀ x, 0 < x → rootMultiplicity x (denote id e.poly) =
        rootMultiplicity x ((denote id q).comp (C (id e.lb) + C (id e.ub - id e.lb) * X))) ∧
    (popped 48 zero one q).Pairwise (fun e e' =>
      (e.splits = true ∧ id e.lb ≤ id e'.lb ∧ id e'.ub ≤ id e.ub) ∨ id e.ub ≤ id e'.lb) ∧
    ((popped 48 zero one q).filter fun e => !e.splits).Pairwise
      (fun e e' => id e.ub ≤ id e'.lb) ∧
    (∀ e ∈ popped 48 zero one q, ∀ roots, ∃ new, visit q roots e = roots ++ new ∧
      ∀ x ∈ new, id e.lb ≤ id x ∧ id x ≤ id e.ub) ∧
    ((rootsIn ([3 / 16, -1, 1] : Poly ℚ) 1).map id).Pairwise (· ≤ ·) ∧
      ∀ x ∈ rootsIn ([3 / 16, -1, 1] : Poly ℚ) 1, 0 ≤ id x ∧ id x < id (1 : ℚ) :=
  ⟨Scalar.fieldReading_rat, isolation_invariants Scalar.fieldReading_rat [3 / 16, -1, 1] 1⟩

end Poly

end TaylorOde
