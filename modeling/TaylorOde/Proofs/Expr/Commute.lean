import TaylorOde.Proofs.Expr.Order
import TaylorOde.Proofs.Expr.Binary64
import TaylorOde.Expr.Canonical
/-!
# Operand order in canonical products and sums

`mul` folds two literals, applies the zero, one and minus-one rules, and otherwise puts its
factors in canonical order; `sum` sorts its non-literal terms and folds its literals into
one. The order of the operands of a product never shows in the result (`mul_comm`): the
folds commute, no two factors can both be one or both be minus one without folding, and
factors the order ties are structurally equal.

A sum of two terms forgets their order in its non-literal terms, which are sorted
(`mergeSort_argsEq`). Its literals are another matter. When their total is NaN, `sum` keeps
them unfolded in the order met, so `add inf (-inf)` and `add (-inf) inf` differ
(`add_inf_neg_inf`). When one operand brings no literal, or each brings one and their total is
a number, the order does not show (`add_comm_of_literalTail`, `literalTail_comm`): a
sum of two floats started from zero does not depend on their order.

Main statement: `mul_add_commute`.
-/

namespace TaylorOde

namespace Expr

open Binary64

/-- The literals an expression brings to a sum: itself if a literal, the literals among its
terms if a sum, none otherwise. -/
def sumLiterals (e : Expr) : List Literal := (sumParts [e]).2

theorem sumParts_nil : sumParts [] = ([], []) := by
  rw [sumParts]

theorem sumParts_cons (e : Expr) (rest : List Expr) :
    sumParts (e :: rest) =
      ((sumParts [e]).1 ++ (sumParts rest).1, (sumParts [e]).2 ++ (sumParts rest).2) := by
  conv_lhs => rw [sumParts]
  conv_rhs => rw [sumParts]
  simp only [sumParts_nil]
  split <;> simp

/-- The literal terms a sum ends with, given the literals it collected: none, the folded
total unless it is a zero, or, when the total is NaN, the literals as they came. -/
def literalTail (numbers : List Literal) : List Expr :=
  if numbers.isEmpty then []
  else
    match fold? (numbers.foldl (fun acc n => acc + n.value) 0.0)
        (numbers.foldl (fun k n => k.common n.kind) .binary32) with
    | some c => if c.isZero then [] else [c]
    | none => numbers.map .num

/-- The expression of a list of sum terms: zero, the term itself, or a sum node. -/
def ofTerms (t : NodeTag) : List Expr → Expr
  | [] => zero
  | [x] => x
  | terms => node t .sum terms

/-- The canonical sum is the sorted non-literal terms followed by the literal tail. -/
theorem sum_eq (t : NodeTag) (args : List Expr) :
    sum t args = ofTerms t (((sumParts args).1.mergeSort SortedBefore) ++
      literalTail (sumParts args).2) := by
  unfold sum literalTail SortedBefore
  rcases sumParts args with ⟨terms, numbers⟩
  dsimp only
  generalize terms.mergeSort _ = sorted
  by_cases hn : numbers.isEmpty
  · simp only [hn, if_true, List.append_nil]
    split <;> simp_all [ofTerms]
  · simp only [hn, Bool.false_eq_true, if_false]
    rcases hf : fold? (numbers.foldl (fun acc n => acc + n.value) 0.0)
      (numbers.foldl (fun k n => k.common n.kind) .binary32) with _ | c
    · split <;> simp_all [ofTerms]
    · by_cases hz : c.isZero
      · simp only [hf, hz, if_true, List.append_nil]
        split <;> simp_all [ofTerms]
      · simp only [hf, hz, Bool.false_eq_true, if_false]
        split <;> simp_all [ofTerms]

/-- Structurally equal term lists give structurally equal sums, whatever the tags. -/
theorem ofTerms_congr (t t' : NodeTag) {xs ys : List Expr} (h : ArgsEq xs ys) :
    (ofTerms t xs).beq (ofTerms t' ys) = true := by
  cases h with
  | nil => exact beq_self _
  | cons hxy h' =>
    cases h' with
    | nil => exact hxy
    | cons hxy' h'' => exact node_beq_node t t' .sum (.cons hxy (.cons hxy' h''))

theorem sumParts_pair (a b : Expr) :
    sumParts [a, b] = ((sumParts [a]).1 ++ (sumParts [b]).1, sumLiterals a ++ sumLiterals b) := by
  rw [sumParts_cons, sumParts_cons b [], sumParts_nil]
  simp [sumLiterals]

/-- A sum of two terms does not depend on their order as soon as the literals they bring give
the same tail in both orders: the other terms are sorted, and sorting forgets their order. -/
theorem add_comm_of_literalTail (t : NodeTag) (a b : Expr)
    (h : literalTail (sumLiterals a ++ sumLiterals b) =
      literalTail (sumLiterals b ++ sumLiterals a)) :
    (add t a b).beq (add t b a) = true := by
  unfold add
  rw [sum_eq, sum_eq, sumParts_pair, sumParts_pair, h]
  refine ofTerms_congr t t (List.rel_append (mergeSort_argsEq List.perm_append_comm)
    (ArgsEq.refl _))

theorem FloatKind.common_right_comm (k a b : FloatKind) :
    (k.common a).common b = (k.common b).common a := by
  cases k <;> cases a <;> cases b <;> rfl

/-- A value that is not NaN folds to a literal. -/
theorem fold?_of_not_isNaN (v : Float) (k : FloatKind) (h : v.isNaN = false) :
    ∃ c, fold? v k = some c := by
  simp only [fold?, Literal.fold?, Literal.ofKind, h, Bool.false_eq_true, if_false,
    Option.map_some]
  exact ⟨_, rfl⟩

/-- The literals of two terms give the same tail in both orders when one term brings none,
or each brings one and they add up to a number. -/
theorem literalTail_comm {xs ys : List Literal}
    (h : xs = [] ∨ ys = [] ∨
      ∃ x y, xs = [x] ∧ ys = [y] ∧ (0.0 + x.value + y.value).isNaN = false) :
    literalTail (xs ++ ys) = literalTail (ys ++ xs) := by
  rcases h with rfl | rfl | ⟨x, y, rfl, rfl, hnan⟩
  · simp
  · simp
  · -- the two folds agree, and neither is NaN
    obtain ⟨c, hc⟩ := fold?_of_not_isNaN _ ((FloatKind.binary32.common x.kind).common y.kind) hnan
    have hc' : fold? (0.0 + y.value + x.value) ((FloatKind.binary32.common y.kind).common x.kind) =
        some c := by
      rw [← zero_add_add_comm, ← FloatKind.common_right_comm, hc]
    simp [literalTail, hc, hc']

/-! ## Products -/

/-- The literal a product of two literals folds to, if any. -/
def foldProduct? : Expr → Expr → Option Expr
  | .num x, .num y => fold? (x.value * y.value) (x.kind.common y.kind)
  | _, _ => none

/-- What `mul` does when its factors do not fold: the zero, one and minus-one rules, then the
factors in canonical order. -/
def productRules (t : NodeTag) (a b : Expr) : Expr :=
  if a.isZero || b.isZero then zero
  else if a.isOne then b
  else if b.isOne then a
  else if a.isValue (-1.0) then neg t b
  else if b.isValue (-1.0) then neg t a
  else if b.cmp a == .lt then node t .mul [b, a]
  else node t .mul [a, b]

theorem mul_eq (t : NodeTag) (a b : Expr) :
    mul t a b = match foldProduct? a b with
      | some c => c
      | none => productRules t a b := by
  unfold mul foldProduct? productRules
  cases a <;> cases b <;> rfl

theorem FloatKind.common_comm (a b : FloatKind) : a.common b = b.common a := by
  cases a <;> cases b <;> rfl

theorem foldProduct?_comm (a b : Expr) : foldProduct? a b = foldProduct? b a := by
  cases a <;> cases b <;> simp [foldProduct?, float_mul_comm, FloatKind.common_comm]

/-- Two literals equal to one fold their product: it is one. -/
theorem foldProduct?_of_isOne {a b : Expr} (ha : a.isOne = true) (hb : b.isOne = true) :
    foldProduct? a b ≠ none := by
  cases a <;> cases b <;> simp only [isOne, Bool.false_eq_true] at ha hb
  rename_i x y
  have hprod : x.value * y.value = 1.0 * 1.0 :=
    mul_eq_of_beq ⟨_, _, _, _, unpack_one⟩ ⟨_, _, _, _, unpack_one⟩ ha hb
  obtain ⟨c, hc⟩ := fold?_of_not_isNaN (x.value * y.value) (x.kind.common y.kind)
    (by rw [hprod]; decide)
  simp [foldProduct?, hc]

/-- Two literals equal to minus one fold their product: it is one. -/
theorem foldProduct?_of_isValue_neg_one {a b : Expr} (ha : a.isValue (-1.0) = true)
    (hb : b.isValue (-1.0) = true) : foldProduct? a b ≠ none := by
  cases a <;> cases b <;> simp only [isValue, Bool.false_eq_true] at ha hb
  rename_i x y
  have hprod : x.value * y.value = -1.0 * -1.0 :=
    mul_eq_of_beq ⟨_, _, _, _, unpack_neg_one⟩ ⟨_, _, _, _, unpack_neg_one⟩ ha hb
  obtain ⟨c, hc⟩ := fold?_of_not_isNaN (x.value * y.value) (x.kind.common y.kind)
    (by rw [hprod]; decide)
  simp [foldProduct?, hc]

/-- The rules of a product give the same expression in both orders of the factors, unless
both factors are one or both are minus one. -/
theorem productRules_comm (t : NodeTag) (a b : Expr) (hone : ¬(a.isOne = true ∧ b.isOne = true))
    (hneg : ¬(a.isValue (-1.0) = true ∧ b.isValue (-1.0) = true)) :
    (productRules t a b).beq (productRules t b a) = true := by
  unfold productRules
  rw [Bool.or_comm b.isZero]
  by_cases hz : (a.isZero || b.isZero) = true
  · simp only [hz, if_true]
    exact beq_self _
  simp only [hz, Bool.false_eq_true, if_false]
  -- a factor one or minus one: at most one of the two is
  by_cases ha : a.isOne = true
  · have hb : b.isOne = false := by simpa [ha] using hone
    simp only [ha, hb, if_true, Bool.false_eq_true, if_false]
    exact beq_self _
  by_cases hb : b.isOne = true
  · simp only [ha, hb, if_true, Bool.false_eq_true, if_false]
    exact beq_self _
  simp only [ha, hb, Bool.false_eq_true, if_false]
  by_cases ham : a.isValue (-1.0) = true
  · have hbm : b.isValue (-1.0) = false := by simpa [ham] using hneg
    simp only [ham, hbm, if_true, Bool.false_eq_true, if_false]
    exact beq_self _
  by_cases hbm : b.isValue (-1.0) = true
  · simp only [ham, hbm, if_true, Bool.false_eq_true, if_false]
    exact beq_self _
  simp only [ham, hbm, Bool.false_eq_true, if_false]
  -- the factors in canonical order: equal ones are structurally equal
  rw [cmp_swap a b]
  cases hc : a.cmp b
  · exact beq_self _
  · have hab := (cmp_eq_iff_beq a b).1 hc
    exact node_beq_node t t .mul (.cons hab (.cons (beq_symm a b hab) .nil))
  · exact beq_self _

/-- The canonical product does not depend on the order of its factors. -/
theorem mul_comm (t : NodeTag) (a b : Expr) : (mul t a b).beq (mul t b a) = true := by
  rw [mul_eq, mul_eq, foldProduct?_comm b a]
  rcases hf : foldProduct? a b with _ | c
  · exact productRules_comm t a b (fun ⟨ha, hb⟩ => foldProduct?_of_isOne ha hb hf)
      (fun ⟨ha, hb⟩ => foldProduct?_of_isValue_neg_one ha hb hf)
  · exact beq_self c

/-! ## Both operations -/

/-- The canonical product of two expressions does not depend on their order; the canonical
sum of two expressions does not either, unless both bring literals and these do not add up to
a number. -/
theorem mul_add_commute :
    (∀ t a b, (mul t a b).beq (mul t b a) = true) ∧
    (∀ t a b, a.sumLiterals = [] ∨ b.sumLiterals = [] ∨
        (∃ x y, a.sumLiterals = [x] ∧ b.sumLiterals = [y] ∧
          (0.0 + x.value + y.value).isNaN = false) →
      (add t a b).beq (add t b a) = true) :=
  ⟨mul_comm, fun t a b h => add_comm_of_literalTail t a b (literalTail_comm h)⟩

/-- `x + 1` and `2` add up to the same sum in both orders. -/
theorem add_var_one_two_commute :
    (∃ x y, (add .anon (var "x") (lit 1.0)).sumLiterals = [x] ∧ (lit 2.0).sumLiterals = [y] ∧
      (0.0 + x.value + y.value).isNaN = false) ∧
    (add .anon (add .anon (var "x") (lit 1.0)) (lit 2.0)).beq
      (add .anon (lit 2.0) (add .anon (var "x") (lit 1.0))) = true := by
  have h : ∃ x y, (add .anon (var "x") (lit 1.0)).sumLiterals = [x] ∧
      (lit 2.0).sumLiterals = [y] ∧ (0.0 + x.value + y.value).isNaN = false :=
    ⟨Literal.ofFloat 1.0, Literal.ofFloat 2.0, by decide +kernel, by decide +kernel,
      by decide +kernel⟩
  exact ⟨h, mul_add_commute.2 .anon _ _ (.inr (.inr h))⟩

/-- Infinity and minus infinity add up to NaN, so their sum keeps them in the order given:
the two orders give different sums. -/
theorem add_inf_neg_inf :
    (add .anon (lit (1.0 / 0.0)) (lit (-(1.0 / 0.0)))).beq
      (add .anon (lit (-(1.0 / 0.0))) (lit (1.0 / 0.0))) = false := by
  decide +kernel

end Expr

end TaylorOde
