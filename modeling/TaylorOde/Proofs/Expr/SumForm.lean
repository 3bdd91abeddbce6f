import TaylorOde.Proofs.Expr.Commute
import Mathlib
/-!
# The form of canonical sums

`sum` reads its arguments through nested sums, puts the terms that are not literals in
canonical order and folds the literals into one trailing literal of their widest format. It
drops that literal when it is a zero and keeps the literals as they came when their total is
NaN. `SumNodeArgs` states the arguments of the sum node it builds, and every sum node `sum`
returns has them (`sum_node_args`). A lone term is returned as it is, and a lone literal is
never the negative zero (`sum_ne_neg_zero`).

What a canonical sum is depends on its arguments only through the terms read through nested
sums, as a multiset up to structural equality, and the literals in the order met
(`sum_congr`). So rearranging the arguments gives an equal sum as long as the literals keep
their order (`sum_perm`).

Main statement: `canonical_sum_form`.
-/

namespace TaylorOde

namespace Expr

/-! ## Reading through nested sums -/

theorem sumParts_num (n : Literal) : sumParts [.num n] = ([], [n]) := by
  rw [sumParts, sumParts_nil]

theorem sumParts_sum (t : NodeTag) (inner : List Expr) (h : UInt64) :
    sumParts [.func t .sum inner h] = sumParts inner := by
  rw [sumParts, sumParts_nil]
  simp

/-- A term that is neither a literal nor a sum is read as itself. -/
theorem sumParts_plain {e : Expr} (hnum : e.literal? = none) (hsum : e.isOp .sum = false) :
    sumParts [e] = ([e], []) := by
  rw [sumParts, sumParts_nil]
  rcases e with _ | _ | _ | _ | ⟨t, op, args, h⟩
  · simp [literal?] at hnum
  all_goals try rfl
  cases op <;> first | rfl | simp [isOp] at hsum

/-- A term that is neither a literal nor a sum node, as the recursion of `sumParts` sees it. -/
theorem plain_of_not_num_not_sum {e : Expr} (hnum : ∀ n, e = .num n → False)
    (hsum : ∀ t inner h, e = .func t .sum inner h → False) :
    e.literal? = none ∧ e.isOp .sum = false := by
  constructor
  · cases e <;> simp_all [literal?]
  · rcases e with _ | _ | _ | _ | ⟨t, op, args, h⟩ <;> try rfl
    cases op <;> simp_all [isOp]

/-- The terms of a list of arguments are the terms of each argument in turn. -/
theorem sumParts_fst_eq_flatMap (args : List Expr) :
    (sumParts args).1 = args.flatMap fun e => (sumParts [e]).1 := by
  induction args with
  | nil => rw [sumParts_nil]; rfl
  | cons e rest ih => rw [sumParts_cons, List.flatMap_cons, ih]

/-- The literals of a list of arguments are the literals each argument brings, in turn. -/
theorem sumParts_snd_eq_flatMap (args : List Expr) :
    (sumParts args).2 = args.flatMap sumLiterals := by
  induction args with
  | nil => rw [sumParts_nil]; rfl
  | cons e rest ih => rw [sumParts_cons, List.flatMap_cons, ih, sumLiterals]

/-- Rearranging the arguments rearranges their terms. -/
theorem sumParts_fst_perm {args args' : List Expr} (h : args.Perm args') :
    (sumParts args).1.Perm (sumParts args').1 := by
  rw [sumParts_fst_eq_flatMap, sumParts_fst_eq_flatMap]
  exact h.flatMap_right _

/-- The terms read through nested sums are neither literals nor sums. -/
theorem plain_of_mem_sumParts {args : List Expr} {x : Expr} (hx : x ∈ (sumParts args).1) :
    x.literal? = none ∧ x.isOp .sum = false := by
  induction args using sumParts.induct with
  | case1 => simp [sumParts_nil] at hx
  | case2 rest _ _ _ n ih =>
    rw [sumParts_cons, sumParts_num, List.nil_append] at hx
    exact ih hx
  | case3 rest _ _ _ t inner h _ _ _ _ ihrest ihinner =>
    rw [sumParts_cons, sumParts_sum, List.mem_append] at hx
    exact hx.elim ihinner ihrest
  | case4 rest _ _ _ other hnum hsum ih =>
    obtain ⟨hnum', hsum'⟩ := plain_of_not_num_not_sum hnum hsum
    rw [sumParts_cons, sumParts_plain hnum' hsum', List.singleton_append, List.mem_cons] at hx
    rcases hx with rfl | hx
    · exact ⟨hnum', hsum'⟩
    · exact ih hx

/-! ## The literal tail -/

/-- The total of the literals of a sum, added from zero in the order met. -/
def literalTotal (ns : List Literal) : Float := ns.foldl (fun acc n => acc + n.value) 0.0

/-- The format the literals of a sum fold in: the widest of theirs. -/
def literalKind (ns : List Literal) : FloatKind := ns.foldl (fun k n => k.common n.kind) .binary32

/-- The literal terms a canonical sum may end with, given the literals `ns` it collected:
nothing when there are none or they fold to a zero; their total, folded in their widest
format, when it is a number other than zero; all of them as they came when it is NaN. -/
inductive TailOf (ns : List Literal) : List Expr → Prop
  | dropped (h : ns = [] ∨ ∃ c, Literal.fold? (literalTotal ns) (literalKind ns) = some c ∧
      c.isZero = true) : TailOf ns []
  | folded {c : Literal} (hne : ns ≠ [])
      (h : Literal.fold? (literalTotal ns) (literalKind ns) = some c) (hz : c.isZero = false) :
      TailOf ns [.num c]
  | unfolded (hne : ns ≠ []) (h : (literalTotal ns).isNaN = true) : TailOf ns (ns.map .num)

/-- Only NaN folds to no literal. -/
theorem fold?_eq_none_iff {v : Float} {k : FloatKind} :
    Literal.fold? v k = none ↔ v.isNaN = true := by
  unfold Literal.fold? Literal.ofKind
  cases v.isNaN <;> simp

/-- `literalTail` ends a sum as `TailOf` says. -/
theorem tailOf_literalTail (ns : List Literal) : TailOf ns (literalTail ns) := by
  by_cases hne : ns = []
  · subst hne
    exact .dropped (.inl rfl)
  have hempty : ns.isEmpty = false := by simpa using hne
  unfold literalTail fold?
  rw [hempty, if_neg Bool.false_ne_true, ← literalTotal, ← literalKind]
  rcases hf : Literal.fold? (literalTotal ns) (literalKind ns) with _ | c
  · exact .unfolded hne (fold?_eq_none_iff.1 hf)
  · cases hz : c.isZero
    · simpa [isZero, hz] using TailOf.folded hne hf hz
    · simpa [isZero, hz] using TailOf.dropped (.inr ⟨c, hf, hz⟩)

/-- A literal tail is made of literals. -/
theorem TailOf.literal {ns : List Literal} {tail : List Expr} (h : TailOf ns tail) :
    ∀ x ∈ tail, ∃ n, x = .num n := by
  cases h with
  | dropped => simp
  | folded => simp
  | unfolded => simp

/-- A tail of one literal is never the negative zero: a folded literal is no zero, and a
single literal kept as it came added up to NaN, which the negative zero does not. -/
theorem TailOf.ne_neg_zero {ns : List Literal} {tail : List Expr} (h : TailOf ns tail)
    {n : Literal} (hn : tail = [.num n]) : n.bits ≠ (-0.0 : Float).toBits := by
  intro hbits
  have hvalue : n.value = Float.ofBits (-0.0 : Float).toBits := by rw [Literal.value, hbits]
  cases h with
  | dropped => cases hn
  | folded _ _ hz =>
    simp only [List.cons.injEq, num.injEq, and_true] at hn
    subst hn
    rw [Literal.isZero, hvalue] at hz
    exact absurd hz (by decide +kernel)
  | unfolded hne hnan =>
    obtain rfl : ns = [n] := by
      rcases ns with _ | ⟨m, _ | ⟨m', rest⟩⟩ <;> simp_all
    rw [literalTotal, List.foldl_cons, List.foldl_nil, hvalue] at hnan
    exact absurd hnan (by decide +kernel)

/-! ## The expression of a term list -/

theorem ofTerms_eq_func {t tag : NodeTag} {op : Op} {l xs : List Expr} {h : UInt64}
    (he : ofTerms t l = .func tag op xs h) :
    l = [.func tag op xs h] ∨ (2 ≤ l.length ∧ op = .sum ∧ xs = l) := by
  match l, he with
  | [], he => cases he
  | [x], he => exact .inl (by rw [← he]; rfl)
  | a :: b :: rest, he =>
    simp only [ofTerms, node, func.injEq] at he
    exact .inr ⟨by simp, he.2.1.symm, he.2.2.1.symm⟩

theorem ofTerms_eq_num {t : NodeTag} {l : List Expr} {n : Literal} (he : ofTerms t l = .num n) :
    (l = [] ∧ Expr.num n = zero) ∨ l = [.num n] := by
  match l, he with
  | [], he => exact .inl ⟨rfl, he.symm⟩
  | [x], he => exact .inr (by rw [← he]; rfl)
  | a :: b :: rest, he => simp [ofTerms, node] at he

/-! ## Sum nodes -/

/-- The arguments `xs` of a sum node built for the arguments `args`: at least two and none a
sum; the terms of `args` read through nested sums, in canonical order, then the tail of the
literals `args` brings. -/
structure SumNodeArgs (args xs : List Expr) : Prop where
  two_le : 2 ≤ xs.length
  not_sum : ∀ x ∈ xs, x.isOp .sum = false
  split : ∃ sorted tail, xs = sorted ++ tail ∧ sorted.Perm (sumParts args).1 ∧
    sorted.Pairwise (fun a b => SortedBefore a b = true) ∧ TailOf (sumParts args).2 tail

/-- The sorted terms of a canonical sum are neither literals nor sums. -/
theorem plain_of_mem_sorted {args : List Expr} {x : Expr}
    (hx : x ∈ (sumParts args).1.mergeSort SortedBefore) :
    x.literal? = none ∧ x.isOp .sum = false :=
  plain_of_mem_sumParts ((List.mergeSort_perm _ _).subset hx)

/-- Every sum node a canonical sum builds has the arguments `SumNodeArgs` describes. -/
theorem sum_node_args (t : NodeTag) (args : List Expr) {tag : NodeTag} {xs : List Expr}
    {h : UInt64} (he : sum t args = .func tag .sum xs h) : SumNodeArgs args xs := by
  rw [sum_eq] at he
  have htail := tailOf_literalTail (sumParts args).2
  have hnot_sum : ∀ x ∈ (sumParts args).1.mergeSort SortedBefore ++
      literalTail (sumParts args).2, x.isOp .sum = false := by
    intro x hx
    rcases List.mem_append.1 hx with hx | hx
    · exact (plain_of_mem_sorted hx).2
    · obtain ⟨n, rfl⟩ := htail.literal x hx
      rfl
  rcases ofTerms_eq_func he with hone | ⟨hlen, -, rfl⟩
  · -- a lone term is no sum
    have := hnot_sum _ (hone ▸ List.mem_singleton_self _)
    simp [isOp] at this
  · exact ⟨hlen, hnot_sum, _, _, rfl, List.mergeSort_perm _ _,
      pairwise_mergeSort_sortedBefore _, htail⟩

/-- A canonical sum is never the negative zero. -/
theorem sum_ne_neg_zero (t : NodeTag) (args : List Expr) {n : Literal}
    (he : sum t args = .num n) : n.bits ≠ (-0.0 : Float).toBits := by
  rw [sum_eq] at he
  rcases ofTerms_eq_num he with ⟨-, hzero⟩ | hone
  · -- the empty sum is the positive zero
    simp only [zero, lit, Literal.ofFloat, num.injEq] at hzero
    rw [hzero]
    decide +kernel
  · -- a lone literal is the tail: the sorted terms hold no literal
    rcases List.append_eq_singleton_iff.1 hone with ⟨-, htail⟩ | ⟨hsorted, -⟩
    · exact (tailOf_literalTail (sumParts args).2).ne_neg_zero htail
    · have := (plain_of_mem_sorted (hsorted ▸ List.mem_singleton_self _)).1
      simp [literal?] at this

/-! ## What a canonical sum depends on -/

/-- Two lists of terms that agree as multisets up to structural equality. -/
def SameTerms (xs ys : List Expr) : Prop :=
  (xs.map (Quotient.mk beqSetoid)).Perm (ys.map (Quotient.mk beqSetoid))

/-- A canonical sum depends only on its terms, as a multiset up to structural equality, and
on its literals in the order met. -/
theorem sum_congr (t t' : NodeTag) {args args' : List Expr}
    (hterms : SameTerms (sumParts args).1 (sumParts args').1)
    (hlits : (sumParts args).2 = (sumParts args').2) :
    (sum t args).beq (sum t' args') = true := by
  rw [sum_eq, sum_eq, hlits]
  exact ofTerms_congr t t' (List.rel_append (mergeSort_argsEq_of_classes hterms) (ArgsEq.refl _))

/-- Rearranging the arguments of a canonical sum gives an equal sum, as long as the literals
keep their order. -/
theorem sum_perm (t t' : NodeTag) {args args' : List Expr} (h : args.Perm args')
    (hlits : (sumParts args).2 = (sumParts args').2) :
    (sum t args).beq (sum t' args') = true :=
  sum_congr t t' ((sumParts_fst_perm h).map _) hlits

/-- The form of canonical sums: a sum node has at least two arguments, none a sum, the terms
in canonical order followed by the literal tail; a canonical sum is never the negative zero;
it depends only on its terms as a multiset and on its literals in order, so rearranging its
arguments with the literals in the same order gives an equal sum. -/
theorem canonical_sum_form :
    (∀ t args tag xs h, sum t args = .func tag .sum xs h → SumNodeArgs args xs) ∧
    (∀ t args n, sum t args = .num n → n.bits ≠ (-0.0 : Float).toBits) ∧
    (∀ t t' args args', SameTerms (sumParts args).1 (sumParts args').1 →
      (sumParts args).2 = (sumParts args').2 → (sum t args).beq (sum t' args') = true) ∧
    (∀ t t' args args', args.Perm args' → (sumParts args).2 = (sumParts args').2 →
      (sum t args).beq (sum t' args') = true) :=
  ⟨fun t args _ _ _ he => sum_node_args t args he, fun t args _ he => sum_ne_neg_zero t args he,
    fun t t' _ _ => sum_congr t t', fun t t' _ _ => sum_perm t t'⟩

/-- `x + 1 + y` and `y + 1 + x` are one sum. -/
theorem sum_rearranged_beq :
    [var "x", lit 1.0, var "y"].Perm [var "y", lit 1.0, var "x"] ∧
    (sumParts [var "x", lit 1.0, var "y"]).2 = (sumParts [var "y", lit 1.0, var "x"]).2 ∧
    (sum .anon [var "x", lit 1.0, var "y"]).beq (sum .anon [var "y", lit 1.0, var "x"]) = true := by
  have hperm : [var "x", lit 1.0, var "y"].Perm [var "y", lit 1.0, var "x"] :=
    List.reverse_perm _ |>.symm
  have hlits : (sumParts [var "x", lit 1.0, var "y"]).2 =
      (sumParts [var "y", lit 1.0, var "x"]).2 := by
    rw [sumParts_snd_eq_flatMap, sumParts_snd_eq_flatMap]
    simp only [List.flatMap_cons, List.flatMap_nil]
    rw [sumLiterals, sumLiterals, sumLiterals, @sumParts_plain (var "x") rfl rfl,
      @sumParts_plain (var "y") rfl rfl, lit, sumParts_num]
  exact ⟨hperm, hlits, canonical_sum_form.2.2.2 .anon .anon _ _ hperm hlits⟩

end Expr

end TaylorOde
