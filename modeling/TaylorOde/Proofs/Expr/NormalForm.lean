import TaylorOde.Proofs.Expr.SumForm
import TaylorOde.Proofs.Expr.ArchiveRoundTrip
import TaylorOde.Proofs.Binary.Narrowing
/-!
# Canonical expressions are normal

`normalise` rebuilds an expression bottom-up through the canonical constructors, under tags
derived from the tags of the nodes it rebuilds. An expression the canonical constructors
built comes back from it as it was up to node tags (`normalise_canonical`): structurally
equal, and with every literal in its format. Every expression whose operators have arguments
of the right number normalises, and normalising again changes nothing but tags.

## Shape of the proof

* The canonical constructors do not look at tags: forgetting the tags of what `build` returns
  is building over the arguments with their tags forgotten (`erase_build`).
* `Normal` says that `build` gives every node back from its own operator and arguments, up
  to tags. `normalise` returns a normal expression as it is, up to tags
  (`normalise_of_normal`).
* `build` over normal arguments is normal (`normal_build`). Most of its results are a
  literal, an argument, or a node over the arguments as given. The others are the product
  with its factors swapped, which builds itself again, and the sum node, whose arguments are
  sorted terms and a literal tail that `sum` collects back as they are
  (`sum_of_sumNodeArgs`).
-/

namespace TaylorOde

namespace Expr

open Binary64

/-! ## Forgetting tags -/

/-- The expression with the tag of every function node forgotten. -/
def erase (e : Expr) : Expr := e.retag fun _ => .anon

@[simp] theorem erase_func (t : NodeTag) (op : Op) (args : List Expr) (h : UInt64) :
    erase (.func t op args h) = .func .anon op (args.map erase) h :=
  retag_func _ t op args h

@[simp] theorem erase_num (n : Literal) : erase (.num n) = .num n := rfl

theorem erase_node (t : NodeTag) (op : Op) (args : List Expr) :
    erase (node t op args) = node .anon op (args.map erase) := by
  rw [node, erase_func, node]
  rw [show nodeHash op (args.map erase) = nodeHash op args from nodeHash_retag _ op args]

theorem erase_beq (e : Expr) : (erase e).beq e = true := retag_beq _ e

/-- Expressions equal up to tags are structurally equal. -/
theorem beq_of_erase_eq {a b : Expr} (h : erase a = erase b) : a.beq b = true :=
  beq_trans _ _ _ (beq_symm _ _ (erase_beq a)) (h ▸ erase_beq b)

theorem literal?_erase (e : Expr) : (erase e).literal? = e.literal? := by
  cases e <;> rfl

theorem isOp_erase (op : Op) (e : Expr) : (erase e).isOp op = e.isOp op := by
  cases e <;> rfl

theorem isZero_erase (e : Expr) : (erase e).isZero = e.isZero := by
  cases e <;> rfl

theorem isOne_erase (e : Expr) : (erase e).isOne = e.isOne := by
  cases e <;> rfl

theorem isValue_erase (x : Float) (e : Expr) : (erase e).isValue x = e.isValue x := by
  cases e <;> rfl

theorem cmp_erase (a b : Expr) : (erase a).cmp (erase b) = a.cmp b := by
  rw [Std.TransCmp.congr_left ((cmp_eq_iff_beq _ _).2 (erase_beq a)),
    Std.TransCmp.congr_right ((cmp_eq_iff_beq _ _).2 (erase_beq b))]

/-- Only a node of the operator forgets its tag into a node of that operator, over arguments
that forget theirs. -/
theorem eq_func_of_erase_eq {a : Expr} {t : NodeTag} {op : Op} {xs : List Expr} {h : UInt64}
    (he : erase a = .func t op xs h) : ∃ t' args, a = .func t' op args h ∧ xs = args.map erase := by
  cases a with
  | func t' op' args h' =>
    simp only [erase_func, func.injEq] at he
    obtain ⟨-, rfl, rfl, rfl⟩ := he
    exact ⟨t', args, rfl, rfl⟩
  | _ => cases he

/-- Only a negation node forgets its tag into a negation node. -/
theorem neg_of_erase_eq {a x : Expr} {t : NodeTag} {h : UInt64}
    (he : erase a = .func t .neg [x] h) : ∃ t' y, a = .func t' .neg [y] h := by
  obtain ⟨t', args, rfl, hargs⟩ := eq_func_of_erase_eq he
  obtain ⟨y, rfl, -⟩ := List.map_eq_singleton_iff.1 hargs.symm
  exact ⟨t', y, rfl⟩

/-! ## The canonical constructors do not look at tags -/

theorem erase_zero : erase zero = zero := rfl

theorem getD_map_erase (args : List Expr) (i : Nat) :
    (args.map erase).getD i zero = erase (args.getD i zero) := by
  rw [List.getD_eq_getElem?_getD, List.getD_eq_getElem?_getD, List.getElem?_map]
  cases args[i]? <;> rfl

theorem map_erase_of_literals {xs : List Expr} (h : ∀ x ∈ xs, ∃ n, x = .num n) :
    xs.map erase = xs := by
  conv_rhs => rw [← List.map_id xs]
  refine List.map_congr_left fun x hx => ?_
  obtain ⟨n, rfl⟩ := h x hx
  rfl

theorem erase_of_fold? {v : Float} {k : FloatKind} {c : Expr} (h : fold? v k = some c) :
    erase c = c := by
  obtain ⟨n, rfl⟩ := num_of_fold? h
  rfl

theorem erase_ofTerms (t : NodeTag) (xs : List Expr) :
    erase (ofTerms t xs) = ofTerms .anon (xs.map erase) := by
  match xs with
  | [] => rfl
  | [x] => rfl
  | a :: b :: rest => exact erase_node t .sum _

/-- Reading through nested sums commutes with forgetting tags. -/
theorem sumParts_map_erase (args : List Expr) :
    sumParts (args.map erase) = ((sumParts args).1.map erase, (sumParts args).2) := by
  induction args using sumParts.induct with
  | case1 => simp [sumParts_nil]
  | case2 rest _ _ _ n ih =>
    rw [List.map_cons, sumParts_cons, erase_num, sumParts_num, ih, sumParts_cons _ rest,
      sumParts_num]
    simp
  | case3 rest _ _ _ t inner h _ _ _ _ ihrest ihinner =>
    rw [List.map_cons, sumParts_cons, erase_func, sumParts_sum, ihinner, ihrest,
      sumParts_cons _ rest, sumParts_sum]
    simp
  | case4 rest _ _ _ other hnum hsum ih =>
    obtain ⟨hnum', hsum'⟩ := plain_of_not_num_not_sum hnum hsum
    have hplain := @sumParts_plain (erase other) (by rw [literal?_erase, hnum'])
      (by rw [isOp_erase, hsum'])
    rw [List.map_cons, sumParts_cons, hplain, ih, sumParts_cons _ rest,
      sumParts_plain hnum' hsum']
    simp

theorem mergeSort_map_erase (l : List Expr) :
    (l.map erase).mergeSort SortedBefore = (l.mergeSort SortedBefore).map erase :=
  (List.map_mergeSort fun a _ b _ =>
    sortedBefore_congr (beq_symm _ _ (erase_beq a)) (beq_symm _ _ (erase_beq b))).symm

theorem erase_sum (t : NodeTag) (args : List Expr) :
    erase (sum t args) = sum .anon (args.map erase) := by
  rw [sum_eq, sum_eq, erase_ofTerms, List.map_append, sumParts_map_erase, mergeSort_map_erase,
    map_erase_of_literals (tailOf_literalTail _).literal]

/-- The canonical negation of an operand that is neither a literal nor a negation node. -/
theorem neg_of_plain {t : NodeTag} {a : Expr} (hnum : a.literal? = none)
    (hneg : ∀ t' x h, a ≠ .func t' .neg [x] h) : neg t a = node t .neg [a] := by
  unfold neg
  split
  · simp [literal?] at hnum
  · exact absurd rfl (hneg _ _ _)
  · rfl

/-- An expression that is no negation node does not become one by forgetting its tags. -/
theorem erase_ne_neg {a : Expr} (hneg : ∀ t' x h, a ≠ .func t' .neg [x] h) :
    ∀ t' x h, erase a ≠ .func t' .neg [x] h := fun _ _ _ he => by
  obtain ⟨_, _, ha⟩ := neg_of_erase_eq he
  exact hneg _ _ _ ha

theorem erase_neg (t : NodeTag) (a : Expr) : erase (neg t a) = neg .anon (erase a) := by
  by_cases hneg : ∃ t' x h, a = .func t' .neg [x] h
  · obtain ⟨t', x, h, rfl⟩ := hneg
    rfl
  simp only [not_exists] at hneg
  rcases hnum : a.literal? with _ | n
  · rw [neg_of_plain hnum hneg, neg_of_plain (by rw [literal?_erase, hnum]) (erase_ne_neg hneg),
      erase_node, List.map_singleton]
  · obtain rfl : a = .num n := by cases a <;> simp_all [literal?]
    simp only [neg, erase_num]
    rcases hf : fold? (-n.value) n.kind with _ | c
    · exact erase_node _ _ _
    · exact erase_of_fold? hf

/-- The literal that two literals fold to under a binary operation, if any. -/
def foldPair? (f : Float → Float → Float) : Expr → Expr → Option Expr
  | .num x, .num y => fold? (f x.value y.value) (x.kind.common y.kind)
  | _, _ => none

/-- The literal that a literal folds to under a unary operation, if any. -/
def foldOne? (f : Float → Float) : Expr → Option Expr
  | .num x => fold? (f x.value) x.kind
  | _ => none

theorem foldPair?_erase (f : Float → Float → Float) (a b : Expr) :
    foldPair? f (erase a) (erase b) = foldPair? f a b := by
  cases a <;> cases b <;> rfl

theorem foldOne?_erase (f : Float → Float) (a : Expr) : foldOne? f (erase a) = foldOne? f a := by
  cases a <;> rfl

theorem num_of_foldPair? {f : Float → Float → Float} {a b c : Expr}
    (h : foldPair? f a b = some c) : ∃ n, c = .num n := by
  cases a <;> cases b <;> simp only [foldPair?, reduceCtorEq] at h
  exact num_of_fold? h

theorem num_of_foldOne? {f : Float → Float} {a c : Expr} (h : foldOne? f a = some c) :
    ∃ n, c = .num n := by
  cases a <;> simp only [foldOne?, reduceCtorEq] at h
  exact num_of_fold? h

theorem foldProduct?_eq (a b : Expr) : foldProduct? a b = foldPair? (· * ·) a b := by
  cases a <;> cases b <;> rfl

theorem div_eq (t : NodeTag) (a b : Expr) :
    div t a b = match foldPair? (· / ·) a b with
      | some c => c
      | none =>
        if b.isOne then a
        else if a.isZero && !b.isZero then zero
        else node t .div [a, b] := by
  unfold div foldPair?
  cases a <;> cases b <;> rfl

theorem pow_eq (t : NodeTag) (a b : Expr) :
    pow t a b =
      if b.isZero || a.isOne then one
      else if b.isOne then a
      else match foldPair? Float.pow a b with
        | some c => c
        | none => node t .pow [a, b] := by
  unfold pow foldPair?
  cases a <;> cases b <;> rfl

theorem square_eq (t : NodeTag) (a : Expr) :
    square t a = match foldOne? (fun v => v * v) a with
      | some c => c
      | none => node t .square [a] := by
  unfold square foldOne?
  cases a <;> rfl

theorem exp_eq (t : NodeTag) (a : Expr) :
    exp t a = match foldOne? Float.exp a with
      | some c => c
      | none => node t .exp [a] := by
  unfold exp foldOne?
  cases a <;> rfl

theorem erase_mul (t : NodeTag) (a b : Expr) : erase (mul t a b) = mul .anon (erase a) (erase b) := by
  rw [mul_eq, mul_eq, foldProduct?_eq, foldProduct?_eq, foldPair?_erase]
  rcases hf : foldPair? (· * ·) a b with _ | c
  · simp only [productRules, isZero_erase, isOne_erase, isValue_erase, cmp_erase]
    split_ifs <;> simp [erase_zero, erase_neg, erase_node]
  · obtain ⟨n, rfl⟩ := num_of_foldPair? hf
    rfl

theorem erase_div (t : NodeTag) (a b : Expr) : erase (div t a b) = div .anon (erase a) (erase b) := by
  rw [div_eq, div_eq, foldPair?_erase]
  rcases hf : foldPair? (· / ·) a b with _ | c
  · simp only [isZero_erase, isOne_erase]
    split_ifs <;> simp [erase_zero, erase_node]
  · obtain ⟨n, rfl⟩ := num_of_foldPair? hf
    rfl

theorem erase_pow (t : NodeTag) (a b : Expr) : erase (pow t a b) = pow .anon (erase a) (erase b) := by
  rw [pow_eq, pow_eq, foldPair?_erase, isZero_erase, isOne_erase, isOne_erase]
  split_ifs
  · rfl
  · rfl
  · rcases hf : foldPair? Float.pow a b with _ | c
    · exact erase_node _ _ _
    · obtain ⟨n, rfl⟩ := num_of_foldPair? hf
      rfl

theorem erase_square (t : NodeTag) (a : Expr) : erase (square t a) = square .anon (erase a) := by
  rw [square_eq, square_eq, foldOne?_erase]
  rcases hf : foldOne? (fun v => v * v) a with _ | c
  · exact erase_node _ _ _
  · obtain ⟨n, rfl⟩ := num_of_foldOne? hf
    rfl

theorem erase_exp (t : NodeTag) (a : Expr) : erase (exp t a) = exp .anon (erase a) := by
  rw [exp_eq, exp_eq, foldOne?_erase]
  rcases hf : foldOne? Float.exp a with _ | c
  · exact erase_node _ _ _
  · obtain ⟨n, rfl⟩ := num_of_foldOne? hf
    rfl

theorem erase_log (t : NodeTag) (a : Expr) : erase (log t a) = log .anon (erase a) := by
  unfold log
  rw [isOne_erase]
  split_ifs
  · rfl
  · exact erase_node _ _ _

/-- The canonical sine of an operand that is no negation node. -/
theorem sin_of_not_neg {t : NodeTag} {e : Expr} (h : ∀ t' x hh, e ≠ .func t' .neg [x] hh) :
    sin t e = node t .sin [e] := by
  unfold sin
  split
  · exact absurd rfl (h _ _ _)
  · rfl

/-- The canonical cosine of an operand that is no negation node. -/
theorem cos_of_not_neg {t : NodeTag} {e : Expr} (h : ∀ t' x hh, e ≠ .func t' .neg [x] hh) :
    cos t e = node t .cos [e] := by
  unfold cos
  split
  · exact absurd rfl (h _ _ _)
  · rfl

theorem erase_sin (t : NodeTag) (a : Expr) : erase (sin t a) = sin .anon (erase a) := by
  induction t, a using sin.induct with
  | case1 t tag x hash ih =>
    rw [sin, erase_neg, ih, erase_func, List.map_singleton, sin]
    rfl
  | case2 t e hneg =>
    rw [sin_of_not_neg hneg, erase_node, List.map_singleton, sin_of_not_neg (erase_ne_neg hneg)]

theorem erase_cos (t : NodeTag) (a : Expr) : erase (cos t a) = cos .anon (erase a) := by
  induction a using cos.induct with
  | case1 tag x hash ih =>
    rw [cos, ih, erase_func, List.map_singleton, cos]
  | case2 e hneg =>
    rw [cos_of_not_neg hneg, erase_node, List.map_singleton, cos_of_not_neg (erase_ne_neg hneg)]

/-- The canonical constructors do not look at tags: forgetting the tags of what `build`
returns gives what it returns for the arguments with their tags forgotten. -/
theorem erase_build (t : NodeTag) (op : Op) (args : List Expr) :
    erase (build t op args) = build .anon op (args.map erase) := by
  cases op <;>
    simp only [build, getD_map_erase, erase_sum, erase_mul, erase_div, erase_pow, erase_neg,
      erase_square, erase_exp, erase_log, erase_sin, erase_cos, erase_node, List.map_cons,
      List.map_nil]

/-! ## Sums that collect themselves back -/

theorem sumParts_append (l₁ l₂ : List Expr) :
    sumParts (l₁ ++ l₂) =
      ((sumParts l₁).1 ++ (sumParts l₂).1, (sumParts l₁).2 ++ (sumParts l₂).2) := by
  induction l₁ with
  | nil => simp [sumParts_nil]
  | cons e rest ih =>
    rw [List.cons_append, sumParts_cons, ih, sumParts_cons e rest]
    simp

/-- Terms that are neither literals nor sums are read as they are. -/
theorem sumParts_of_plain {xs : List Expr}
    (h : ∀ x ∈ xs, x.literal? = none ∧ x.isOp .sum = false) : sumParts xs = (xs, []) := by
  induction xs with
  | nil => exact sumParts_nil
  | cons x rest ih =>
    obtain ⟨hnum, hsum⟩ := h x List.mem_cons_self
    rw [sumParts_cons, sumParts_plain hnum hsum, ih fun y hy => h y (List.mem_cons_of_mem _ hy)]
    rfl

theorem sumParts_map_num (ns : List Literal) : sumParts (ns.map .num) = ([], ns) := by
  induction ns with
  | nil => exact sumParts_nil
  | cons n rest ih =>
    rw [List.map_cons, sumParts_cons, sumParts_num, ih]
    rfl

/-- A literal that a value folds to, and that is no zero, folds again from itself added to
zero in its own format: adding to zero and rounding to binary32 change it no more. -/
theorem fold?_zero_add_of_fold? {v : Float} {k : FloatKind} {c : Literal}
    (h : Literal.fold? v k = some c) (hz : c.isZero = false) :
    Literal.fold? (0.0 + c.value) (FloatKind.binary32.common c.kind) = some c := by
  have hv : v.isNaN = false := by
    cases hv : v.isNaN
    · rfl
    · simp only [Literal.fold?, Literal.ofKind, hv, ↓reduceIte, reduceCtorEq] at h
  have hcommon : FloatKind.binary32.common k = k := by
    cases k <;> rfl
  simp only [Literal.fold?, Literal.ofKind, hv, Bool.false_eq_true, if_false,
    Option.some.injEq] at h
  subst h
  simp only [Literal.isZero, Literal.value, ofBits_toBits] at hz
  simp only [Literal.value, ofBits_toBits, zero_add_of_ne_zero hz, hcommon]
  -- a binary32 literal is rounded once more, which changes it no more
  cases hk : k == .binary32
  · simp only [Literal.fold?, Literal.ofKind, hv, hk, Bool.false_eq_true, ↓reduceIte]
  · simp only [Literal.fold?, Literal.ofKind, hk, isNaN_roundToBinary32 hv,
      roundToBinary32_roundToBinary32, Bool.false_eq_true, ↓reduceIte]

/-- The literal tail of a canonical sum, read back as arguments of a sum, brings no terms and
folds to itself again. -/
theorem TailOf.sumParts_stable {ns : List Literal} {tail : List Expr} (h : TailOf ns tail) :
    (sumParts tail).1 = [] ∧ literalTail (sumParts tail).2 = tail := by
  cases h with
  | dropped => simp [sumParts_nil, literalTail]
  | folded hne hfold hz =>
    rw [sumParts_num]
    refine ⟨rfl, ?_⟩
    have hrefold := fold?_zero_add_of_fold? hfold hz
    simp [literalTail, fold?, hrefold, isZero, hz]
  | unfolded hne hnan =>
    rw [sumParts_map_num]
    refine ⟨rfl, ?_⟩
    have hnone : Literal.fold? (literalTotal ns) (literalKind ns) = none :=
      fold?_eq_none_iff.2 hnan
    simp only [literalTail, fold?]
    rw [if_neg (by simpa using hne)]
    simp only [literalTotal, literalKind] at hnone
    simp [hnone]

theorem ofTerms_of_two_le (t : NodeTag) {xs : List Expr} (h : 2 ≤ xs.length) :
    ofTerms t xs = node t .sum xs := by
  match xs, h with
  | a :: b :: rest, _ => rfl

/-- A canonical sum over the arguments of a canonical sum node is that node again: its terms
are read as they are and already sorted, and its literal tail folds to itself. -/
theorem sum_of_sumNodeArgs {args xs : List Expr} (h : SumNodeArgs args xs) (t : NodeTag) :
    sum t xs = node t .sum xs := by
  obtain ⟨sorted, tail, rfl, hperm, hsorted, htail⟩ := h.split
  have hplain : ∀ x ∈ sorted, x.literal? = none ∧ x.isOp .sum = false :=
    fun x hx => plain_of_mem_sumParts (hperm.subset hx)
  obtain ⟨hterms, hlits⟩ := htail.sumParts_stable
  rw [sum_eq, sumParts_append, sumParts_of_plain hplain, hterms, List.append_nil,
    List.nil_append, hlits, List.mergeSort_of_pairwise hsorted]
  exact ofTerms_of_two_le t h.two_le

/-! ## Normal expressions -/

/-- An expression every node of which `build` gives back, up to tags, from its own operator
and arguments, of a number the operator accepts. -/
inductive Normal : Expr → Prop
  | atom {e : Expr} (he : e.op? = none) : Normal e
  | func {t : NodeTag} {op : Op} {args : List Expr} {h : UInt64} (hargs : ∀ a ∈ args, Normal a)
      (harity : op.accepts args.length = true)
      (hfix : erase (build t op args) = erase (.func t op args h)) : Normal (.func t op args h)

namespace Normal

theorem num (n : Literal) : Normal (.num n) := .atom rfl

theorem of_mem_args {e a : Expr} (he : Normal e) (ha : a ∈ e.args) : Normal a := by
  cases he with
  | atom he' => cases e <;> simp_all [op?, args]
  | func hargs _ _ => exact hargs a ha

/-- A node that `build` gives back as it is over its arguments is normal. -/
theorem node {t : NodeTag} {op : Op} {args : List Expr} (hargs : ∀ a ∈ args, Normal a)
    (harity : op.accepts args.length = true) (hfix : build t op args = Expr.node t op args) :
    Normal (Expr.node t op args) :=
  .func hargs harity (congrArg erase hfix)

theorem of_foldPair? {f : Float → Float → Float} {a b c : Expr} (h : foldPair? f a b = some c) :
    Normal c := by
  obtain ⟨n, rfl⟩ := num_of_foldPair? h
  exact .num n

theorem of_foldOne? {f : Float → Float} {a c : Expr} (h : foldOne? f a = some c) : Normal c := by
  obtain ⟨n, rfl⟩ := num_of_foldOne? h
  exact .num n

end Normal

theorem normal_neg (t : NodeTag) {a : Expr} (ha : Normal a) : Normal (neg t a) := by
  rcases neg_cases t a with ⟨n, hn⟩ | ⟨x, hx, hn⟩ | hn <;> rw [hn]
  · exact .num n
  · exact ha.of_mem_args hx
  · exact .node (by simpa using ha) rfl hn

/-- A canonical product of normal factors is normal. When the factors are swapped, building
over them in their new order swaps nothing. -/
theorem normal_mul (t : NodeTag) {a b : Expr} (ha : Normal a) (hb : Normal b) :
    Normal (mul t a b) := by
  have hab : ∀ x ∈ [a, b], Normal x := by simp [ha, hb]
  have hba : ∀ x ∈ [b, a], Normal x := by simp [ha, hb]
  rw [mul_eq, foldProduct?_eq]
  rcases hf : foldPair? (· * ·) a b with _ | c
  · dsimp only
    unfold productRules
    split_ifs with hz h1 h1' hm hm' hlt
    · exact .num _
    · exact hb
    · exact ha
    · exact normal_neg t hb
    · exact normal_neg t ha
    · refine .node hba rfl ?_
      show mul t b a = node t .mul [b, a]
      have hgt : (a.cmp b == .lt) = false := by
        rw [cmp_swap b a]
        simp only [beq_iff_eq] at hlt
        simp [hlt]
      rw [mul_eq, foldProduct?_eq, ← foldProduct?_eq, foldProduct?_comm, foldProduct?_eq, hf]
      simp_all [productRules]
    · refine .node hab rfl ?_
      show mul t a b = node t .mul [a, b]
      rw [mul_eq, foldProduct?_eq, hf]
      simp_all [productRules]
  · exact .of_foldPair? hf

theorem normal_div (t : NodeTag) {a b : Expr} (ha : Normal a) (hb : Normal b) :
    Normal (div t a b) := by
  rw [div_eq]
  rcases hf : foldPair? (· / ·) a b with _ | c
  · dsimp only
    split_ifs with h1 hz
    · exact ha
    · exact .num _
    · refine .node (by simp [ha, hb]) rfl ?_
      show div t a b = node t .div [a, b]
      rw [div_eq, hf]
      simp_all
  · exact .of_foldPair? hf

theorem normal_pow (t : NodeTag) {a b : Expr} (ha : Normal a) (hb : Normal b) :
    Normal (pow t a b) := by
  rw [pow_eq]
  split_ifs with hz h1
  · exact .num _
  · exact ha
  · rcases hf : foldPair? Float.pow a b with _ | c
    · refine .node (by simp [ha, hb]) rfl ?_
      show pow t a b = node t .pow [a, b]
      rw [pow_eq, hf]
      simp_all
    · exact .of_foldPair? hf

theorem normal_square (t : NodeTag) {a : Expr} (ha : Normal a) : Normal (square t a) := by
  rw [square_eq]
  rcases hf : foldOne? (fun v => v * v) a with _ | c
  · refine .node (by simp [ha]) rfl ?_
    show square t a = node t .square [a]
    rw [square_eq, hf]
  · exact .of_foldOne? hf

theorem normal_exp (t : NodeTag) {a : Expr} (ha : Normal a) : Normal (exp t a) := by
  rw [exp_eq]
  rcases hf : foldOne? Float.exp a with _ | c
  · refine .node (by simp [ha]) rfl ?_
    show exp t a = node t .exp [a]
    rw [exp_eq, hf]
  · exact .of_foldOne? hf

theorem normal_log (t : NodeTag) {a : Expr} (ha : Normal a) : Normal (log t a) := by
  rcases log_cases t a with hn | hn <;> rw [hn]
  · exact .num _
  · exact .node (by simp [ha]) rfl hn

theorem normal_sin (t : NodeTag) {a : Expr} (ha : Normal a) : Normal (sin t a) := by
  induction t, a using sin.induct with
  | case1 t tag x hash ih =>
    rw [sin]
    exact normal_neg t (ih (ha.of_mem_args (by simp [args])))
  | case2 t e hneg =>
    rw [sin_of_not_neg hneg]
    exact .node (by simp [ha]) rfl (sin_of_not_neg hneg)

theorem normal_cos (t : NodeTag) {a : Expr} (ha : Normal a) : Normal (cos t a) := by
  induction a using cos.induct with
  | case1 tag x hash ih =>
    rw [cos]
    exact ih (ha.of_mem_args (by simp [args]))
  | case2 e hneg =>
    rw [cos_of_not_neg hneg]
    exact .node (by simp [ha]) rfl (cos_of_not_neg hneg)

/-- The terms read through nested sums from normal arguments are normal. -/
theorem normal_of_mem_sumParts {args : List Expr} (hargs : ∀ a ∈ args, Normal a) {x : Expr}
    (hx : x ∈ (sumParts args).1) : Normal x := by
  induction args using sumParts.induct with
  | case1 => simp [sumParts_nil] at hx
  | case2 rest _ _ _ n ih =>
    rw [sumParts_cons, sumParts_num, List.nil_append] at hx
    exact ih (fun a ha => hargs a (List.mem_cons_of_mem _ ha)) hx
  | case3 rest _ _ _ t inner h _ _ _ _ ihrest ihinner =>
    rw [sumParts_cons, sumParts_sum, List.mem_append] at hx
    rcases hx with hx | hx
    · exact ihinner (fun a ha => (hargs _ List.mem_cons_self).of_mem_args ha) hx
    · exact ihrest (fun a ha => hargs a (List.mem_cons_of_mem _ ha)) hx
  | case4 rest _ _ _ other hnum hsum ih =>
    obtain ⟨hnum', hsum'⟩ := plain_of_not_num_not_sum hnum hsum
    rw [sumParts_cons, sumParts_plain hnum' hsum', List.singleton_append, List.mem_cons] at hx
    rcases hx with rfl | hx
    · exact hargs _ List.mem_cons_self
    · exact ih (fun a ha => hargs a (List.mem_cons_of_mem _ ha)) hx

/-- A canonical sum of normal arguments is normal: a sum node it builds is built again from
its own arguments (`sum_of_sumNodeArgs`). -/
theorem normal_sum (t : NodeTag) {args : List Expr} (hargs : ∀ a ∈ args, Normal a) :
    Normal (sum t args) := by
  have hmem : ∀ x ∈ (sumParts args).1.mergeSort SortedBefore ++ literalTail (sumParts args).2,
      Normal x := by
    intro x hx
    rcases List.mem_append.1 hx with hx | hx
    · exact normal_of_mem_sumParts hargs ((List.mergeSort_perm _ _).subset hx)
    · obtain ⟨n, rfl⟩ := (tailOf_literalTail _).literal x hx
      exact .num n
  rcases hl : (sumParts args).1.mergeSort SortedBefore ++ literalTail (sumParts args).2 with
    _ | ⟨a, _ | ⟨b, rest⟩⟩
  · rw [sum_eq, hl]
    exact .num _
  · rw [sum_eq, hl]
    exact hmem a (by simp [hl])
  · have hsum : sum t args = node t .sum (a :: b :: rest) := by
      rw [sum_eq, hl]
      rfl
    rw [hsum]
    exact .node (fun x hx => hmem x (hl ▸ hx)) rfl
      (sum_of_sumNodeArgs (sum_node_args t args hsum) t)

/-- `build` over normal arguments of a number its operator accepts is normal. -/
theorem normal_build (t : NodeTag) {op : Op} {args : List Expr} (hargs : ∀ a ∈ args, Normal a)
    (harity : op.accepts args.length = true) : Normal (build t op args) := by
  have hone : ∀ {a : Expr}, (∀ x ∈ [a], Normal x) → Normal a := fun h => h _ (by simp)
  have hfst : ∀ {a b : Expr}, (∀ x ∈ [a, b], Normal x) → Normal a := fun h => h _ (by simp)
  have hsnd : ∀ {a b : Expr}, (∀ x ∈ [a, b], Normal x) → Normal b := fun h => h _ (by simp)
  -- the operators with rules, then those that build their node over the arguments as given
  match op, args, harity, hargs with
  | .sum, _, _, hargs => exact normal_sum t hargs
  | .mul, [_, _], _, hargs => exact normal_mul t (hfst hargs) (hsnd hargs)
  | .div, [_, _], _, hargs => exact normal_div t (hfst hargs) (hsnd hargs)
  | .pow, [_, _], _, hargs => exact normal_pow t (hfst hargs) (hsnd hargs)
  | .neg, [_], _, hargs => exact normal_neg t (hone hargs)
  | .square, [_], _, hargs => exact normal_square t (hone hargs)
  | .exp, [_], _, hargs => exact normal_exp t (hone hargs)
  | .log, [_], _, hargs => exact normal_log t (hone hargs)
  | .sin, [_], _, hargs => exact normal_sin t (hone hargs)
  | .cos, [_], _, hargs => exact normal_cos t (hone hargs)
  | .atan2, [_, _], harity, hargs | .kepE, [_, _], harity, hargs
  | .sqrt, [_], harity, hargs | .tan, [_], harity, hargs | .asin, [_], harity, hargs
  | .acos, [_], harity, hargs | .atan, [_], harity, hargs | .sinh, [_], harity, hargs
  | .cosh, [_], harity, hargs | .tanh, [_], harity, hargs => exact .node hargs harity rfl

/-! ## Normalising -/

/-- A `mapM` in `Except` succeeds when each call does. -/
theorem exists_mapM_eq_ok {ε α β : Type} {f : α → Except ε β} {R : α → β → Prop} :
    ∀ {l : List α}, (∀ a ∈ l, ∃ b, f a = .ok b ∧ R a b) →
      ∃ bs, l.mapM f = .ok bs ∧ List.Forall₂ R l bs
  | [], _ => ⟨[], rfl, .nil⟩
  | a :: l, h => by
    obtain ⟨b, hb, hr⟩ := h a List.mem_cons_self
    obtain ⟨bs, hbs, hrs⟩ := exists_mapM_eq_ok fun x hx => h x (List.mem_cons_of_mem _ hx)
    refine ⟨b :: bs, ?_, .cons hr hrs⟩
    rw [List.mapM_cons, hb, hbs]
    rfl

theorem forall_mem_of_forall₂ {α β : Type} {R : α → β → Prop} {P : β → Prop} {l : List α}
    {l' : List β} (h : List.Forall₂ R l l') (hP : ∀ a ∈ l, ∀ b, R a b → P b) :
    ∀ b ∈ l', P b := by
  induction h with
  | nil => simp
  | cons hab _ ih =>
    intro b hb
    rcases List.mem_cons.1 hb with rfl | hb
    · exact hP _ List.mem_cons_self _ hab
    · exact ih (fun a ha => hP a (List.mem_cons_of_mem _ ha)) b hb

theorem apply_eq_ok_iff {t : NodeTag} {op : Op} {args : List Expr} {e : Expr} :
    apply t op args = .ok e ↔ op.accepts args.length = true ∧ build t op args = e := by
  unfold apply
  cases hc : op.checkArity args.length with
  | error err =>
    have hacc : op.accepts args.length = false := by
      cases h : op.accepts args.length
      · rfl
      · rw [checkArity_eq_ok.2 h] at hc
        cases hc
    simp [bind, Except.bind, hacc]
  | ok u =>
    simp [bind, Except.bind, pure, Except.pure, checkArity_eq_ok.1 hc]

theorem normalise_func (t : NodeTag) (op : Op) (args : List Expr) (h : UInt64) :
    normalise (.func t op args h) = args.mapM normalise >>= apply (t.child 2) op := by
  rw [normalise]

theorem normalise_of_op?_none {e : Expr} (he : e.op? = none) : normalise e = .ok e := by
  cases e <;> simp_all [op?, normalise]

/-- A normal expression normalises to itself, up to tags. -/
theorem normalise_of_normal {e : Expr} (he : Normal e) :
    ∃ e', normalise e = .ok e' ∧ erase e' = erase e := by
  induction he with
  | atom he => exact ⟨_, normalise_of_op?_none he, rfl⟩
  | @func t op args h hargs harity hfix ih =>
    obtain ⟨args', hmap, hrel⟩ := @exists_mapM_eq_ok _ _ _ _ (fun a b => erase b = erase a) _ ih
    have herase : args.map erase = args'.map erase := by
      rw [← List.forall₂_eq_eq_eq, List.forall₂_map_left_iff, List.forall₂_map_right_iff]
      exact hrel.imp fun _ _ h => h.symm
    refine ⟨build (t.child 2) op args', ?_, ?_⟩
    · rw [normalise_func, hmap]
      exact apply_eq_ok_iff.2 ⟨hrel.length_eq ▸ harity, rfl⟩
    · rw [erase_build, ← herase, ← erase_build t, hfix]

/-- Everything `normalise` returns is normal. -/
theorem normal_of_normalise {x y : Expr} (hy : normalise x = .ok y) : Normal y := by
  induction x using recArgs generalizing y with
  | func t op args h ih =>
    rw [normalise_func] at hy
    cases hmap : args.mapM normalise with
    | error err =>
      rw [hmap] at hy
      cases hy
    | ok args' =>
      rw [hmap] at hy
      obtain ⟨harity, rfl⟩ := apply_eq_ok_iff.1 hy
      exact normal_build _ (forall_mem_of_forall₂ ((mapM_except_eq_ok _ _ _).1 hmap)
        fun a ha _ hb => ih a ha hb) (((mapM_except_eq_ok _ _ _).1 hmap).length_eq ▸ harity)
  | num _ | param _ | var _ | time =>
    rw [normalise_of_op?_none rfl] at hy
    cases hy
    exact .atom rfl

/-- Every operator of the expression has arguments of a number it accepts, as in every
expression that `apply` and `raw` build. -/
def ArityOk (e : Expr) : Prop :=
  ∀ t op args h, Occurs (.func t op args h) e → op.accepts args.length = true

/-- An expression whose operators have arguments of numbers they accept normalises. -/
theorem normalise_ok {x : Expr} (hx : ArityOk x) : ∃ y, normalise x = .ok y := by
  induction x using recArgs with
  | func t op args h ih =>
    obtain ⟨args', hmap, hrel⟩ := @exists_mapM_eq_ok _ _ _ _ (fun _ _ => True) _
      fun a ha => (ih a ha fun t' op' args'' h' hocc => hx t' op' args'' h' (.arg ha hocc)).imp
        fun _ hy => ⟨hy, trivial⟩
    rw [normalise_func, hmap]
    exact ⟨_, apply_eq_ok_iff.2 ⟨hrel.length_eq ▸ hx t op args h .refl, rfl⟩⟩
  | num _ | param _ | var _ | time => exact ⟨_, normalise_of_op?_none rfl⟩

theorem occurs_num_erase {e : Expr} {n : Literal} : Occurs (.num n) (erase e) ↔ Occurs (.num n) e := by
  rw [erase, occurs_retag_iff]
  constructor
  · rintro ⟨z, hz, hzn⟩
    rwa [retag_eq_num.1 hzn.symm] at hz
  · intro hn
    exact ⟨_, hn, rfl⟩

/-- Expressions equal up to tags have the same literals, each in the same format. -/
theorem occurs_num_of_erase_eq {a b : Expr} (h : erase a = erase b) (n : Literal) :
    Occurs (.num n) a ↔ Occurs (.num n) b := by
  rw [← occurs_num_erase, h, occurs_num_erase]

/-- The expressions the canonical constructors build from atoms: `apply` of an operator to
expressions so built. The canonical constructors of the operators are `build` of them. -/
inductive Built : Expr → Prop
  | atom {e : Expr} (he : e.op? = none) : Built e
  | applied {t : NodeTag} {op : Op} {args : List Expr} {e : Expr} (hargs : ∀ a ∈ args, Built a)
      (he : apply t op args = .ok e) : Built e

theorem Built.normal {e : Expr} (he : Built e) : Normal e := by
  induction he with
  | atom he => exact .atom he
  | applied _ he ih =>
    obtain ⟨harity, rfl⟩ := apply_eq_ok_iff.1 he
    exact normal_build _ ih harity

/-- Canonical expressions are normal forms. An expression the canonical constructors built
normalises to itself up to node tags: structurally equal, with the same literals in the same
formats. Every expression whose operators have arguments of numbers they accept normalises,
and normalising the result again changes nothing but tags. -/
theorem normalise_canonical :
    (∀ e, Built e → ∃ e', normalise e = .ok e' ∧ e'.beq e = true ∧ erase e' = erase e ∧
      ∀ n, Occurs (.num n) e' ↔ Occurs (.num n) e) ∧
    (∀ x, ArityOk x → ∃ y, normalise x = .ok y ∧
      ∃ z, normalise y = .ok z ∧ z.beq y = true ∧ erase z = erase y) := by
  refine ⟨fun e he => ?_, fun x hx => ?_⟩
  · obtain ⟨e', hnorm, herase⟩ := normalise_of_normal he.normal
    exact ⟨e', hnorm, beq_of_erase_eq herase, herase, occurs_num_of_erase_eq herase⟩
  · obtain ⟨y, hy⟩ := normalise_ok hx
    obtain ⟨z, hz, herase⟩ := normalise_of_normal (normal_of_normalise hy)
    exact ⟨y, hy, z, hz, beq_of_erase_eq herase, herase⟩

/-- `sin (-x)`, built as `-(sin x)`, normalises to itself; `1 * x` built as a plain node
normalises to `x`, which normalises to itself. -/
theorem sin_neg_and_one_mul_normalise :
    Built (build .anon .sin [neg .anon (var "x")]) ∧
      (∃ e', normalise (build .anon .sin [neg .anon (var "x")]) = .ok e' ∧
        e'.beq (build .anon .sin [neg .anon (var "x")]) = true) ∧
    ArityOk (node .anon .mul [lit 1.0, var "x"]) ∧
      ∃ y, normalise (node .anon .mul [lit 1.0, var "x"]) = .ok y ∧
        ∃ z, normalise y = .ok z ∧ z.beq y = true := by
  have hneg : Built (neg .anon (var "x")) := @Built.applied .anon .neg [var "x"] _
    (fun a ha => by simp only [List.mem_singleton] at ha; exact .atom (ha ▸ rfl))
    (apply_eq_ok_iff.2 ⟨rfl, rfl⟩)
  have hbuilt : Built (build .anon .sin [neg .anon (var "x")]) :=
    .applied (fun a ha => by simp only [List.mem_singleton] at ha; exact ha ▸ hneg)
      (apply_eq_ok_iff.2 ⟨rfl, rfl⟩)
  have harity : ArityOk (node .anon .mul [lit 1.0, var "x"]) := by
    intro t op args h hocc
    rcases occurs_func_iff.1 hocc with heq | ⟨b, hb, hocc'⟩
    · simp only [func.injEq] at heq
      obtain ⟨-, rfl, rfl, -⟩ := heq
      rfl
    · simp only [List.mem_cons, List.not_mem_nil, or_false] at hb
      rcases hb with rfl | rfl <;> cases hocc'
  obtain ⟨e', he', hbeq, -⟩ := normalise_canonical.1 _ hbuilt
  obtain ⟨y, hy, z, hz, hzy, -⟩ := normalise_canonical.2 _ harity
  exact ⟨hbuilt, ⟨e', he', hbeq⟩, harity, y, hy, z, hz, hzy⟩

end Expr

end TaylorOde
