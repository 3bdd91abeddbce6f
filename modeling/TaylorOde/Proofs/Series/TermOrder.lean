import TaylorOde.Proofs.Expr.SplitSums
import TaylorOde.Proofs.Decomposition.Table
import TaylorOde.Series.Poisson
import Mathlib
/-!
# A Poisson series does not depend on the order of its table

`poissonSeries` builds each row as the canonical sum of its sine and cosine parts, sums the
rows of each power of time, multiplies that sum by the power and sums the groups, the powers in
increasing order. Main statement: `poissonSeries_perm`, every reordering of a table of
accepted rows is accepted and gives an equal series.

A canonical sum sorts its terms, which depends on them only as a multiset up to structural
equality, but adds up its literals in the order met, and floating-point addition depends on
that order. The statement holds because a series never hands a sum a literal other than zero:

* a part is a nonzero coefficient times a sine or a cosine, never a literal
  (`part_mul_literal`), and a row without parts is the literal zero, which a sum drops wherever
  it stands (`literalTail_of_isZero`); so a group sum depends only on its rows as a multiset
  (`groupSum_beq`), whatever tags the rows get from their positions (`erase_poissonTerm`);
* a group sum is zero or settled (`groupSum_cases`), and multiplying it by its power of time
  keeps structural equality and the literals a sum reads through it (`timesPower_alike`);
* the powers are one sorted list for every order of the table (`powersOf_perm`), so the outer
  sum sees equal groups power by power (`seriesGroups_alike`).
-/

namespace TaylorOde

/-- A row that `poissonSeries` accepts over the arguments `args`: one multiplier per argument
and finite coefficients. -/
def PoissonTerm.Accepted (args : List Expr) (term : PoissonTerm) : Prop :=
  term.multipliers.length = args.length ∧ term.sinCoeff.isFinite = true ∧
    term.cosCoeff.isFinite = true

instance (args : List Expr) : DecidablePred (PoissonTerm.Accepted args) :=
  fun _ => inferInstanceAs (Decidable (_ ∧ _ ∧ _))

namespace Expr

open Binary64

/-! ## Sums of zeros -/

/-- A float that compares equal to zero unpacks to a zero. -/
theorem unpack_eq_zero_of_beq_zero {x : Float} (h : (x == 0.0) = true) :
    ∃ s, x.toModel.unpack = .zero s := by
  have h' : x.toModel.unpack.beq (0.0 : Float).toModel.unpack = true := h
  rw [unpack_zero] at h'
  cases hx : x.toModel.unpack with
  | zero s => exact ⟨s, rfl⟩
  | notANumber => simp [hx, Float.Model.UnpackedFloat.beq, Float.Model.UnpackedFloat.compare] at h'
  | infinity s => cases s <;> simp [hx, Float.Model.UnpackedFloat.beq,
      Float.Model.UnpackedFloat.compare] at h'
  | finite s m e hm => cases s <;> simp [hx, Float.Model.UnpackedFloat.beq,
      Float.Model.UnpackedFloat.compare] at h'

/-- Adding a zero of either sign to positive zero gives positive zero. -/
theorem zero_add_of_beq_zero {x : Float} (h : (x == 0.0) = true) : 0.0 + x = 0.0 := by
  obtain ⟨s, hs⟩ := unpack_eq_zero_of_beq_zero h
  show Float.ofModel (Float.Model.pack (Float.Model.UnpackedFloat.add .binary64
    (0.0 : Float).toModel.unpack x.toModel.unpack)) = 0.0
  rw [unpack_zero, add_zero_left, hs]
  rfl

/-- Literals that are all zeros add up to positive zero, in any order. -/
theorem literalTotal_of_isZero : ∀ {ns : List Literal}, (∀ n ∈ ns, n.isZero = true) →
    ns.foldl (fun acc n => acc + n.value) 0.0 = 0.0
  | [], _ => rfl
  | n :: ns, h => by
    rw [List.foldl_cons, zero_add_of_beq_zero (h n List.mem_cons_self)]
    exact literalTotal_of_isZero fun m hm => h m (List.mem_cons_of_mem _ hm)

/-- The positive zero folds, in every format, to a literal zero. -/
theorem fold?_zero (k : FloatKind) : ∃ c, fold? 0.0 k = some c ∧ c.isZero = true := by
  cases k <;> exact ⟨_, rfl, by decide⟩

/-- A sum whose literals are all zeros keeps none of them. -/
theorem literalTail_of_isZero {ns : List Literal} (h : ∀ n ∈ ns, n.isZero = true) :
    literalTail ns = [] := by
  unfold literalTail
  split
  · rfl
  · obtain ⟨c, hc, hz⟩ := fold?_zero (ns.foldl (fun k n => k.common n.kind) .binary32)
    rw [literalTotal_of_isZero h, hc]
    simp [hz]

/-- A canonical sum whose literals are all zeros depends only on its terms, as a multiset up to
structural equality. -/
theorem sum_congr_of_isZero (t t' : NodeTag) {args args' : List Expr}
    (hterms : SameTerms (sumParts args).1 (sumParts args').1)
    (hz : ∀ n ∈ (sumParts args).2, n.isZero = true)
    (hz' : ∀ n ∈ (sumParts args').2, n.isZero = true) :
    (sum t args).beq (sum t' args') = true := by
  rw [sum_eq, sum_eq, literalTail_of_isZero hz, literalTail_of_isZero hz', List.append_nil,
    List.append_nil]
  exact ofTerms_congr t t' (mergeSort_argsEq_of_classes hterms)

/-! ## Reading through sums respects equality -/

/-- A relation between two lists holds of another relation that each related pair with its
left member in the list satisfies. -/
theorem forall₂_of_mem {α β : Type} {R S : α → β → Prop} {xs : List α} {ys : List β}
    (h : List.Forall₂ R xs ys) (himp : ∀ x ∈ xs, ∀ y, R x y → S x y) : List.Forall₂ S xs ys := by
  induction h with
  | nil => exact .nil
  | cons hxy _ ih =>
    exact .cons (himp _ List.mem_cons_self _ hxy)
      (ih fun x hx y hr => himp x (List.mem_cons_of_mem _ hx) y hr)

/-- Pairwise equal lists read through as pairwise equal terms, when their elements do. -/
theorem sumParts_fst_congr_of_forall₂ {xs ys : List Expr}
    (h : List.Forall₂ (fun x y => ArgsEq (sumParts [x]).1 (sumParts [y]).1) xs ys) :
    ArgsEq (sumParts xs).1 (sumParts ys).1 := by
  rw [sumParts_fst_eq_flatMap, sumParts_fst_eq_flatMap]
  induction h with
  | nil => exact .nil
  | cons hxy _ ih =>
    rw [List.flatMap_cons, List.flatMap_cons]
    exact List.rel_append hxy ih

/-- An atom other than a literal is equal only to such an atom, and both are read as
themselves. -/
theorem sumParts_atom_congr {x y : Expr} (hx : x.op? = none) (hnum : x.literal? = none)
    (hxy : x.beq y = true) : ArgsEq (sumParts [x]).1 (sumParts [y]).1 := by
  have hsum : x.isOp .sum = false := by cases x <;> simp_all [op?, isOp]
  have hy : y.literal? = none ∧ y.isOp .sum = false := by
    cases x <;> cases y <;> first | exact ⟨rfl, rfl⟩ | simp_all [beq, op?, literal?]
  rw [sumParts_plain hnum hsum, sumParts_plain hy.1 hy.2]
  exact .cons hxy .nil

/-- Equal expressions read through sums as pairwise equal terms. -/
theorem sumParts_single_congr (x : Expr) : ∀ y, x.beq y = true →
    ArgsEq (sumParts [x]).1 (sumParts [y]).1 := by
  induction x using recArgs with
  | func t op args h ih =>
    intro y hxy
    cases y with
    | func t' op' args' h' =>
      obtain ⟨-, rfl, hargs⟩ := func_beq_func.1 hxy
      by_cases hop : op = .sum
      · -- a sum is read through its arguments
        subst hop
        rw [sumParts_sum, sumParts_sum]
        exact sumParts_fst_congr_of_forall₂ (forall₂_of_mem hargs fun a ha b hab => ih a ha b hab)
      · have hsum : (Expr.func t op args h).isOp .sum = false := by simp [isOp, hop]
        have hsum' : (Expr.func t' op args' h').isOp .sum = false := by simp [isOp, hop]
        rw [sumParts_plain rfl hsum, sumParts_plain rfl hsum']
        exact .cons hxy .nil
    | _ => simp [beq] at hxy
  | num n =>
    intro y hxy
    cases y <;> simp [beq] at hxy
    rw [sumParts_num, sumParts_num]
    exact .nil
  | param | var | time => exact fun y hxy => sumParts_atom_congr rfl rfl hxy

/-- Pairwise equal lists read through sums as pairwise equal terms. -/
theorem sumParts_fst_congr {xs ys : List Expr} (h : ArgsEq xs ys) :
    ArgsEq (sumParts xs).1 (sumParts ys).1 :=
  sumParts_fst_congr_of_forall₂ (h.imp fun x y hxy => sumParts_single_congr x y hxy)

/-- Pairwise equal terms are the same multiset up to structural equality. -/
theorem ArgsEq.sameTerms {xs ys : List Expr} (h : ArgsEq xs ys) : SameTerms xs ys := by
  have : xs.map (Quotient.mk beqSetoid) = ys.map (Quotient.mk beqSetoid) := by
    induction h with
    | nil => rfl
    | cons hxy _ ih => rw [List.map_cons, List.map_cons, ih, Quotient.sound hxy]
  rw [SameTerms, this]

/-- Terms whose forgotten tags agree as multisets are the same multiset up to structural
equality. -/
theorem sameTerms_of_perm_erase {xs ys : List Expr} (h : (xs.map erase).Perm (ys.map erase)) :
    SameTerms xs ys := by
  have hmk : ∀ l : List Expr, l.map (Quotient.mk beqSetoid) =
      (l.map erase).map (Quotient.mk beqSetoid) := fun l => by
    rw [List.map_map]
    exact List.map_congr_left fun x _ => (Quotient.sound (erase_beq x)).symm
  rw [SameTerms, hmk xs, hmk ys]
  exact h.map _

/-! ## Parts of a series -/

/-- A term that a sum keeps as it is: neither a literal nor a sum. -/
def Plain (e : Expr) : Prop := e.literal? = none ∧ e.isOp .sum = false

/-- A part of a series: plain, and plain again when negated. -/
def Part (e : Expr) : Prop := Plain e ∧ ∀ t, Plain (neg t e)

/-- A sine or cosine node. -/
def Trig (e : Expr) : Prop := ∃ t op x h, e = .func t op [x] h ∧ (op = .sin ∨ op = .cos)

/-- What the canonical sine and cosine return: a sine or cosine node, possibly negated. -/
def TrigLike (e : Expr) : Prop := Trig e ∨ ∃ t x h, e = .func t .neg [x] h ∧ Trig x

theorem Trig.plain {e : Expr} (he : Trig e) : Plain e := by
  obtain ⟨t, op, x, h, rfl, hop⟩ := he
  rcases hop with rfl | rfl <;> exact ⟨rfl, rfl⟩

theorem Trig.not_neg {e : Expr} (he : Trig e) : ∀ t x h, e ≠ .func t .neg [x] h := by
  obtain ⟨t, op, x, h, rfl, hop⟩ := he
  intro t' x' h'
  rcases hop with rfl | rfl <;> simp

theorem TrigLike.plain {e : Expr} (he : TrigLike e) : Plain e := by
  rcases he with htrig | ⟨t, x, h, rfl, -⟩
  · exact htrig.plain
  · exact ⟨rfl, rfl⟩

/-- Negating a sine or a cosine, negated or not, gives one again. -/
theorem TrigLike.neg {e : Expr} (he : TrigLike e) (t : NodeTag) : TrigLike (neg t e) := by
  rcases he with htrig | ⟨t', x, h, rfl, hx⟩
  · -- a new negation node
    rw [neg_of_plain htrig.plain.1 htrig.not_neg]
    exact .inr ⟨t, e, _, rfl, htrig⟩
  · -- the negation node is dropped
    exact .inl hx

theorem TrigLike.part {e : Expr} (he : TrigLike e) : Part e :=
  ⟨he.plain, fun t => (he.neg t).plain⟩

theorem trigLike_sin (t : NodeTag) (x : Expr) : TrigLike (sin t x) := by
  induction t, x using sin.induct with
  | case1 t tag x hash ih =>
    rw [sin]
    exact ih.neg t
  | case2 t e hneg =>
    rw [sin_of_not_neg hneg]
    exact .inl ⟨t, .sin, e, _, rfl, .inl rfl⟩

theorem trigLike_cos (t : NodeTag) (x : Expr) : TrigLike (cos t x) := by
  induction x using cos.induct with
  | case1 tag x hash ih =>
    rw [cos]
    exact ih
  | case2 e hneg =>
    rw [cos_of_not_neg hneg]
    exact .inl ⟨t, .cos, e, _, rfl, .inr rfl⟩

/-- What the product rules read of a factor that is not a literal. -/
theorem factor_of_literal?_none {e : Expr} (he : e.literal? = none) :
    e.isZero = false ∧ e.isOne = false ∧ (∀ x, e.isValue x = false) ∧
      ∀ a, foldProduct? a e = none := by
  refine ⟨?_, ?_, fun x => ?_, fun a => ?_⟩ <;> cases e <;> try simp [literal?] at he
  all_goals first | rfl | cases a <;> rfl

theorem literal?_none_of_beq {b b' : Expr} (hb : b.beq b' = true) (hlit : b.literal? = none) :
    b'.literal? = none := by
  cases b <;> cases b' <;> simp_all [beq, literal?]

theorem literal_value (x : Float) : (Literal.ofFloat x).value = x := ofBits_toBits x

/-- A nonzero coefficient times a sine or a cosine is a part: the product is the factor, its
negation or a product node, never a literal. -/
theorem part_mul_literal (t : NodeTag) {c : Float} (hc : (c != 0.0) = true) {f : Expr}
    (hf : TrigLike f) : Part (mul t (literal c) f) := by
  have hz : (literal c).isZero = false := by
    simpa [literal, isZero, Literal.isZero, literal_value, bne] using hc
  obtain ⟨hfz, hfone, hfval, hfold⟩ := factor_of_literal?_none hf.plain.1
  rw [mul_eq, hfold]
  simp only [productRules, hz, hfz, hfone, hfval, Bool.or_false, Bool.false_eq_true, if_false]
  split_ifs
  · exact hf.part
  · exact (hf.neg t).part
  all_goals
    refine ⟨⟨rfl, rfl⟩, fun t' => ?_⟩
    rw [neg_of_plain rfl (by simp [node])]
    exact ⟨rfl, rfl⟩

/-! ## Sums of parts -/

/-- Arguments that a sum reads as parts and zeros only. -/
def PartsOnly (args : List Expr) : Prop :=
  (∀ y ∈ (sumParts args).1, Part y) ∧ ∀ n ∈ (sumParts args).2, n.isZero = true

theorem partsOnly_of_forall {args : List Expr} (h : ∀ x ∈ args, PartsOnly [x]) :
    PartsOnly args := by
  rw [PartsOnly, sumParts_fst_eq_flatMap, sumParts_snd_eq_flatMap]
  constructor
  · intro y hy
    obtain ⟨x, hx, hy⟩ := List.mem_flatMap.1 hy
    exact (h x hx).1 y hy
  · intro n hn
    obtain ⟨x, hx, hn⟩ := List.mem_flatMap.1 hn
    exact (h x hx).2 n hn

theorem partsOnly_of_parts {l : List Expr} (h : ∀ y ∈ l, Part y) : PartsOnly l := by
  rw [PartsOnly, sumParts_of_plain fun y hy => (h y hy).1]
  exact ⟨h, fun n hn => by simp at hn⟩

/-- A canonical sum of parts and zeros is its parts, sorted. -/
theorem sum_of_partsOnly (t : NodeTag) {args : List Expr} (h : PartsOnly args) :
    sum t args = ofTerms t ((sumParts args).1.mergeSort SortedBefore) := by
  rw [sum_eq, literalTail_of_isZero h.2, List.append_nil]

theorem sumLiterals_zero : sumLiterals zero = [Literal.ofFloat 0.0] := by
  rw [sumLiterals, zero, lit, sumParts_num]

/-- Parts put together by a sum are read as parts and zeros again. -/
theorem partsOnly_ofTerms (t : NodeTag) {l : List Expr} (h : ∀ y ∈ l, Part y) :
    PartsOnly [ofTerms t l] := by
  rcases l with _ | ⟨x, rest⟩
  · -- no parts: the zero
    refine ⟨fun y hy => ?_, fun n hn => ?_⟩
    · simp [ofTerms, zero, lit, sumParts_num] at hy
    · rw [ofTerms, ← sumLiterals, sumLiterals_zero, List.mem_singleton] at hn
      subst hn
      decide
  · rw [PartsOnly, sumParts_ofTerms t (List.cons_ne_nil x rest)]
    exact partsOnly_of_parts h

theorem partsOnly_sum (t : NodeTag) {args : List Expr} (h : PartsOnly args) :
    PartsOnly [sum t args] := by
  rw [sum_of_partsOnly t h]
  exact partsOnly_ofTerms t fun y hy => h.1 y (List.mem_mergeSort.1 hy)

/-- A sum of parts as the product rules and reading through sums see it: not a literal, no
literals read through it, and plain when negated. -/
def Settled (x : Expr) : Prop := x.literal? = none ∧ sumLiterals x = [] ∧ ∀ t, Plain (neg t x)

theorem settled_ofTerms (t : NodeTag) {l : List Expr} (hl : ∀ y ∈ l, Part y) (hne : l ≠ []) :
    Settled (ofTerms t l) := by
  have hlits : sumLiterals (ofTerms t l) = [] := by
    rw [sumLiterals, sumParts_ofTerms t hne, sumParts_of_plain fun y hy => (hl y hy).1]
  rcases l with _ | ⟨x, _ | ⟨b, rest⟩⟩
  · exact absurd rfl hne
  · exact ⟨(hl x List.mem_cons_self).1.1, hlits, (hl x List.mem_cons_self).2⟩
  · refine ⟨rfl, hlits, fun t' => ?_⟩
    rw [ofTerms_of_two_le t (by simp), neg_of_plain rfl (by simp [node])]
    exact ⟨rfl, rfl⟩

/-! ## Terms and groups -/

theorem partsOnly_poissonTerm (tag : NodeTag) (term : PoissonTerm) (args : List Expr) :
    PartsOnly [poissonTerm tag term args] := by
  refine partsOnly_sum tag (partsOnly_of_parts fun y hy => ?_)
  rcases List.mem_append.1 hy with hy | hy <;> split at hy <;>
    simp only [List.mem_singleton, List.not_mem_nil] at hy
  · rw [hy]
    exact part_mul_literal _ ‹_› (trigLike_sin _ _)
  · rw [hy]
    exact part_mul_literal _ ‹_› (trigLike_cos _ _)

/-- The terms of one power of time, summed. -/
def groupSum (tag : NodeTag) (group : List PoissonTerm) (args : List Expr) : Expr :=
  sum (tag.child 0)
    (group.zipIdx.map fun (term, i) => poissonTerm ((tag.child 1).child i) term args)

/-- An expression times a power of time, as a group of a series is. -/
def timesPower (tag : NodeTag) (t : Expr) (power : Nat) (x : Expr) : Expr :=
  match power with
  | 0 => x
  | 1 => mul tag t x
  | p => mul tag (pow (tag.child 2) t (literal (Float.ofNat p))) x

theorem poissonGroup_eq (tag : NodeTag) (t : Expr) (power : Nat) (group : List PoissonTerm)
    (args : List Expr) :
    poissonGroup tag t power group args = timesPower tag t power (groupSum tag group args) := by
  rcases power with _ | _ | p <;> rfl

theorem partsOnly_groupTerms (tag : NodeTag) (group : List PoissonTerm) (args : List Expr) :
    PartsOnly (group.zipIdx.map fun (term, i) => poissonTerm ((tag.child 1).child i) term args) :=
  partsOnly_of_forall fun x hx => by
    obtain ⟨⟨term, i⟩, -, rfl⟩ := List.mem_map.1 hx
    exact partsOnly_poissonTerm _ _ _

/-- A group sum is zero, when no term of the group has a part, or settled. -/
theorem groupSum_cases (tag : NodeTag) (group : List PoissonTerm) (args : List Expr) :
    groupSum tag group args = zero ∨ Settled (groupSum tag group args) := by
  have h := partsOnly_groupTerms tag group args
  rw [groupSum, sum_of_partsOnly _ h]
  by_cases hnil : (sumParts (group.zipIdx.map fun (term, i) =>
      poissonTerm ((tag.child 1).child i) term args)).1.mergeSort SortedBefore = []
  · exact .inl (by rw [hnil]; rfl)
  · exact .inr (settled_ofTerms _ (fun y hy => h.1 y (List.mem_mergeSort.1 hy)) hnil)

/-! ## Forgetting the tags of a term -/

theorem erase_literal (x : Float) : erase (literal x) = literal x := rfl

theorem erase_phase (tag : NodeTag) (ms : List Int) (args : List Expr) :
    erase (phase tag ms args) = phase .anon ms (args.map erase) := by
  simp only [phase, erase_sum, List.map_filterMap, List.zip_map_right, List.zipIdx_map,
    List.filterMap_map]
  congr 1
  refine List.filterMap_congr fun ⟨⟨m, a⟩, j⟩ _ => ?_
  by_cases hm : m = 0 <;> simp [hm, erase_mul, erase_literal]

theorem erase_poissonTerm (tag : NodeTag) (term : PoissonTerm) (args : List Expr) :
    erase (poissonTerm tag term args) = poissonTerm .anon term (args.map erase) := by
  simp only [poissonTerm, erase_sum, List.map_append]
  congr 1
  congr 1 <;> split <;>
    simp [erase_mul, erase_sin, erase_cos, erase_phase, erase_literal]

theorem map_erase_groupTerms (tag : NodeTag) (group : List PoissonTerm) (args : List Expr) :
    (group.zipIdx.map fun (term, i) => poissonTerm ((tag.child 1).child i) term args).map erase =
      group.map fun term => poissonTerm .anon term (args.map erase) := by
  conv_rhs => rw [← List.zipIdx_map_fst 0 group, List.map_map]
  rw [List.map_map]
  exact List.map_congr_left fun ⟨term, i⟩ _ => erase_poissonTerm _ _ _

/-- Reordering the terms of a group gives an equal group sum, whatever the tags. -/
theorem groupSum_beq (tag tag' : NodeTag) {group group' : List PoissonTerm}
    (hperm : group.Perm group') (args : List Expr) :
    (groupSum tag group args).beq (groupSum tag' group' args) = true := by
  have h := partsOnly_groupTerms tag group args
  have h' := partsOnly_groupTerms tag' group' args
  refine sum_congr_of_isZero _ _ (sameTerms_of_perm_erase ?_) h.2 h'.2
  have hfst : ∀ l : List Expr, (sumParts l).1.map erase = (sumParts (l.map erase)).1 :=
    fun l => by rw [sumParts_map_erase]
  rw [hfst, hfst, map_erase_groupTerms, map_erase_groupTerms]
  exact sumParts_fst_perm (hperm.map _)

/-- Reordering the terms of a group gives group sums that are both zero or both settled. -/
theorem groupSum_alike (tag tag' : NodeTag) {group group' : List PoissonTerm}
    (hperm : group.Perm group') (args : List Expr) :
    (groupSum tag group args).beq (groupSum tag' group' args) = true ∧
      ((groupSum tag group args = zero ∧ groupSum tag' group' args = zero) ∨
        (Settled (groupSum tag group args) ∧ Settled (groupSum tag' group' args))) := by
  have hbeq := groupSum_beq tag tag' hperm args
  refine ⟨hbeq, ?_⟩
  rcases groupSum_cases tag group args with h | h <;>
    rcases groupSum_cases tag' group' args with h' | h'
  · exact .inl ⟨h, h'⟩
  · -- a zero is equal to literals only
    rw [h] at hbeq
    have := literal?_none_of_beq (beq_symm _ _ hbeq) h'.1
    simp [zero, lit, literal?] at this
  · rw [h'] at hbeq
    have := literal?_none_of_beq hbeq h.1
    simp [zero, lit, literal?] at this
  · exact .inr ⟨h, h'⟩

/-! ## Products -/

/-- The canonical negation of structurally equal expressions that are not literals. -/
theorem neg_congr (t t' : NodeTag) {b b' : Expr} (hb : b.beq b' = true)
    (hlit : b.literal? = none) : (neg t b).beq (neg t' b') = true := by
  by_cases hneg : ∃ s x h, b = .func s .neg [x] h
  · -- a negation node on both sides: the operands
    obtain ⟨s, x, h, rfl⟩ := hneg
    cases b' with
    | func s' op' args' h' =>
      obtain ⟨-, rfl, hargs⟩ := func_beq_func.1 hb
      cases hargs with
      | cons hx hrest =>
        cases hrest
        exact hx
    | _ => simp [beq] at hb
  · simp only [not_exists] at hneg
    have hneg' : ∀ s x h, b' ≠ .func s .neg [x] h := by
      rintro s x h rfl
      cases b with
      | func s₀ op₀ args₀ h₀ =>
        obtain ⟨-, rfl, hargs⟩ := func_beq_func.1 hb
        cases hargs with
        | cons _ hrest =>
          cases hrest
          exact hneg s₀ _ h₀ rfl
      | _ => simp [beq] at hb
    rw [neg_of_plain hlit hneg, neg_of_plain (literal?_none_of_beq hb hlit) hneg']
    exact node_beq_node t t' .neg (.cons hb .nil)

/-- The canonical product of first factors that agree once tags are forgotten and of
structurally equal second factors that are not literals. -/
theorem mul_congr (t t' : NodeTag) {a a' b b' : Expr} (ha : erase a = erase a')
    (hb : b.beq b' = true) (hlit : b.literal? = none) :
    (mul t a b).beq (mul t' a' b') = true := by
  obtain ⟨hz, hone, hval, hfold⟩ := factor_of_literal?_none hlit
  obtain ⟨hz', hone', hval', hfold'⟩ := factor_of_literal?_none (literal?_none_of_beq hb hlit)
  have haz : a'.isZero = a.isZero := by rw [← isZero_erase, ← ha, isZero_erase]
  have haone : a'.isOne = a.isOne := by rw [← isOne_erase, ← ha, isOne_erase]
  have haval : a'.isValue (-1.0) = a.isValue (-1.0) := by
    rw [← isValue_erase, ← ha, isValue_erase]
  have hcmp : b'.cmp a' = b.cmp a := by
    rw [← cmp_erase b' a', ← ha, cmp_erase]
    exact Std.TransCmp.congr_left ((cmp_eq_iff_beq b' b).2 (beq_symm b b' hb))
  have haa : a.beq a' = true := beq_of_erase_eq ha
  rw [mul_eq, mul_eq, hfold, hfold']
  simp only [productRules, hz, hz', hone, hone', hval, hval', haz, haone, haval, hcmp,
    Bool.or_false, Bool.false_eq_true, if_false]
  split_ifs
  · exact beq_self _
  · exact hb
  · exact neg_congr t t' hb hlit
  · exact node_beq_node t t' .mul (.cons hb (.cons haa .nil))
  · exact node_beq_node t t' .mul (.cons haa (.cons hb .nil))

theorem sumLiterals_erase (x : Expr) : sumLiterals (erase x) = sumLiterals x := by
  have h := sumParts_map_erase [x]
  rw [List.map_singleton] at h
  rw [sumLiterals, sumLiterals, h]

/-- A sum reads through the product of a factor and a settled expression the zero when the
factor is zero, and no literal otherwise. -/
theorem sumLiterals_mul_settled (t : NodeTag) (a : Expr) {x : Expr} (hx : Settled x) :
    sumLiterals (mul t a x) = if a.isZero then sumLiterals zero else [] := by
  obtain ⟨hz, hone, hval, hfold⟩ := factor_of_literal?_none hx.1
  have hnode : ∀ l, sumLiterals (node t .mul l) = [] := fun l => by
    rw [sumLiterals, sumParts_plain rfl (by simp [node, isOp])]
  rw [mul_eq, hfold]
  simp only [productRules, hz, hone, hval, Bool.or_false, Bool.false_eq_true, if_false]
  split_ifs
  · rfl
  · exact hx.2.1
  · obtain ⟨hn, hs⟩ := hx.2.2 t
    rw [sumLiterals, sumParts_plain hn hs]
  · exact hnode _
  · exact hnode _

/-- Products by factors that agree once tags are forgotten, of group sums that are both zero or
both settled and structurally equal: equal, with the same literals read through them. -/
theorem mul_alike (t t' : NodeTag) {a a' x x' : Expr} (ha : erase a = erase a')
    (hx : x.beq x' = true) (hshape : (x = zero ∧ x' = zero) ∨ (Settled x ∧ Settled x')) :
    (mul t a x).beq (mul t' a' x') = true ∧ sumLiterals (mul t a x) = sumLiterals (mul t' a' x') := by
  rcases hshape with ⟨rfl, rfl⟩ | ⟨hs, hs'⟩
  · -- times zero: the products agree once tags are forgotten
    have he : erase (mul t a zero) = erase (mul t' a' zero) := by rw [erase_mul, erase_mul, ha]
    refine ⟨beq_of_erase_eq he, ?_⟩
    rw [← sumLiterals_erase, he, sumLiterals_erase]
  · refine ⟨mul_congr t t' ha hx hs.1, ?_⟩
    rw [sumLiterals_mul_settled t a hs, sumLiterals_mul_settled t' a' hs', ← isZero_erase a',
      ← ha, isZero_erase]

/-- A group sum and a reordered one, times one power of time. -/
theorem timesPower_alike (tag tag' : NodeTag) (t : Expr) (p : Nat) {x x' : Expr}
    (hx : x.beq x' = true) (hshape : (x = zero ∧ x' = zero) ∨ (Settled x ∧ Settled x')) :
    (timesPower tag t p x).beq (timesPower tag' t p x') = true ∧
      sumLiterals (timesPower tag t p x) = sumLiterals (timesPower tag' t p x') := by
  match p with
  | 0 =>
    refine ⟨hx, ?_⟩
    rcases hshape with ⟨rfl, rfl⟩ | ⟨hs, hs'⟩
    · rfl
    · exact hs.2.1.trans hs'.2.1.symm
  | 1 => exact mul_alike tag tag' rfl hx hshape
  | p + 2 => exact mul_alike tag tag' (by rw [erase_pow, erase_pow]) hx hshape

/-! ## The series -/

/-- The powers of time of a table, in increasing order, each once. -/
def powersOf (terms : List PoissonTerm) : List Nat :=
  ((terms.map (·.tPower)).mergeSort (· ≤ ·)).eraseDups

/-- The groups of a series, one per power of time. -/
def seriesGroups (tag : NodeTag) (terms : List PoissonTerm) (args : List Expr) (t : Expr) :
    List Expr :=
  (powersOf terms).zipIdx.map fun (p, g) =>
    timesPower (tag.child g) t p (groupSum (tag.child g) (terms.filter (·.tPower == p)) args)

/-- On a table of accepted rows the checks pass, and the series is the canonical sum of its
groups. -/
theorem poissonSeries_eq (tag : NodeTag) {terms : List PoissonTerm} {args : List Expr} (t : Expr)
    (hok : ∀ term ∈ terms, term.Accepted args) :
    poissonSeries tag terms args t = .ok (sum tag (seriesGroups tag terms args t)) := by
  unfold poissonSeries
  rw [Decomposition.forIn_except_ok _ _ fun x hx => ?_]
  · simp only [seriesGroups, powersOf, poissonGroup_eq]
    rfl
  · obtain ⟨term, i⟩ := x
    obtain ⟨hi, hterm⟩ := List.mem_zipIdx' hx
    obtain ⟨hlen, hsin, hcos⟩ := hok term (hterm ▸ List.getElem_mem hi)
    simp [hlen, hsin, hcos]

theorem powersOf_perm {terms terms' : List PoissonTerm} (h : terms.Perm terms') :
    powersOf terms = powersOf terms' := by
  have hsorted : ∀ l : List Nat,
      (l.mergeSort (· ≤ ·)).Pairwise (fun a b => decide (a ≤ b) = true) :=
    List.pairwise_mergeSort (fun a b c hab hbc => by simp at *; omega) (fun a b => by simp; omega)
  unfold powersOf
  congr 1
  exact List.Perm.eq_of_pairwise (fun a b _ _ hab hba => by simp at hab hba; omega)
    (hsorted _) (hsorted _)
    (((List.mergeSort_perm _ _).trans (h.map _)).trans (List.mergeSort_perm _ _).symm)

/-- Reordering a table gives, power by power, equal groups with the same literals read through
them. -/
theorem seriesGroups_alike (tag tag' : NodeTag) {terms terms' : List PoissonTerm}
    (h : terms.Perm terms') (args : List Expr) (t : Expr) :
    List.Forall₂ (fun g g' => g.beq g' = true ∧ sumLiterals g = sumLiterals g')
      (seriesGroups tag terms args t) (seriesGroups tag' terms' args t) := by
  rw [seriesGroups, seriesGroups, powersOf_perm h]
  refine List.forall₂_map_left_iff.2 (List.forall₂_map_right_iff.2 (List.forall₂_same.2 ?_))
  rintro ⟨p, g⟩ -
  obtain ⟨hbeq, hshape⟩ := groupSum_alike (tag.child g) (tag'.child g) (h.filter _) args
  exact timesPower_alike _ _ t p hbeq hshape

/-- Expressions that bring the same literals one by one bring the same literals together. -/
theorem flatMap_sumLiterals_eq {l l' : List Expr}
    (h : List.Forall₂ (fun g g' => sumLiterals g = sumLiterals g') l l') :
    l.flatMap sumLiterals = l'.flatMap sumLiterals := by
  induction h with
  | nil => rfl
  | cons hg _ ih => rw [List.flatMap_cons, List.flatMap_cons, hg, ih]

/-- A Poisson series does not depend on the order of its table: every reordering of a table of
accepted rows is accepted and gives an equal series, whatever the tags of the two. -/
theorem poissonSeries_perm (tag tag' : NodeTag) {terms terms' : List PoissonTerm}
    (hperm : terms.Perm terms') (args : List Expr) (t : Expr)
    (hok : ∀ term ∈ terms, term.Accepted args) :
    ∃ e e', poissonSeries tag terms args t = .ok e ∧ poissonSeries tag' terms' args t = .ok e' ∧
      e.beq e' = true := by
  have hok' : ∀ term ∈ terms', term.Accepted args := fun term h => hok term (hperm.mem_iff.2 h)
  refine ⟨_, _, poissonSeries_eq tag t hok, poissonSeries_eq tag' t hok', ?_⟩
  have hgroups := seriesGroups_alike tag tag' hperm args t
  refine sum_congr tag tag' (sumParts_fst_congr (hgroups.imp fun _ _ h => h.1)).sameTerms ?_
  rw [sumParts_snd_eq_flatMap, sumParts_snd_eq_flatMap]
  exact flatMap_sumLiterals_eq (hgroups.imp fun _ _ h => h.2)

/-- A table with a row of zero coefficients, a row of zero multipliers and two powers of
time. -/
def sampleTable : List PoissonTerm :=
  [⟨0, 0.5, 0.0, [1, 0]⟩, ⟨1, 0.0, 0.0, [0, 2]⟩, ⟨0, 1.0, -2.0, [0, 0]⟩, ⟨1, 3.0, 0.25, [1, -1]⟩]

theorem sampleTable_reversed :
    sampleTable.Perm sampleTable.reverse ∧
      (∀ term ∈ sampleTable, term.Accepted [var "a", var "b"]) ∧
      ∃ e e', poissonSeries .anon sampleTable [var "a", var "b"] time = .ok e ∧
        poissonSeries (.path [1]) sampleTable.reverse [var "a", var "b"] time = .ok e' ∧
        e.beq e' = true :=
  ⟨(List.reverse_perm _).symm, by decide,
    poissonSeries_perm .anon (.path [1]) (List.reverse_perm _).symm _ _ (by decide)⟩

end Expr

end TaylorOde
