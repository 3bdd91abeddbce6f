import TaylorOde.Proofs.Expr.Equality
import Mathlib
/-!
# The canonical order of expressions

`Expr.cmp` sorts the terms of sums and the factors of products. It is a total preorder whose
ties are exactly the structurally equal expressions:

* swapping its arguments swaps its answer (`cmp_swap`);
* any three expressions compare consistently (`cmpChain`): the order is transitive, and
  ties pass comparisons on. Across kinds it compares ranks; within a kind it compares
  literals by the total order of their bits (`totalKey` is one to one), atoms by index or
  name, and function nodes by operator, length, hash and then their arguments from the left;
* it ties two expressions exactly when they are structurally equal (`cmp_eq_iff_beq`).

These make `Expr.cmp` a lawful comparison in the sense of `Std.TransCmp`. Sorting by it
then forgets the order of its input up to structural equality: two arrangements of the same
terms sort to structurally equal lists (`mergeSort_argsEq`).
-/

namespace TaylorOde

/-- Three comparisons, of `a` with `b`, of `b` with `c` and of `a` with `c`, are consistent:
equal neighbours pass the other comparison on, and two steps the same way give that way. -/
structure CmpChain (ab bc ac : Ordering) : Prop where
  eq_left : ab = .eq → ac = bc
  eq_right : bc = .eq → ac = ab
  lt : ab = .lt → bc = .lt → ac = .lt
  gt : ab = .gt → bc = .gt → ac = .gt

namespace CmpChain

/-- Any lawful comparison chains. -/
theorem of_compare {α : Type} [Ord α] [Std.TransOrd α] [Std.LawfulEqOrd α] (a b c : α) :
    CmpChain (compare a b) (compare b c) (compare a c) where
  eq_left h := by rw [Std.LawfulEqOrd.eq_of_compare h]
  eq_right h := by rw [Std.LawfulEqOrd.eq_of_compare h]
  lt := Std.TransCmp.lt_trans
  gt := Std.TransCmp.gt_trans

/-- When `a` compares with `c` as with `b`, and not as equal, the three chain whatever `b`
and `c` give. -/
theorem of_left {k o : Ordering} (hk : k ≠ .eq) : CmpChain k o k :=
  ⟨fun h => absurd h hk, fun _ => rfl, fun h _ => h, fun h _ => h⟩

/-- When `a` compares with `c` as `b` does, and not as equal, the three chain whatever `a`
and `b` give. -/
theorem of_right {k o : Ordering} (hk : k ≠ .eq) : CmpChain o k k :=
  ⟨fun _ => rfl, fun h => absurd h hk, fun _ h => h, fun _ h => h⟩

/-- Two steps in opposite ways say nothing of `a` and `c`. -/
theorem of_lt_gt (o : Ordering) : CmpChain .lt .gt o := ⟨nofun, nofun, nofun, nofun⟩

theorem of_gt_lt (o : Ordering) : CmpChain .gt .lt o := ⟨nofun, nofun, nofun, nofun⟩

/-- A comparison that decides before the next one keeps the chain: the lexicographic
combination of two chains is a chain. -/
theorem lex {h₁ h₂ h₃ r₁ r₂ r₃ : Ordering} (h : CmpChain h₁ h₂ h₃)
    (hr : h₁ = .eq → h₂ = .eq → CmpChain r₁ r₂ r₃) :
    CmpChain (h₁.then r₁) (h₂.then r₂) (h₃.then r₃) := by
  cases h₁ <;> cases h₂
  case eq.eq => rw [h.eq_left rfl]; exact hr rfl rfl
  case eq.lt => rw [h.eq_left rfl]; exact of_right nofun
  case eq.gt => rw [h.eq_left rfl]; exact of_right nofun
  case lt.eq => rw [h.eq_right rfl]; exact of_left nofun
  case gt.eq => rw [h.eq_right rfl]; exact of_left nofun
  case lt.lt => rw [h.lt rfl rfl]; exact of_left nofun
  case gt.gt => rw [h.gt rfl rfl]; exact of_left nofun
  case lt.gt => exact of_lt_gt _
  case gt.lt => exact of_gt_lt _

end CmpChain

/-- Operators are told apart by their positions. -/
theorem Op.index_inj_iff {o o' : Op} : o.index = o'.index ↔ o = o' := by
  have hinv : ∀ p : Op, Op.ofIndex? p.index = some p := by
    intro p
    cases p <;> rfl
  refine ⟨fun h => Option.some.inj ((hinv o).symm.trans (h ▸ hinv o')), fun h => h ▸ rfl⟩

namespace Expr

/-! ## Comparing one kind at a time -/

/-- The total order of binary64 bits moves negative values below the rest by flipping all
their bits, and positive ones above by setting the sign bit. -/
theorem totalKey_toNat (x : UInt64) :
    (totalKey x).toNat = if 2 ^ 63 ≤ x.toNat then 2 ^ 64 - 1 - x.toNat else x.toNat + 2 ^ 63 := by
  have hx := x.toNat_lt
  have hshift : (x >>> 63).toNat = x.toNat / 2 ^ 63 := by
    simp [UInt64.toNat_shiftRight, Nat.shiftRight_eq_div_pow]
  unfold totalKey
  by_cases h : 2 ^ 63 ≤ x.toNat
  · have : x >>> 63 = 1 := UInt64.toNat_inj.1 (by rw [hshift]; simp; omega)
    rw [if_pos h, this, if_pos (show ((1 : UInt64) == 1) = true from rfl)]
    simp [UInt64.toNat_not]
  · have : (x >>> 63 == 1) = false := by
      simp only [beq_eq_false_iff_ne, ne_eq, ← UInt64.toNat_inj, hshift]
      simp
      omega
    simp only [this, h, Bool.false_eq_true, if_false, UInt64.toNat_or]
    exact Nat.or_two_pow_eq_add_of_lt (n := 63) (by omega)

/-- Literals with the same place in the total order have the same bits. -/
theorem totalKey_inj {x y : UInt64} (h : totalKey x = totalKey y) : x = y := by
  have h' := congrArg UInt64.toNat h
  rw [totalKey_toNat, totalKey_toNat] at h'
  have := x.toNat_lt
  have := y.toNat_lt
  apply UInt64.toNat_inj.1
  split at h' <;> split at h' <;> omega

/-- Expressions of different kinds compare by rank alone. -/
theorem cmp_of_rank_ne {a b : Expr} (h : a.rank ≠ b.rank) : a.cmp b = compare a.rank b.rank := by
  cases a <;> cases b <;> simp_all [rank, cmp]

/-- Arguments compare lexicographically. -/
theorem cmpArgs_cons (x y : Expr) (xs ys : List Expr) :
    cmp.cmpArgs (x :: xs) (y :: ys) = (x.cmp y).then (cmp.cmpArgs xs ys) := by
  simp only [cmp.cmpArgs]
  split <;> simp_all [Ordering.then]

theorem cmp_func (t t' : NodeTag) (o o' : Op) (xs ys : List Expr) (h h' : UInt64) :
    (Expr.func t o xs h).cmp (.func t' o' ys h') =
      (compare o.index o'.index).then
        ((compare xs.length ys.length).then ((compare h h').then (cmp.cmpArgs xs ys))) := by
  simp [cmp]

theorem cmp_swap_of_rank_ne {a b : Expr} (h : a.rank ≠ b.rank) : b.cmp a = (a.cmp b).swap := by
  rw [cmp_of_rank_ne h, cmp_of_rank_ne (Ne.symm h)]
  exact Std.OrientedOrd.eq_swap

/-! ## Swapping and chaining -/

/-- Swapping the arguments of the canonical order swaps its answer. -/
theorem cmp_swap (a : Expr) : ∀ b, b.cmp a = (a.cmp b).swap := by
  -- induction over the expression and, alongside, over argument lists
  refine @Expr.rec (fun a => ∀ b, b.cmp a = (a.cmp b).swap)
    (fun xs => ∀ ys, cmp.cmpArgs ys xs = (cmp.cmpArgs xs ys).swap)
    ?num ?param ?var ?time ?func ?nil ?cons a
  case num =>
    intro x b
    cases b
    case num y => exact Std.OrientedOrd.eq_swap
    all_goals exact cmp_swap_of_rank_ne (by simp [rank])
  case param =>
    intro i b
    cases b
    case param j => exact Std.OrientedOrd.eq_swap
    all_goals exact cmp_swap_of_rank_ne (by simp [rank])
  case var =>
    intro v b
    cases b
    case var w => exact Std.OrientedOrd.eq_swap
    all_goals exact cmp_swap_of_rank_ne (by simp [rank])
  case time =>
    intro b
    cases b
    case time => rfl
    all_goals exact cmp_swap_of_rank_ne (by simp [rank])
  case func =>
    intro t o xs h ih b
    cases b
    case func t' o' ys h' =>
      rw [cmp_func, cmp_func, ih ys]
      simp only [Ordering.swap_then, ← Std.OrientedOrd.eq_swap]
    all_goals exact cmp_swap_of_rank_ne (by simp [rank])
  case nil =>
    intro ys
    cases ys <;> rfl
  case cons =>
    intro x xs ihx ihxs ys
    cases ys
    case nil => rfl
    case cons y ys => rw [cmpArgs_cons, cmpArgs_cons, ihx y, ihxs ys, Ordering.swap_then]


/-- Across kinds the order compares ranks, so a triple that is not of one kind chains. -/
theorem cmpChain_of_rank {a b c : Expr} (h : ¬(a.rank = b.rank ∧ b.rank = c.rank)) :
    CmpChain (a.cmp b) (b.cmp c) (a.cmp c) := by
  have hne : ∀ {x y : Nat}, x ≠ y → compare x y ≠ .eq := fun hxy hc =>
    hxy (Std.LawfulEqOrd.eq_of_compare hc)
  by_cases hab : a.rank = b.rank
  · have hbc : b.rank ≠ c.rank := fun hbc => h ⟨hab, hbc⟩
    have hac : a.rank ≠ c.rank := fun hac => hbc (hab.symm.trans hac)
    rw [cmp_of_rank_ne hbc, cmp_of_rank_ne hac, hab]
    exact CmpChain.of_right (hne hbc)
  by_cases hbc : b.rank = c.rank
  · have hac : a.rank ≠ c.rank := fun hac => hab (hac.trans hbc.symm)
    rw [cmp_of_rank_ne hab, cmp_of_rank_ne hac, ← hbc]
    exact CmpChain.of_left (hne hab)
  by_cases hac : a.rank = c.rank
  · -- there and back: the two steps go opposite ways
    rw [cmp_of_rank_ne hab, cmp_of_rank_ne hbc, ← hac, Std.OrientedOrd.eq_swap (a := b.rank)]
    cases hk : compare a.rank b.rank
    · exact CmpChain.of_lt_gt _
    · exact absurd hk (hne hab)
    · exact CmpChain.of_gt_lt _
  · rw [cmp_of_rank_ne hab, cmp_of_rank_ne hbc, cmp_of_rank_ne hac]
    exact CmpChain.of_compare _ _ _

/-- The canonical order is transitive: any three expressions chain. -/
theorem cmpChain (a : Expr) : ∀ b c, CmpChain (a.cmp b) (b.cmp c) (a.cmp c) := by
  -- induction over the expression and, alongside, over argument lists of one length
  refine @Expr.rec (fun a => ∀ b c, CmpChain (a.cmp b) (b.cmp c) (a.cmp c))
    (fun xs => ∀ ys zs, ys.length = xs.length → zs.length = xs.length →
      CmpChain (cmp.cmpArgs xs ys) (cmp.cmpArgs ys zs) (cmp.cmpArgs xs zs))
    ?num ?param ?var ?time ?func ?nil ?cons a
  case num =>
    intro x b c
    by_cases hr : (num x).rank = b.rank ∧ b.rank = c.rank
    · cases b <;> cases c <;> simp [rank] at hr
      exact CmpChain.of_compare _ _ _
    · exact cmpChain_of_rank hr
  case param =>
    intro i b c
    by_cases hr : (param i).rank = b.rank ∧ b.rank = c.rank
    · cases b <;> cases c <;> simp [rank] at hr
      exact CmpChain.of_compare _ _ _
    · exact cmpChain_of_rank hr
  case var =>
    intro v b c
    by_cases hr : (var v).rank = b.rank ∧ b.rank = c.rank
    · cases b <;> cases c <;> simp [rank] at hr
      exact CmpChain.of_compare _ _ _
    · exact cmpChain_of_rank hr
  case time =>
    intro b c
    by_cases hr : time.rank = b.rank ∧ b.rank = c.rank
    · cases b <;> cases c <;> simp [rank] at hr
      exact ⟨fun _ => rfl, fun _ => rfl, nofun, nofun⟩
    · exact cmpChain_of_rank hr
  case func =>
    intro t o xs h ih b c
    by_cases hr : (func t o xs h).rank = b.rank ∧ b.rank = c.rank
    · cases b <;> cases c <;> simp [rank] at hr
      rename_i t₂ o₂ ys h₂ t₃ o₃ zs h₃
      rw [cmp_func, cmp_func, cmp_func]
      -- operator, then length, then hash, then the arguments from the left
      refine (CmpChain.of_compare _ _ _).lex fun _ _ => (CmpChain.of_compare _ _ _).lex
        fun hxy hyz => (CmpChain.of_compare _ _ _).lex fun _ _ => ih ys zs ?_ ?_
      · exact (Std.LawfulEqOrd.eq_of_compare hxy).symm
      · exact (Std.LawfulEqOrd.eq_of_compare hyz).symm.trans
          (Std.LawfulEqOrd.eq_of_compare hxy).symm
    · exact cmpChain_of_rank hr
  case nil =>
    intro ys zs hys hzs
    rw [List.length_nil, List.length_eq_zero_iff] at hys hzs
    subst hys hzs
    exact ⟨fun _ => rfl, fun _ => rfl, nofun, nofun⟩
  case cons =>
    intro x xs ihx ihxs ys zs hys hzs
    cases ys with
    | nil => cases hys
    | cons y ys =>
      cases zs with
      | nil => cases hzs
      | cons z zs =>
        simp only [List.length_cons, Nat.add_right_cancel_iff] at hys hzs
        rw [cmpArgs_cons, cmpArgs_cons, cmpArgs_cons]
        exact (ihx y z).lex fun _ _ => ihxs ys zs hys hzs

/-! ## A lawful comparison -/

instance : Std.OrientedCmp Expr.cmp where
  eq_swap {a b} := cmp_swap b a

instance : Std.TransCmp Expr.cmp where
  isLE_trans {a b c} hab hbc := by
    have h := cmpChain a b c
    cases hab' : a.cmp b <;> cases hbc' : b.cmp c <;> simp_all [h.lt, h.eq_left, h.eq_right]

/-- Two expressions are equal in the canonical order exactly when they are structurally
equal. -/
theorem cmp_eq_iff_beq (a : Expr) : ∀ b, a.cmp b = .eq ↔ a.beq b = true := by
  refine @Expr.rec (fun a => ∀ b, a.cmp b = .eq ↔ a.beq b = true)
    (fun xs => ∀ ys, xs.length = ys.length → (cmp.cmpArgs xs ys = .eq ↔ ArgsEq xs ys))
    ?num ?param ?var ?time ?func ?nil ?cons a
  case num =>
    intro x b
    cases b
    case num y =>
      simp only [cmp, beq, Literal.same, beq_iff_eq, Std.LawfulEqOrd.compare_eq_iff_eq]
      exact ⟨totalKey_inj, congrArg totalKey⟩
    all_goals simp [cmp, beq, rank]
  case param =>
    intro i b
    cases b
    case param j => simp [cmp, beq]
    all_goals simp [cmp, beq, rank]
  case var =>
    intro v b
    cases b
    case var w => simp [cmp, beq]
    all_goals simp [cmp, beq, rank]
  case time =>
    intro b
    cases b
    case time => simp [cmp, beq]
    all_goals simp [cmp, beq, rank]
  case func =>
    intro t o xs h ih b
    cases b
    case func t' o' ys h' =>
      rw [cmp_func, func_beq_func]
      simp only [Ordering.then_eq_eq, Std.LawfulEqOrd.compare_eq_iff_eq, Op.index_inj_iff]
      constructor
      · rintro ⟨ho, hlen, hh, hargs⟩
        exact ⟨hh, ho, (ih ys hlen).1 hargs⟩
      · rintro ⟨hh, ho, hargs⟩
        exact ⟨ho, hargs.length_eq, hh, (ih ys hargs.length_eq).2 hargs⟩
    all_goals simp [cmp, beq, rank]
  case nil =>
    intro ys hys
    rw [List.length_nil, eq_comm, List.length_eq_zero_iff] at hys
    subst hys
    exact ⟨fun _ => .nil, fun _ => rfl⟩
  case cons =>
    intro x xs ihx ihxs ys hys
    cases ys with
    | nil => cases hys
    | cons y ys =>
      simp only [List.length_cons, Nat.add_right_cancel_iff] at hys
      rw [cmpArgs_cons, Ordering.then_eq_eq, ihx y, ihxs ys hys]
      exact ⟨fun h => .cons h.1 h.2, fun h => by cases h; constructor <;> assumption⟩

instance : Std.LawfulBEqCmp Expr.cmp where
  compare_eq_iff_beq {a b} := cmp_eq_iff_beq a b

/-- The canonical order is a total order on expressions up to `==`: swapping the arguments
reverses the answer, the ties are exactly the pairs equal under `==`, and it is transitive. -/
theorem cmp_total_order (a b c : Expr) :
    a.cmp b = (b.cmp a).swap ∧ (a.cmp b = .eq ↔ (a == b) = true) ∧
      (a.cmp b = .lt → b.cmp c = .lt → a.cmp c = .lt) := by
  refine ⟨?_, cmp_eq_iff_beq a b, (cmpChain a b c).lt⟩
  rw [cmp_swap a b, Ordering.swap_swap]


/-! ## Sorting by the canonical order -/

/-- Expressions up to structural equality. -/
def beqSetoid : Setoid Expr where
  r a b := a.beq b = true
  iseqv := ⟨beq_self, beq_symm _ _, beq_trans _ _ _⟩

/-- The order `sum` sorts its terms by: `a` may come before `b`. -/
def SortedBefore (a b : Expr) : Bool := a.cmp b != .gt

/-- Structurally equal expressions sit alike in the canonical order. -/
theorem sortedBefore_congr {a₁ a₂ b₁ b₂ : Expr} (ha : a₁.beq a₂ = true) (hb : b₁.beq b₂ = true) :
    SortedBefore a₁ b₁ = SortedBefore a₂ b₂ := by
  have ha' : a₁.cmp a₂ = .eq := (cmp_eq_iff_beq a₁ a₂).2 ha
  have hb' : b₁.cmp b₂ = .eq := (cmp_eq_iff_beq b₁ b₂).2 hb
  unfold SortedBefore
  rw [Std.TransCmp.congr_left ha', Std.TransCmp.congr_right hb']

/-- The canonical order on expressions up to structural equality. -/
def classBefore : Quotient beqSetoid → Quotient beqSetoid → Prop :=
  Quotient.lift₂ (fun a b => SortedBefore a b = true) fun _ _ _ _ ha hb =>
    congrArg (· = true) (sortedBefore_congr ha hb)

/-- Up to structural equality the canonical order is antisymmetric. -/
theorem classBefore_antisymm (x y : Quotient beqSetoid) (hxy : classBefore x y)
    (hyx : classBefore y x) : x = y := by
  induction x, y using Quotient.inductionOn₂ with
  | h a b =>
    change (a.cmp b != .gt) = true at hxy
    change (b.cmp a != .gt) = true at hyx
    refine Quotient.sound ((cmp_eq_iff_beq a b).1 ?_)
    rw [cmp_swap a b] at hyx
    cases h : a.cmp b <;> simp_all

theorem sortedBefore_trans {a b c : Expr} (hab : SortedBefore a b = true)
    (hbc : SortedBefore b c = true) : SortedBefore a c = true := by
  simp only [SortedBefore, bne_iff_ne, ne_eq, ← Ordering.isLE_iff_ne_gt] at hab hbc ⊢
  exact Std.TransCmp.isLE_trans hab hbc

theorem sortedBefore_total (a b : Expr) : (SortedBefore a b || SortedBefore b a) = true := by
  simp only [SortedBefore, Bool.or_eq_true, bne_iff_ne, ne_eq]
  rw [cmp_swap a b]
  cases a.cmp b <;> simp

/-- Sorting by the canonical order gives a list in canonical order. -/
theorem pairwise_mergeSort_sortedBefore (l : List Expr) :
    (l.mergeSort SortedBefore).Pairwise (fun a b => SortedBefore a b = true) :=
  @List.pairwise_mergeSort _ SortedBefore (fun _ _ _ => sortedBefore_trans) sortedBefore_total l

/-- Sorting two lists whose terms agree up to order and structural equality gives
structurally equal lists: terms the order cannot tell apart are structurally equal. -/
theorem mergeSort_argsEq_of_classes {l₁ l₂ : List Expr}
    (h : (l₁.map (Quotient.mk beqSetoid)).Perm (l₂.map (Quotient.mk beqSetoid))) :
    ArgsEq (l₁.mergeSort SortedBefore) (l₂.mergeSort SortedBefore) := by
  have hsorted : ∀ l : List Expr, ((l.mergeSort SortedBefore).map
      (Quotient.mk beqSetoid)).Pairwise classBefore := fun l =>
    List.Pairwise.map _ (fun _ _ h => h) (pairwise_mergeSort_sortedBefore l)
  have heq : (l₁.mergeSort SortedBefore).map (Quotient.mk beqSetoid) =
      (l₂.mergeSort SortedBefore).map (Quotient.mk beqSetoid) :=
    List.Perm.eq_of_pairwise (fun x y _ _ => classBefore_antisymm x y) (hsorted l₁) (hsorted l₂)
      ((((List.mergeSort_perm l₁ _).map _).trans h).trans
        ((List.mergeSort_perm l₂ _).map _).symm)
  have hmap : List.Forall₂ Eq ((l₁.mergeSort SortedBefore).map (Quotient.mk beqSetoid))
      ((l₂.mergeSort SortedBefore).map (Quotient.mk beqSetoid)) := by
    rw [heq]
    exact List.forall₂_refl _
  exact (List.forall₂_map_right_iff.1 (List.forall₂_map_left_iff.1 hmap)).imp
    fun _ _ h => Quotient.exact h

/-- Sorting two arrangements of the same terms gives structurally equal lists. -/
theorem mergeSort_argsEq {l₁ l₂ : List Expr} (h : l₁.Perm l₂) :
    ArgsEq (l₁.mergeSort SortedBefore) (l₂.mergeSort SortedBefore) :=
  mergeSort_argsEq_of_classes (h.map _)

end Expr

end TaylorOde
