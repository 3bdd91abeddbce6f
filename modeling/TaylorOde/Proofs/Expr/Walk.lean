import TaylorOde.Proofs.Expr.Nodes
import TaylorOde.Expr.Derivative
import Mathlib
/-!
# The post-order walk

`postOrderFrom` walks an expression depth first: a function node whose key was not seen yet is
marked, its arguments are walked from the left, and then it is recorded. Whatever the
expression, a walk keeps the keys seen and records nodes of pairwise distinct keys that were
not seen before (`Walked`).

`postOrder`, which the gradient runs, does the walk as a loop over a work stack.
`postOrderLoop_eq_foldl` reads the loop as the fold of `walkEntry` over its stack: an entry not
yet expanded stands for the walk from it, an expanded one for recording its node. An argument
the loop leaves out was seen when its node was expanded, so the walk from it changes nothing
(`foldl_filter_unseen`). Fuel that covers the cost of the stack, twice the tree size of each
entry not yet expanded and one for each expanded one, is enough, so `postOrder` records what the
walk from the root records (`postOrder_eq`).
-/

namespace TaylorOde

namespace Expr

theorem isFunc_eq_false {e : Expr} (h : ∀ t op args hash, ¬e = .func t op args hash) :
    e.isFunc = false := by
  cases e with
  | func t op args hash => exact absurd rfl (h t op args hash)
  | _ => rfl

/-! ## What every walk does -/

/-- A key in a set of keys and one outside it differ. -/
theorem beq_eq_false_of_mem {S : Std.HashSet NodeKey} {k k' : NodeKey} (hk : k ∈ S)
    (hk' : k' ∉ S) : (k == k') = false := by
  cases h : k == k'
  · rfl
  · exact absurd ((Std.HashSet.mem_congr h).1 hk) hk'

/-- What a walk from `acc` to `acc'` does: seen keys stay seen, and the record grows by nodes of
pairwise distinct keys that were not seen before and are seen after. -/
structure Walked (acc acc' : Std.HashSet NodeKey × Array Expr) : Prop where
  seen : ∀ k ∈ acc.1, k ∈ acc'.1
  added : ∃ new, acc'.2.toList = acc.2.toList ++ new ∧
    (∀ x ∈ new, x.key ∉ acc.1 ∧ x.key ∈ acc'.1) ∧ (new.map key).Pairwise fun a b => (a == b) = false

namespace Walked

variable {acc acc' acc'' : Std.HashSet NodeKey × Array Expr}

theorem refl (acc : Std.HashSet NodeKey × Array Expr) : Walked acc acc :=
  ⟨fun _ h => h, [], by simp, by simp, List.Pairwise.nil⟩

theorem trans (h₁ : Walked acc acc') (h₂ : Walked acc' acc'') : Walked acc acc'' := by
  obtain ⟨new₁, hrec₁, hfresh₁, hpair₁⟩ := h₁.added
  obtain ⟨new₂, hrec₂, hfresh₂, hpair₂⟩ := h₂.added
  refine ⟨fun k hk => h₂.seen k (h₁.seen k hk), new₁ ++ new₂,
    by rw [hrec₂, hrec₁, List.append_assoc], fun x hx => ?_, ?_⟩
  · rcases List.mem_append.1 hx with hx | hx
    · exact ⟨(hfresh₁ x hx).1, h₂.seen _ (hfresh₁ x hx).2⟩
    · exact ⟨fun h => (hfresh₂ x hx).1 (h₁.seen _ h), (hfresh₂ x hx).2⟩
  · rw [List.map_append, List.pairwise_append]
    refine ⟨hpair₁, hpair₂, fun a ha b hb => ?_⟩
    -- the first walk's nodes are seen when the second starts, and its nodes were not
    obtain ⟨x, hx, rfl⟩ := List.mem_map.1 ha
    obtain ⟨y, hy, rfl⟩ := List.mem_map.1 hb
    exact beq_eq_false_of_mem (hfresh₁ x hx).2 (hfresh₂ y hy).1

/-- Marking a node not seen yet, walking on, and then recording the node. -/
theorem record {r : Std.HashSet NodeKey × Array Expr} {n : Expr} (hn : n.key ∉ acc.1)
    (h : Walked (acc.1.insert n.key, acc.2) r) : Walked acc (r.1, r.2.push n) := by
  obtain ⟨new, hrec, hfresh, hpair⟩ := h.added
  have hmark : n.key ∈ r.1 := h.seen _ (Std.HashSet.mem_insert.2 (.inl (BEq.refl _)))
  refine ⟨fun k hk => h.seen k (Std.HashSet.mem_insert.2 (.inr hk)), new ++ [n],
    by simp [hrec], fun x hx => ?_, ?_⟩
  · rcases List.mem_append.1 hx with hx | hx
    · exact ⟨fun h' => (hfresh x hx).1 (Std.HashSet.mem_insert.2 (.inr h')), (hfresh x hx).2⟩
    · rw [List.mem_singleton.1 hx]
      exact ⟨hn, hmark⟩
  · rw [List.map_append, List.pairwise_append]
    refine ⟨hpair, List.pairwise_singleton _ _, fun a ha b hb => ?_⟩
    -- the nodes recorded under `n` were walked with `n` marked
    obtain ⟨x, hx, rfl⟩ := List.mem_map.1 ha
    rw [List.map_singleton, List.mem_singleton] at hb
    subst hb
    rw [BEq.comm]
    exact beq_eq_false_of_mem (Std.HashSet.mem_insert.2 (.inl (BEq.refl _))) (hfresh x hx).1

theorem mem {x : Expr} (h : Walked acc acc') (hx : x ∈ acc.2.toList) : x ∈ acc'.2.toList := by
  obtain ⟨new, hrec, -⟩ := h.added
  rw [hrec]
  exact List.mem_append_left _ hx

end Walked

/-- The walk passes over an atom. -/
theorem postOrderFrom_of_isFunc_eq_false {e : Expr} (he : e.isFunc = false)
    (acc : Std.HashSet NodeKey × Array Expr) : postOrderFrom acc e = acc := by
  cases e with
  | func => cases he
  | _ => rfl

theorem walked_postOrderFrom (acc : Std.HashSet NodeKey × Array Expr) (e : Expr) :
    Walked acc (postOrderFrom acc e) := by
  induction acc, e using postOrderFrom.induct
    (motive_1 := fun acc args => Walked acc (postOrderFrom.postOrderArgs acc args)) with
  | case1 acc t op args h hseen =>
    rw [postOrderFrom, if_pos hseen]
    exact .refl _
  | case2 acc t op args h hseen ih =>
    rw [postOrderFrom, if_neg hseen]
    exact ih.record fun h => hseen (Std.HashSet.contains_iff_mem.2 h)
  | case3 e acc hfunc =>
    rw [postOrderFrom_of_isFunc_eq_false (isFunc_eq_false hfunc)]
    exact .refl _
  | case4 acc => exact .refl _
  | case5 acc a rest iha ihrest =>
    rw [postOrderFrom.postOrderArgs]
    exact iha.trans ihrest

theorem walked_postOrderArgs (acc : Std.HashSet NodeKey × Array Expr) (args : List Expr) :
    Walked acc (postOrderFrom.postOrderArgs acc args) := by
  induction args generalizing acc with
  | nil => exact .refl _
  | cons a rest ih =>
    rw [postOrderFrom.postOrderArgs]
    exact (walked_postOrderFrom acc a).trans (ih _)

/-! ## The loop over the work stack -/

/-- What an entry of the work stack stands for: the walk from an entry not yet expanded, and
recording the node of an expanded one. -/
def walkEntry (acc : Std.HashSet NodeKey × Array Expr) :
    Expr × Bool → Std.HashSet NodeKey × Array Expr
  | (e, false) => postOrderFrom acc e
  | (e, true) => if e.isFunc then (acc.1, acc.2.push e) else acc

/-- The passes the loop still needs for an entry: twice its tree size before it is expanded,
one after. -/
def entryCost : Expr × Bool → Nat
  | (e, false) => 2 * e.treeSize
  | (_, true) => 1

/-- An entry that is not a function node stands for nothing. -/
theorem walkEntry_of_isFunc_eq_false {e : Expr} (he : e.isFunc = false)
    (acc : Std.HashSet NodeKey × Array Expr) (expanded : Bool) : walkEntry acc (e, expanded) = acc := by
  cases expanded
  · exact postOrderFrom_of_isFunc_eq_false he acc
  · simp [walkEntry, he]

theorem postOrderArgs_eq_foldl (acc : Std.HashSet NodeKey × Array Expr) (args : List Expr) :
    postOrderFrom.postOrderArgs acc args = args.foldl postOrderFrom acc := by
  induction args generalizing acc with
  | nil => rfl
  | cons a rest ih =>
    rw [postOrderFrom.postOrderArgs, ih]
    rfl

/-- The walk from an argument the loop leaves out changes nothing: it is an atom, or a node
whose key was seen when its parent was expanded, and so is seen still. -/
theorem postOrderFrom_of_seen {seen : Std.HashSet NodeKey} {acc : Std.HashSet NodeKey × Array Expr}
    {a : Expr} (hseen : ∀ k ∈ seen, k ∈ acc.1) (ha : (a.isFunc && !seen.contains a.key) = false) :
    postOrderFrom acc a = acc := by
  cases a with
  | func t op args h =>
    have hk : (Expr.func t op args h).key ∈ seen := by simpa [isFunc] using ha
    rw [postOrderFrom, if_pos (Std.HashSet.contains_iff_mem.2 (hseen _ hk))]
  | _ => rfl

/-- Walking only the arguments not seen yet walks them all. -/
theorem foldl_filter_unseen (seen : Std.HashSet NodeKey) (args : List Expr)
    (acc : Std.HashSet NodeKey × Array Expr) (hseen : ∀ k ∈ seen, k ∈ acc.1) :
    (args.filter fun a => a.isFunc && !seen.contains a.key).foldl postOrderFrom acc =
      args.foldl postOrderFrom acc := by
  induction args generalizing acc with
  | nil => rfl
  | cons a rest ih =>
    by_cases ha : (a.isFunc && !seen.contains a.key) = true
    · rw [List.filter_cons, if_pos ha, List.foldl_cons, List.foldl_cons]
      exact ih _ fun k hk => (walked_postOrderFrom acc a).seen k (hseen k hk)
    · rw [List.filter_cons, if_neg ha, List.foldl_cons,
        postOrderFrom_of_seen hseen (Bool.eq_false_iff.2 ha)]
      exact ih acc hseen

/-- Expanding a node not seen yet: walking its unseen arguments with the node marked seen, and
then recording the node, is the walk from the node. -/
theorem walkEntry_expand {t : NodeTag} {op : Op} {args : List Expr} {h : UInt64}
    {acc : Std.HashSet NodeKey × Array Expr}
    (hseen : ¬acc.1.contains (Expr.func t op args h).key = true) :
    walkEntry (((args.filter fun a =>
        a.isFunc && !(acc.1.insert (Expr.func t op args h).key).contains a.key).map (·, false)).foldl
          walkEntry (acc.1.insert (Expr.func t op args h).key, acc.2))
        (Expr.func t op args h, true) =
      walkEntry acc (Expr.func t op args h, false) := by
  have hunseen := foldl_filter_unseen (acc.1.insert (Expr.func t op args h).key) args
    (acc.1.insert (Expr.func t op args h).key, acc.2) fun k hk => hk
  rw [List.foldl_map]
  simp only [walkEntry] at hunseen ⊢
  rw [hunseen, postOrderFrom, if_neg hseen, postOrderArgs_eq_foldl]
  rfl

/-- The unseen arguments of a node cost no more than the node's arguments together. -/
theorem cost_unseen_le (seen : Std.HashSet NodeKey) (args : List Expr) :
    (((args.filter fun a => a.isFunc && !seen.contains a.key).map (·, false)).map entryCost).sum ≤
      2 * (args.map treeSize).sum := by
  rw [List.map_map, ← List.sum_map_mul_left]
  exact List.Sublist.sum_le_sum ((List.filter_sublist).map _) (fun _ _ => Nat.zero_le _)

/-- The loop runs its stack to the end when the fuel covers the stack's cost. The induction is
on the fuel: expanding a node replaces its entry by the entries of its unseen arguments, which
its own cost covers, above the node expanded. -/
theorem postOrderLoop_eq_foldl (fuel : Nat) (stack : List (Expr × Bool))
    (acc : Std.HashSet NodeKey × Array Expr) (hfuel : (stack.map entryCost).sum ≤ fuel) :
    postOrderLoop fuel stack acc = stack.foldl walkEntry acc := by
  induction fuel generalizing stack acc with
  | zero =>
    cases stack with
    | nil => rfl
    | cons x rest =>
      -- every entry costs at least one
      obtain ⟨e, expanded⟩ := x
      have := e.treeSize_pos
      cases expanded <;> simp only [List.map_cons, List.sum_cons, entryCost] at hfuel
      all_goals omega
  | succ fuel ih =>
    cases stack with
    | nil => rfl
    | cons x rest =>
      obtain ⟨node, expanded⟩ := x
      have hcost : entryCost (node, expanded) + (rest.map entryCost).sum ≤ fuel + 1 := by
        simpa using hfuel
      have hpos := node.treeSize_pos
      cases node with
      | func t op args h =>
        cases expanded with
        | true =>
          simp only [postOrderLoop, if_true]
          exact ih rest _ (by simp only [entryCost] at hcost; omega)
        | false =>
          by_cases hseen : acc.1.contains (Expr.func t op args h).key = true
          · have hwalk : walkEntry acc (.func t op args h, false) = acc := by
              rw [walkEntry, postOrderFrom, if_pos hseen]
            simp only [postOrderLoop, Bool.false_eq_true, if_false, hseen, if_true,
              List.foldl_cons, hwalk]
            exact ih rest acc (by simp only [entryCost] at hcost; omega)
          · -- the node is expanded: its unseen arguments, then the node itself
            have hargs := cost_unseen_le (acc.1.insert (Expr.func t op args h).key) args
            simp only [postOrderLoop, Bool.false_eq_true, if_false, hseen]
            rw [ih _ _ ?_, List.foldl_append, List.foldl_cons, List.foldl_cons,
              walkEntry_expand hseen]
            · simp only [List.map_append, List.sum_append, List.map_cons, List.sum_cons, entryCost]
                at hcost ⊢
              rw [treeSize_func] at hcost
              omega
      | _ =>
        simp only [postOrderLoop, List.foldl_cons]
        rw [walkEntry_of_isFunc_eq_false rfl]
        exact ih rest acc (by cases expanded <;> simp only [entryCost] at hcost <;> omega)

/-- The loop records what the walk from the root records. -/
theorem postOrder_eq (e : Expr) : postOrder e = (postOrderFrom ({}, #[]) e).2 := by
  unfold postOrder
  rw [postOrderLoop_eq_foldl _ _ _ (by simp [entryCost])]
  rfl

/-- The walk records nodes of pairwise distinct keys. -/
theorem keys_postOrder_pairwise (e : Expr) :
    ((postOrder e).toList.map key).Pairwise fun a b => (a == b) = false := by
  obtain ⟨new, hrec, -, hpair⟩ := (walked_postOrderFrom ({}, #[]) e).added
  rw [postOrder_eq, hrec]
  simpa using hpair

end Expr

end TaylorOde
