import TaylorOde.Proofs.Expr.Equality
import TaylorOde.Expr.Rewrite
import Mathlib
/-!
# The nodes of an expression

An expression is a tree whose function nodes carry two pieces of bookkeeping: a cached
structural hash, and a tag that identifies the node. Algorithms that visit each node once
(lowering into a decomposition, for one) trust both: a cached hash is the hash of the node's
arguments (`HashOk`), and two function nodes met under one key are structurally equal
(`TagsCoherent`). This module states these representation invariants over the nodes that
occur in a family of expressions, with an induction principle that gives the hypothesis for
every argument of a node and the tree size that bounds how many nodes an algorithm can meet.
-/

namespace TaylorOde

namespace Expr

/-- Induction over expressions with the hypothesis for every argument of a function node. -/
@[elab_as_elim]
theorem recArgs {motive : Expr → Prop} (num : ∀ n, motive (.num n))
    (param : ∀ p, motive (.param p)) (var : ∀ v, motive (.var v)) (time : motive .time)
    (func : ∀ t op args h, (∀ a ∈ args, motive a) → motive (.func t op args h)) :
    ∀ e, motive e
  | .num n => num n
  | .param p => param p
  | .var v => var v
  | .time => time
  | .func t op args h => func t op args h fun a ha =>
      have _ : sizeOf a < 1 + sizeOf t + sizeOf op + sizeOf args + sizeOf h := by
        have := List.sizeOf_lt_of_mem ha
        omega
      recArgs num param var time func a
termination_by e => sizeOf e

theorem treeSize_pos (e : Expr) : 0 < e.treeSize := by
  cases e <;> simp [treeSize]

theorem treeSize_func (t : NodeTag) (op : Op) (args : List Expr) (h : UInt64) :
    (Expr.func t op args h).treeSize = 1 + (args.map treeSize).sum := by
  rw [treeSize, List.sum_eq_foldr]

/-- `a` occurs in `e`: it is `e`, or occurs in an argument of `e`. -/
inductive Occurs (a : Expr) : Expr → Prop
  | refl : Occurs a a
  | arg {t : NodeTag} {op : Op} {args : List Expr} {h : UInt64} {b : Expr} :
      b ∈ args → Occurs a b → Occurs a (.func t op args h)

theorem Occurs.trans {a b c : Expr} (hab : Occurs a b) (hbc : Occurs b c) : Occurs a c := by
  induction hbc with
  | refl => exact hab
  | arg hmem _ ih => exact .arg hmem ih

theorem Occurs.of_mem {a : Expr} {t : NodeTag} {op : Op} {args : List Expr} {h : UInt64}
    (ha : a ∈ args) : Occurs a (.func t op args h) :=
  .arg ha .refl

/-- Only the expression itself occurs in an atom. -/
theorem Occurs.eq_of_args_nil {a e : Expr} (h : Occurs a e) (hargs : e.args = []) : a = e := by
  cases h with
  | refl => rfl
  | arg hmem _ => simp [Expr.args] at hargs; simp [hargs] at hmem

theorem occurs_func_iff {a : Expr} {t : NodeTag} {op : Op} {args : List Expr} {h : UInt64} :
    Occurs a (.func t op args h) ↔ a = .func t op args h ∨ ∃ b ∈ args, Occurs a b := by
  constructor
  · intro ho
    cases ho with
    | refl => exact .inl rfl
    | arg hb ho => exact .inr ⟨_, hb, ho⟩
  · rintro (rfl | ⟨b, hb, ho⟩)
    · exact .refl
    · exact .arg hb ho

theorem occurs_var_iff {a : Expr} {v : String} : Occurs a (.var v) ↔ a = .var v :=
  ⟨fun h => h.eq_of_args_nil rfl, fun h => h ▸ .refl⟩

theorem treeSize_le_of_mem {a : Expr} {args : List Expr} (ha : a ∈ args) :
    a.treeSize ≤ (args.map treeSize).sum := by
  induction args with
  | nil => cases ha
  | cons b args ih =>
    rcases List.mem_cons.1 ha with rfl | ha
    · simp
    · have := ih ha
      simp only [List.map_cons, List.sum_cons]
      omega

theorem Occurs.treeSize_le {a e : Expr} (h : Occurs a e) : a.treeSize ≤ e.treeSize := by
  induction h with
  | refl => exact Nat.le_refl _
  | arg hmem _ ih =>
    have := treeSize_le_of_mem hmem
    rw [treeSize_func]
    omega

/-- A node occurring in an argument is smaller than the node. -/
theorem treeSize_lt_of_occurs_arg {a b : Expr} {t : NodeTag} {op : Op} {args : List Expr}
    {h : UInt64} (hb : b ∈ args) (ha : Occurs a b) :
    a.treeSize < (Expr.func t op args h).treeSize := by
  have := treeSize_le_of_mem hb
  have := ha.treeSize_le
  rw [treeSize_func]
  omega

/-- Structurally equal expressions have the same tree size. -/
theorem treeSize_eq_of_beq : (a b : Expr) → a.beq b = true → a.treeSize = b.treeSize
  | .func _ _ xs _, .func _ _ ys _, h => by
    rw [treeSize_func, treeSize_func, sum_eq xs ys (func_beq_func.1 h).2.2]
  | .func .., .num _, h | .func .., .param _, h | .func .., .var _, h | .func .., .time, h => by
    simp [beq] at h
  | .num _, b, h | .param _, b, h | .var _, b, h | .time, b, h => by
    cases b <;> simp_all [beq, treeSize]
where
  sum_eq : (xs ys : List Expr) → ArgsEq xs ys → (xs.map treeSize).sum = (ys.map treeSize).sum
    | [], [], _ => rfl
    | a :: as, b :: bs, .cons hab hs => by
      simp only [List.map_cons, List.sum_cons, treeSize_eq_of_beq a b hab, sum_eq as bs hs]

/-- An atom occurring in an expression is one of its atoms. -/
theorem mem_atoms_of_occurs {a e : Expr} (h : Occurs a e) (ha : a.op? = none) : a ∈ e.atoms := by
  induction h with
  | refl =>
    cases a with
    | func t op args hh => simp [op?] at ha
    | _ => simp [atoms]
  | arg hmem _ ih =>
    simp only [atoms, List.mem_flatten, List.mem_map]
    exact ⟨_, ⟨_, hmem, rfl⟩, ih⟩

theorem occurs_of_mem_atoms {a e : Expr} (h : a ∈ e.atoms) : Occurs a e := by
  induction e using recArgs with
  | func t op args hh ih =>
    simp only [atoms, List.mem_flatten, List.mem_map] at h
    obtain ⟨_, ⟨b, hb, rfl⟩, hab⟩ := h
    exact .arg hb (ih b hb hab)
  | num | param | var | time =>
    simp only [atoms, List.mem_singleton] at h
    subst h
    exact .refl

/-- Removing repeats leaves no repeats. -/
theorem nodup_eraseDups {α : Type} [BEq α] [LawfulBEq α] : (l : List α) → l.eraseDups.Nodup
  | [] => List.nodup_nil
  | a :: as => by
    rw [List.eraseDups_cons]
    refine List.nodup_cons.2 ⟨?_, nodup_eraseDups (as.filter fun b => !b == a)⟩
    simp [List.mem_eraseDups, List.mem_filter]
termination_by l => l.length
decreasing_by
  have := List.length_filter_le (fun b => !b == a) as
  simp only [List.length_cons]
  omega

theorem mem_varNames {e : Expr} {v : String} : v ∈ e.varNames ↔ Occurs (.var v) e := by
  simp only [varNames, List.mem_eraseDups, List.mem_mergeSort, List.mem_filterMap]
  constructor
  · rintro ⟨a, ha, hv⟩
    cases a <;> simp at hv
    subst hv
    exact occurs_of_mem_atoms ha
  · intro h
    exact ⟨_, mem_atoms_of_occurs h rfl, rfl⟩

theorem mem_params {e : Expr} {i : Nat} :
    i ∈ e.params ↔ ∃ p : UInt32, Occurs (.param p) e ∧ p.toNat = i := by
  simp only [params, List.mem_eraseDups, List.mem_mergeSort, List.mem_filterMap]
  constructor
  · rintro ⟨a, ha, hi⟩
    cases a <;> simp at hi
    exact ⟨_, occurs_of_mem_atoms ha, hi⟩
  · rintro ⟨p, hp, rfl⟩
    exact ⟨_, mem_atoms_of_occurs hp rfl, rfl⟩

/-- Every function node occurring in the expression caches the hash of its arguments. -/
def HashOk (e : Expr) : Prop :=
  ∀ t op args h, Occurs (.func t op args h) e → h = nodeHash op args

theorem HashOk.of_occurs {a e : Expr} (he : e.HashOk) (ha : Occurs a e) : a.HashOk :=
  fun t op args h hocc => he t op args h (hocc.trans ha)

theorem HashOk.node {t : NodeTag} {op : Op} {args : List Expr} (hargs : ∀ a ∈ args, a.HashOk) :
    (node t op args).HashOk := by
  intro t' op' args' h' hocc
  cases hocc with
  | refl => rfl
  | arg hmem hocc => exact hargs _ hmem t' op' args' h' hocc

/-- Function nodes met under one key in a family of expressions are structurally equal:
tags identify nodes, and untagged nodes are compared by structure anyway. -/
def TagsCoherent (es : List Expr) : Prop :=
  ∀ a b, (∃ e ∈ es, Occurs a e) → (∃ e ∈ es, Occurs b e) → a.key == b.key → a.beq b = true

end Expr

end TaylorOde
