import TaylorOde.Proofs.Expr.SplitSums
import Mathlib
/-!
# Substitution keeps nodes

`subst s e` walks `e` from the root: a subterm equal to a key of `s` is replaced by its image
and not looked into, and a node none of whose arguments came back changed is returned as the
very node it was. Three laws follow (`subst_keeps_nodes`):

* a substitution none of whose keys occurs in `e` returns `e` itself (`subst_of_no_key`);
* a substitution that sends every key to an equal image returns an expression equal to `e`,
  as long as the nodes of `e` cache their hashes (`subst_beq_of_fixed`);
* every occurrence that the walk reaches is mapped to the same node as its subterm is
  (`subtermAt_subst`), so all occurrences of one node are mapped to one node
  (`subtermAt_subst_shared`).

Occurrences are named by paths of argument positions (`Expr.subtermAt`), and the walk reaches
the end of a path when no node strictly above it is a key (`Substitution.Reaches`). The third
law needs every node of `e` to be tagged, as the nodes the library builds are: a node kept
because its arguments came back as the same nodes keeps its own arguments, and only its tag
tells a rebuilt node from the one it replaces (`sameNodes_of_subst_sameNode`).
-/

namespace TaylorOde

namespace Substitution

/-- The walk of a substitution reaches the end of a path: no node strictly above it is a
key. -/
def Reaches (s : Substitution) (e : Expr) : List Nat → Prop
  | [] => True
  | i :: path => s.find? e = none ∧ ∃ a, e.args[i]? = some a ∧ s.Reaches a path

variable {s : Substitution}

theorem find?_eq_none {e : Expr} (h : ∀ p ∈ s.entries, p.1.beq e = false) : s.find? e = none := by
  simp only [find?, Option.map_eq_none_iff, List.find?_eq_none]
  intro p hp
  simpa using h p hp

theorem find?_eq_some {e v : Expr} (h : s.find? e = some v) :
    ∃ p ∈ s.entries, p.1.beq e = true ∧ v = p.2 := by
  obtain ⟨p, hp, rfl⟩ := Option.map_eq_some_iff.1 h
  exact ⟨p, List.mem_of_find?_eq_some hp, by simpa using List.find?_some hp, rfl⟩

end Substitution

namespace Expr

/-! ## Paths -/

/-- The subterm at a path of argument positions, if the path leads to one. -/
def subtermAt (e : Expr) : List Nat → Option Expr
  | [] => some e
  | i :: path => e.args[i]?.bind fun a => a.subtermAt path

theorem subtermAt_cons (e : Expr) (i : Nat) (path : List Nat) :
    e.subtermAt (i :: path) = e.args[i]?.bind fun a => a.subtermAt path := rfl

/-- Every function node of the expression is tagged, as the library's nodes are. -/
def Tagged (e : Expr) : Prop := ∀ t op args h, Occurs (.func t op args h) e → t ≠ .anon

theorem Tagged.of_occurs {a e : Expr} (he : e.Tagged) (ha : Occurs a e) : a.Tagged :=
  fun t op args h hocc => he t op args h (hocc.trans ha)

theorem sameNode_trans {a b c : Expr} (hab : a.sameNode b = true) (hbc : b.sameNode c = true) :
    a.sameNode c = true :=
  PartialEquivBEq.trans hab hbc

/-! ## One step of the walk -/

section Step

variable {s : Substitution}

theorem subst_of_find?_some {e v : Expr} (h : s.find? e = some v) : subst s e = v := by
  cases e <;> simp [subst, h]

theorem subst_of_op?_none {e : Expr} (hfind : s.find? e = none) (he : e.op? = none) :
    subst s e = e := by
  cases e <;> simp_all [subst, op?]

/-- A node that is no key comes back as itself when its arguments come back as the same
nodes, and is rebuilt over them otherwise. -/
theorem subst_func {t : NodeTag} {op : Op} {args : List Expr} {h : UInt64}
    (hfind : s.find? (.func t op args h) = none) :
    subst s (.func t op args h) = if sameNodes (args.map (subst s)) args then .func t op args h
      else node (t.child 1) op (args.map (subst s)) := by
  rw [subst, hfind]

/-- A tagged node that is no key and comes back as the same node comes back as itself, so
its arguments came back as the same nodes: a rebuilt node has a tag of its own. -/
theorem sameNodes_of_subst_sameNode {a : Expr} (htag : a.Tagged) (hfind : s.find? a = none)
    (hsame : (subst s a).sameNode a = true) : sameNodes (a.args.map (subst s)) a.args = true := by
  cases a with
  | func t op args h =>
    rw [subst_func hfind] at hsame
    split_ifs at hsame with hkept
    · exact hkept
    · cases t with
      | anon => exact absurd rfl (htag _ _ _ _ .refl)
      | path q => simp [sameNode, key, node, NodeTag.child] at hsame
  | _ => rfl

end Step

/-! ## The three laws -/

section Laws

variable {s : Substitution}

/-- A substitution none of whose keys occurs in the expression returns the expression. -/
theorem subst_of_no_key {e : Expr} (h : ∀ p ∈ s.entries, ∀ a, Occurs a e → p.1.beq a = false) :
    subst s e = e := by
  induction e using recArgs with
  | func t op args hh ih =>
    have hfind := Substitution.find?_eq_none fun p hp => h p hp _ .refl
    -- every argument comes back as itself, so the node does
    have hargs : args.map (subst s) = args := by
      conv_rhs => rw [← List.map_id args]
      exact List.map_congr_left fun a ha => ih a ha fun p hp b hb => h p hp b (.arg ha hb)
    rw [subst_func hfind, hargs, if_pos (sameNodes_self args)]
  | num | param | var | time =>
    exact subst_of_op?_none (Substitution.find?_eq_none fun p hp => h p hp _ .refl) rfl

/-- A substitution that sends every key to an equal image returns an equal expression: a
rebuilt node has equal arguments and, its hash being cached right, the same hash. -/
theorem subst_beq_of_fixed (hs : ∀ p ∈ s.entries, p.2.beq p.1 = true) {e : Expr}
    (he : e.HashOk) : (subst s e).beq e = true := by
  -- an image is equal to its key, which is equal to the subterm it replaces
  have himage : ∀ x v, s.find? x = some v → v.beq x = true := fun x v hv => by
    obtain ⟨p, hp, hkey, rfl⟩ := Substitution.find?_eq_some hv
    exact beq_trans _ _ _ (hs p hp) hkey
  induction e using recArgs with
  | func t op args hh ih =>
    cases hfind : s.find? (.func t op args hh) with
    | some v => rw [subst_of_find?_some hfind]; exact himage _ v hfind
    | none =>
      rw [subst_func hfind]
      split_ifs
      · exact beq_self _
      · have hargs : ArgsEq args (args.map (subst s)) :=
          List.forall₂_map_right_iff.2 (List.forall₂_same.2 fun a ha =>
            beq_symm _ _ (ih a ha (he.of_occurs (.of_mem ha))))
        exact beq_symm _ _ (func_beq_node (he t op args hh .refl) hargs)
  | num | param | var | time =>
    unfold subst
    split
    · exact himage _ _ ‹_›
    · exact beq_self _

/-- Below a tagged node that comes back as the same node, every subterm the walk reaches is
the same node as what it comes back as: the node was kept with its own arguments. -/
theorem sameNode_subst_of_kept : ∀ (path : List Nat) (a x : Expr), a.Tagged →
    (subst s a).sameNode a = true → a.subtermAt path = some x → s.Reaches a path →
    x.sameNode (subst s x) = true
  | [], a, x, _, hsame, hx, _ => by
    cases hx
    rw [sameNode_comm]
    exact hsame
  | i :: path, a, x, htag, hsame, hx, ⟨hfind, b, hb, hreach⟩ => by
    have hkept := sameNodes_of_subst_sameNode htag hfind hsame
    have hbmem : b ∈ a.args := List.mem_of_getElem? hb
    rw [subtermAt_cons, hb, Option.bind_some] at hx
    exact sameNode_subst_of_kept path b x (htag.of_occurs (occurs_of_mem_args hbmem))
      (sameNode_of_sameNodes hkept b hbmem) hx hreach

/-- Every occurrence the walk reaches stands in the result as the same node as its subterm
comes back as. Where a node above it was rebuilt, the result holds the image of the subterm;
where the node above was kept, it holds the subterm itself, the same node as its image. -/
theorem subtermAt_subst : ∀ (path : List Nat) (e x : Expr), e.Tagged →
    e.subtermAt path = some x → s.Reaches e path →
    ∃ y, (subst s e).subtermAt path = some y ∧ y.sameNode (subst s x) = true
  | [], e, x, _, hx, _ => ⟨subst s e, rfl, by cases hx; exact sameNode_self _⟩
  | i :: path, e, x, htag, hx, ⟨hfind, a, ha, hreach⟩ => by
    rw [subtermAt_cons, ha, Option.bind_some] at hx
    have hamem : a ∈ e.args := List.mem_of_getElem? ha
    have htaga : a.Tagged := htag.of_occurs (occurs_of_mem_args hamem)
    cases e with
    | func t op args h =>
      rw [subst_func hfind]
      split_ifs with hkept
      · -- the node is kept, with the subterm itself below it
        refine ⟨x, by rw [subtermAt_cons, ha, Option.bind_some, hx], ?_⟩
        exact sameNode_subst_of_kept path a x htaga (sameNode_of_sameNodes hkept a hamem) hx
          hreach
      · -- the node is rebuilt over the images of its arguments
        have harg : (node (t.child 1) op (args.map (subst s))).args[i]? = some (subst s a) := by
          have ha' : args[i]? = some a := ha
          rw [show (node (t.child 1) op (args.map (subst s))).args = args.map (subst s) from rfl,
            List.getElem?_map, ha']
          rfl
        rw [subtermAt_cons, harg, Option.bind_some]
        exact subtermAt_subst path a x htaga hx hreach
    | _ => simp [Expr.args] at ha

/-- Two occurrences of one subterm that the walk reaches stand in the result as one node. -/
theorem subtermAt_subst_shared {e x : Expr} (htag : e.Tagged) {p₁ p₂ : List Nat}
    (h₁ : e.subtermAt p₁ = some x) (h₂ : e.subtermAt p₂ = some x) (hr₁ : s.Reaches e p₁)
    (hr₂ : s.Reaches e p₂) : ∃ y₁ y₂, (subst s e).subtermAt p₁ = some y₁ ∧
      (subst s e).subtermAt p₂ = some y₂ ∧ y₁.sameNode y₂ = true := by
  obtain ⟨y₁, hy₁, hs₁⟩ := subtermAt_subst p₁ e x htag h₁ hr₁
  obtain ⟨y₂, hy₂, hs₂⟩ := subtermAt_subst p₂ e x htag h₂ hr₂
  exact ⟨y₁, y₂, hy₁, hy₂, sameNode_trans hs₁ (by rw [sameNode_comm]; exact hs₂)⟩

end Laws

/-- Substitution keeps nodes. A substitution none of whose keys occurs in an expression returns
the expression itself. One that sends every key to an equal image returns an equal expression,
when the nodes of the expression cache their hashes. And on an expression whose nodes are
tagged, two occurrences of one subterm that the walk reaches stand in the result as one
node. -/
theorem subst_keeps_nodes (s : Substitution) (e : Expr) :
    ((∀ p ∈ s.entries, ∀ a, Occurs a e → p.1.beq a = false) → subst s e = e) ∧
    ((∀ p ∈ s.entries, p.2.beq p.1 = true) → e.HashOk → (subst s e).beq e = true) ∧
    (e.Tagged → ∀ x p₁ p₂, e.subtermAt p₁ = some x → e.subtermAt p₂ = some x →
      s.Reaches e p₁ → s.Reaches e p₂ → ∃ y₁ y₂, (subst s e).subtermAt p₁ = some y₁ ∧
        (subst s e).subtermAt p₂ = some y₂ ∧ y₁.sameNode y₂ = true) :=
  ⟨subst_of_no_key, fun hs he => subst_beq_of_fixed hs he,
    fun htag _ _ _ h₁ h₂ hr₁ hr₂ => subtermAt_subst_shared htag h₁ h₂ hr₁ hr₂⟩

/-! ## A shared cosine

`(x + cos y) * sin (cos y)`, the two cosines one node. Substituting `2` for `x` rebuilds the
sum and the product and keeps the sine: the cosine stands below the rebuilt sum as its own
image and below the kept sine as itself, one node. -/

/-- `cos y`, as one tagged node. -/
def cosineOfY : Expr := node (.path [2]) .cos [var "y"]

/-- `(x + cos y) * sin (cos y)`. -/
def sharedCosine : Expr :=
  node (.path [0]) .mul [node (.path [1]) .sum [var "x", cosineOfY], node (.path [3]) .sin [cosineOfY]]

theorem occurs_sharedCosine {a : Expr} : Occurs a sharedCosine ↔ a = sharedCosine ∨
    a = node (.path [1]) .sum [var "x", cosineOfY] ∨ a = var "x" ∨ a = cosineOfY ∨ a = var "y" ∨
    a = node (.path [3]) .sin [cosineOfY] := by
  simp only [sharedCosine, cosineOfY, node, occurs_func_iff, occurs_var_iff, List.mem_cons,
    List.mem_nil_iff, or_false, exists_eq_or_imp, exists_eq_left]
  tauto

/-- The three laws at the shared cosine: a key that does not occur, a key sent to itself, and
`x` sent to `2` with the cosine met below the sum and below the sine. -/
theorem sharedCosine_substitutions :
    subst ⟨[(var "z", lit 2.0)]⟩ sharedCosine = sharedCosine ∧
    (subst ⟨[(var "x", var "x")]⟩ sharedCosine).beq sharedCosine = true ∧
    sharedCosine.subtermAt [0, 1] = some cosineOfY ∧ sharedCosine.subtermAt [1, 0] = some cosineOfY ∧
    ∃ y₁ y₂, (subst ⟨[(var "x", lit 2.0)]⟩ sharedCosine).subtermAt [0, 1] = some y₁ ∧
      (subst ⟨[(var "x", lit 2.0)]⟩ sharedCosine).subtermAt [1, 0] = some y₂ ∧
      y₁.sameNode y₂ = true := by
  have hnodes : ∀ t op args h, Occurs (.func t op args h) sharedCosine →
      t ≠ .anon ∧ h = nodeHash op args := by
    intro t op args h hocc
    rcases occurs_sharedCosine.1 hocc with he | he | he | he | he | he <;>
      simp only [sharedCosine, cosineOfY, node, func.injEq, reduceCtorEq] at he <;>
      obtain ⟨rfl, rfl, rfl, rfl⟩ := he <;> exact ⟨NodeTag.noConfusion, rfl⟩
  have hkeys : ∀ p ∈ [(var "z", lit 2.0)], ∀ a, Occurs a sharedCosine → p.1.beq a = false := by
    intro p hp a ha
    rw [List.mem_singleton.1 hp]
    rcases occurs_sharedCosine.1 ha with rfl | rfl | rfl | rfl | rfl | rfl <;> rfl
  have hreach₁ : Substitution.Reaches ⟨[(var "x", lit 2.0)]⟩ sharedCosine [0, 1] :=
    ⟨rfl, _, rfl, rfl, _, rfl, trivial⟩
  have hreach₂ : Substitution.Reaches ⟨[(var "x", lit 2.0)]⟩ sharedCosine [1, 0] :=
    ⟨rfl, _, rfl, rfl, _, rfl, trivial⟩
  refine ⟨(subst_keeps_nodes _ sharedCosine).1 hkeys,
    (subst_keeps_nodes _ sharedCosine).2.1 (by simp [beq_self])
      fun t op args h hocc => (hnodes t op args h hocc).2, rfl, rfl, ?_⟩
  exact (subst_keeps_nodes _ sharedCosine).2.2 (fun t op args h hocc => (hnodes t op args h hocc).1)
    cosineOfY [0, 1] [1, 0] rfl rfl hreach₁ hreach₂

end Expr

end TaylorOde
