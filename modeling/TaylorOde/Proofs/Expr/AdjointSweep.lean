import TaylorOde.Proofs.Expr.AbsentDerivative
import TaylorOde.Proofs.Expr.ArchiveRoundTrip
import Mathlib
/-!
# The walk and the sweep of reverse accumulation

`gradientTagged` differentiates in two passes. The walk (`postOrder`) goes depth first from the
root: a function node whose key was not seen yet is marked, its arguments are walked from the
left, and then it is recorded. The sweep visits the recorded nodes from the last, the root, to
the first: each removes its list of adjoint contributions, sums it, and pushes a contribution to
each of its arguments.

A node's identity is its key. Whatever the expression, the walk records nodes of pairwise
distinct keys (`Walked`, `keys_postOrder_pairwise`). When one key names one node of the
expression (`KeysIdentify`), as one address names one shared node, the walk records exactly the
function nodes of the expression, each after the function nodes among its arguments
(`PostOrderInv`, `PostOrdered`). So the sweep never pushes to a node it has visited: once it has
visited the nodes from the `i`-th on, only nodes before the `i`-th hold contributions
(`sweepFrom_nodes`), and none is left at the end. The main statement is
`Expr.reverse_sweep_postOrder`.
-/

namespace TaylorOde

namespace Expr

/-- One key names one function node of `e`: two nodes of `e` whose keys compare equal are one
node, as one address names one shared node. -/
def KeysIdentify (e : Expr) : Prop :=
  ∀ a b, Occurs a e → Occurs b e → a.isFunc = true → a.key == b.key → a = b

theorem isFunc_iff {e : Expr} : e.isFunc = true ↔ ∃ t op args h, e = .func t op args h := by
  cases e with
  | func t op args h => exact ⟨fun _ => ⟨t, op, args, h, rfl⟩, fun _ => rfl⟩
  | _ => simp [isFunc]

/-- In an expression as the library builds it, every function node has a tag and one tag names
one node, so one key names one node. -/
theorem Identified.keysIdentify {e : Expr} (he : Identified e) : KeysIdentify e := by
  intro a b ha hb hfa hkey
  obtain ⟨t, op, args, h, rfl⟩ := isFunc_iff.1 hfa
  obtain ⟨q, -, hq⟩ := he.path?_of_func ha rfl
  exact he.eq_of_path? ha hb hq (path?_eq_of_key_beq hkey hq)

/-- A node in which a function node occurs is a function node. -/
theorem isFunc_of_occurs {a b : Expr} (h : Occurs a b) (ha : a.isFunc = true) :
    b.isFunc = true := by
  cases h with
  | refl => exact ha
  | arg => rfl

/-! ## The walk over an expression whose keys name its nodes -/

/-- Every function argument of a node of the list comes before it. -/
def PostOrdered (l : List Expr) : Prop :=
  ∀ i (hi : i < l.length), ∀ a ∈ l[i].args, a.isFunc = true → ∃ j < i, l[j]? = some a

theorem PostOrdered.nil : PostOrdered [] := fun i hi => absurd hi (Nat.not_lt_zero i)

/-- A node whose function arguments are all in the list may come next. -/
theorem PostOrdered.push {l : List Expr} {n : Expr} (hl : PostOrdered l)
    (hn : ∀ a ∈ n.args, a.isFunc = true → a ∈ l) : PostOrdered (l ++ [n]) := by
  intro i hi a ha hfa
  rw [List.length_append, List.length_singleton] at hi
  rcases Nat.lt_succ_iff_lt_or_eq.1 hi with hi | rfl
  · rw [List.getElem_append_left hi] at ha
    obtain ⟨j, hj, hget⟩ := hl i hi a ha hfa
    exact ⟨j, hj, by rw [List.getElem?_append_left (by omega), hget]⟩
  · rw [List.getElem_append_right (Nat.le_refl _)] at ha
    obtain ⟨j, hj, hget⟩ := List.getElem_of_mem (hn a (by simpa using ha) hfa)
    exact ⟨j, hj, by rw [List.getElem?_append_left hj, List.getElem?_eq_getElem hj, hget]⟩

/-- The function nodes occurring in a node of a post-ordered list are in the list. -/
theorem PostOrdered.closed {l : List Expr} (hl : PostOrdered l) {x m : Expr} (hx : x ∈ l)
    (hm : Occurs m x) (hfm : m.isFunc = true) : m ∈ l := by
  induction hm with
  | refl => exact hx
  | @arg t op args h b hb hmb ih =>
    obtain ⟨i, hi, hget⟩ := List.getElem_of_mem hx
    obtain ⟨j, -, hj⟩ := hl i hi b (by rw [hget]; exact hb) (isFunc_of_occurs hmb hfm)
    exact ih (List.mem_of_getElem? hj)

/-- The nodes whose arguments are being walked when `e` is: function nodes of `E` larger than
`e`. -/
def OpenAbove (E : Expr) (opened : List Expr) (e : Expr) : Prop :=
  ∀ y ∈ opened, y.isFunc = true ∧ Occurs y E ∧ e.treeSize < y.treeSize

/-- The state of a walk inside `E`, `opened` the nodes whose arguments are being walked: every
recorded node is a function node of `E`, each after its function arguments, and every seen key
is that of a recorded or an opened node. -/
structure PostOrderInv (E : Expr) (opened : List Expr) (acc : Std.HashSet NodeKey × Array Expr) :
    Prop where
  node : ∀ x ∈ acc.2.toList, x.isFunc = true ∧ Occurs x E
  post : PostOrdered acc.2.toList
  seen : ∀ k ∈ acc.1, (∃ x ∈ acc.2.toList, (x.key == k) = true) ∨
    ∃ y ∈ opened, (y.key == k) = true

section Walk

variable {E : Expr} (hE : KeysIdentify E)
include hE

/-- A walk from `e` inside `E` keeps the invariant and records every function node occurring
in `e`. A node met again is recorded already: it is no opened node, which are all larger. -/
theorem postOrderInv_postOrderFrom (acc : Std.HashSet NodeKey × Array Expr) (e : Expr) :
    ∀ opened, Occurs e E → OpenAbove E opened e → PostOrderInv E opened acc →
      PostOrderInv E opened (postOrderFrom acc e) ∧
      ∀ m, Occurs m e → m.isFunc = true → m ∈ (postOrderFrom acc e).2.toList := by
  induction acc, e using postOrderFrom.induct
    (motive_1 := fun acc args => ∀ opened, (∀ a ∈ args, Occurs a E ∧ OpenAbove E opened a) →
      PostOrderInv E opened acc → PostOrderInv E opened (postOrderFrom.postOrderArgs acc args) ∧
      ∀ a ∈ args, ∀ m, Occurs m a → m.isFunc = true →
        m ∈ (postOrderFrom.postOrderArgs acc args).2.toList) with
  | case1 acc t op args h hseen =>
    intro opened he hopen hinv
    rw [postOrderFrom, if_pos hseen]
    refine ⟨hinv, fun m hm hfm => ?_⟩
    rcases hinv.seen _ (Std.HashSet.contains_iff_mem.1 hseen) with ⟨x, hx, hkey⟩ | ⟨y, hy, hkey⟩
    · obtain rfl := hE x _ (hinv.node x hx).2 he (hinv.node x hx).1 hkey
      exact hinv.post.closed hx hm hfm
    · obtain ⟨hfy, hyE, hlt⟩ := hopen y hy
      obtain rfl := hE y _ hyE he hfy hkey
      exact absurd hlt (Nat.lt_irrefl _)
  | case2 acc t op args h hseen ih =>
    intro opened he hopen hinv
    rw [postOrderFrom, if_neg hseen]
    -- the node is opened while its arguments are walked
    have hinv' : PostOrderInv E (.func t op args h :: opened)
        (acc.1.insert (Expr.func t op args h).key, acc.2) := by
      refine ⟨hinv.node, hinv.post, fun k hk => ?_⟩
      rcases Std.HashSet.mem_insert.1 hk with hk | hk
      · exact .inr ⟨_, List.mem_cons_self, hk⟩
      · exact (hinv.seen k hk).imp id (Exists.imp fun _ h => ⟨List.mem_cons_of_mem _ h.1, h.2⟩)
    have hargs : ∀ a ∈ args, Occurs a E ∧ OpenAbove E (.func t op args h :: opened) a := by
      intro a ha
      have hlt : a.treeSize < (Expr.func t op args h).treeSize :=
        treeSize_lt_of_occurs_arg ha .refl
      refine ⟨(Occurs.of_mem ha).trans he, fun y hy => ?_⟩
      rcases List.mem_cons.1 hy with rfl | hy
      · exact ⟨rfl, he, hlt⟩
      · obtain ⟨hfy, hyE, hly⟩ := hopen y hy
        exact ⟨hfy, hyE, Nat.lt_trans hlt hly⟩
    obtain ⟨hr, hall⟩ := ih _ hargs hinv'
    have hrec : ∀ a ∈ args, a.isFunc = true →
        a ∈ (postOrderFrom.postOrderArgs (acc.1.insert (Expr.func t op args h).key, acc.2) args).2.toList :=
      fun a ha hfa => hall a ha a .refl hfa
    refine ⟨⟨fun x hx => ?_, ?_, fun k hk => ?_⟩, fun m hm hfm => ?_⟩
    · rcases List.mem_append.1 (Array.toList_push ▸ hx) with hx | hx
      · exact hr.node x hx
      · rw [List.mem_singleton.1 hx]
        exact ⟨rfl, he⟩
    · rw [Array.toList_push]
      exact hr.post.push hrec
    · rw [Array.toList_push]
      rcases hr.seen k hk with ⟨x, hx, hkx⟩ | ⟨y, hy, hky⟩
      · exact .inl ⟨x, List.mem_append_left _ hx, hkx⟩
      · rcases List.mem_cons.1 hy with rfl | hy
        · exact .inl ⟨_, List.mem_append_right _ (List.mem_singleton_self _), hky⟩
        · exact .inr ⟨y, hy, hky⟩
    · rw [Array.toList_push]
      rcases occurs_func_iff.1 hm with rfl | ⟨a, ha, hma⟩
      · exact List.mem_append_right _ (List.mem_singleton_self _)
      · exact List.mem_append_left _ (hall a ha m hma hfm)
  | case3 e acc hfunc =>
    intro opened _ _ hinv
    have he := isFunc_eq_false hfunc
    rw [postOrderFrom_of_isFunc_eq_false he]
    refine ⟨hinv, fun m hm hfm => ?_⟩
    -- only the atom itself occurs in an atom
    rw [isFunc_of_occurs hm hfm] at he
    cases he
  | case4 acc =>
    rename_i opened _ hinv
    exact ⟨hinv, fun a ha => absurd ha List.not_mem_nil⟩
  | case5 acc a rest iha ihrest =>
    rename_i opened hargs hinv
    rw [postOrderFrom.postOrderArgs]
    obtain ⟨haE, hopen⟩ := hargs a List.mem_cons_self
    obtain ⟨hra, hmema⟩ := iha opened haE hopen hinv
    obtain ⟨hr, hmemr⟩ := ihrest opened (fun b hb => hargs b (List.mem_cons_of_mem _ hb)) hra
    refine ⟨hr, fun b hb m hm hfm => ?_⟩
    rcases List.mem_cons.1 hb with rfl | hb
    · exact (walked_postOrderArgs _ rest).mem (hmema m hm hfm)
    · exact hmemr b hb m hm hfm

end Walk

/-- When one key names one node, the walk records exactly the function nodes of the
expression, each after the function nodes among its arguments. -/
theorem walk_postOrder {e : Expr} (he : KeysIdentify e) :
    (∀ n, n ∈ (postOrder e).toList ↔ n.isFunc = true ∧ Occurs n e) ∧
    PostOrdered (postOrder e).toList := by
  have hstart : PostOrderInv e [] (({} : Std.HashSet NodeKey), #[]) :=
    ⟨fun x hx => by simp at hx, PostOrdered.nil, fun k hk => absurd hk Std.HashSet.not_mem_empty⟩
  obtain ⟨hinv, hall⟩ :=
    postOrderInv_postOrderFrom he _ e [] .refl (fun y hy => absurd hy List.not_mem_nil) hstart
  rw [postOrder_eq]
  exact ⟨fun n => ⟨hinv.node n, fun h => hall n h.2 h.1⟩, hinv.post⟩

/-! ## The sweep -/

/-- The adjoints the sweep of `gradientTagged` starts from: the seed `one` at the root, or at
the targets equal to it when it is an atom. -/
def Adjoints.seed (wrt : List Expr) (e : Expr) : Adjoints :=
  let start : Adjoints := { atoms := Array.replicate wrt.length #[] }
  match e with
  | .func .. => { start with nodes := start.nodes.insert e.key #[one] }
  | _ => start.push wrt e one

/-- The adjoints once the sweep of `gradientTagged t e wrt` has visited the recorded nodes from
the `i`-th on, the last first. -/
def Adjoints.sweepFrom (wrt : List Expr) (t : NodeTag) (e : Expr) (i : Nat) : Adjoints :=
  ((postOrder e).zipIdx.toList.drop i).foldr (fun (n, j) s => s.visit wrt ((t.child 0).child j) n)
    (Adjoints.seed wrt e)

/-- `gradientTagged` sums, per target, the lists the whole sweep leaves. -/
theorem gradientTagged_eq_sweep (t : NodeTag) (e : Expr) (wrt : List Expr) :
    gradientTagged t e wrt = (do
      for a in wrt do checkDiffArg a
      return (Adjoints.sweepFrom wrt t e 0).atoms.toList.zipIdx.map fun (l, k) =>
        sum ((t.child 1).child k) l.toList) := by
  rw [Adjoints.sweepFrom, List.drop_zero, Array.foldr_toList]
  rfl

theorem Adjoints.sweepFrom_size (wrt : List Expr) (t : NodeTag) (e : Expr) :
    Adjoints.sweepFrom wrt t e (postOrder e).size = Adjoints.seed wrt e := by
  rw [Adjoints.sweepFrom, List.drop_eq_nil_of_le (by simp)]
  rfl

/-- One more step of the sweep visits the `i`-th recorded node. -/
theorem Adjoints.sweepFrom_of_lt (wrt : List Expr) (t : NodeTag) {e : Expr} {i : Nat}
    (hi : i < (postOrder e).size) :
    Adjoints.sweepFrom wrt t e i =
      (Adjoints.sweepFrom wrt t e (i + 1)).visit wrt ((t.child 0).child i) (postOrder e)[i] := by
  rw [Adjoints.sweepFrom, List.drop_eq_getElem_cons (by simpa using hi), List.foldr_cons]
  simp [Adjoints.sweepFrom]

/-- What a visit of a function node does to the lists of nodes: it removes the node's own
list, then pushes at most one contribution per argument. -/
theorem Adjoints.visit_nodes (P : NodeMap (Array Expr) → Prop) {wrt : List Expr}
    {t tag : NodeTag} {op : Op} {args : List Expr} {h : UInt64} {s : Adjoints}
    (herase : P (s.nodes.erase (Expr.func tag op args h).key))
    (hpush : ∀ (s : Adjoints) a c, a ∈ args → P s.nodes → P (s.push wrt a c).nodes) :
    P (s.visit wrt t (.func tag op args h)).nodes := by
  unfold Adjoints.visit
  dsimp only
  split
  · exact herase
  · refine List.foldlRecOn (motive := fun s : Adjoints => P s.nodes) _ _ herase ?_
    rintro s' hs' ⟨⟨a, g⟩, j⟩ hmem
    have ha : a ∈ args := (List.of_mem_zip (List.fst_mem_of_mem_zipIdx hmem)).1
    dsimp only
    split
    · exact hs'
    · split
      · exact hs'
      · exact hpush s' a _ ha hs'

/-- A push lands in the list of the argument, when the argument is a function node. -/
theorem Adjoints.mem_push_nodes {wrt : List Expr} {s : Adjoints} {a c : Expr} {k : NodeKey}
    (hk : k ∈ (s.push wrt a c).nodes) : k ∈ s.nodes ∨ a.isFunc = true ∧ (a.key == k) = true := by
  unfold Adjoints.push at hk
  split at hk
  · rw [Std.HashMap.mem_alter] at hk
    split at hk
    · exact .inr ⟨rfl, ‹_›⟩
    · exact .inl hk
  · exact .inl hk

/-- Only the root holds a list before the sweep. -/
theorem Adjoints.mem_seed_nodes {wrt : List Expr} {e : Expr} {k : NodeKey}
    (hk : k ∈ (Adjoints.seed wrt e).nodes) : e.isFunc = true ∧ (e.key == k) = true := by
  unfold Adjoints.seed at hk
  split at hk
  · rcases Std.HashMap.mem_insert.1 hk with hk | hk
    · exact ⟨rfl, hk⟩
    · exact absurd hk Std.HashMap.not_mem_empty
  · rcases Adjoints.mem_push_nodes hk with hk | hk
    · exact absurd hk Std.HashMap.not_mem_empty
    · exact hk

/-- Before the sweep only the root holds a list, and the walk recorded the root. -/
theorem sweepFrom_size_nodes {e : Expr} (he : KeysIdentify e) (wrt : List Expr) (t : NodeTag) :
    ∀ k ∈ (Adjoints.sweepFrom wrt t e (postOrder e).size).nodes,
      ∃ x ∈ (postOrder e).toList.take (postOrder e).size, (x.key == k) = true := by
  intro k hk
  rw [Adjoints.sweepFrom_size] at hk
  obtain ⟨hfe, hkey⟩ := Adjoints.mem_seed_nodes hk
  refine ⟨e, ?_, hkey⟩
  rw [← Array.length_toList, List.take_length]
  exact ((walk_postOrder he).1 e).2 ⟨hfe, .refl⟩

/-- Visiting the `i`-th recorded node leaves lists of nodes before it only: it removes its own
list, and pushes only to its function arguments, which the walk recorded before it. -/
theorem sweepFrom_nodes_step {e : Expr} (he : KeysIdentify e) (wrt : List Expr) (t : NodeTag)
    {i : Nat} (hi : i < (postOrder e).size)
    (ih : ∀ k ∈ (Adjoints.sweepFrom wrt t e (i + 1)).nodes,
      ∃ x ∈ (postOrder e).toList.take (i + 1), (x.key == k) = true) :
    ∀ k ∈ (Adjoints.sweepFrom wrt t e i).nodes,
      ∃ x ∈ (postOrder e).toList.take i, (x.key == k) = true := by
  intro k
  obtain ⟨tag, op, args, h, hn⟩ :=
    isFunc_iff.1 (((walk_postOrder he).1 _).1 (Array.getElem_mem_toList hi)).1
  have htake : (postOrder e).toList.take (i + 1) =
      (postOrder e).toList.take i ++ [.func tag op args h] := by
    rw [List.take_add_one, List.getElem?_eq_getElem (by simpa using hi)]
    simp [hn]
  rw [Adjoints.sweepFrom_of_lt wrt t hi, hn]
  refine Adjoints.visit_nodes
    (fun m => k ∈ m → ∃ x ∈ (postOrder e).toList.take i, (x.key == k) = true) ?_ ?_
  · -- the visited node's own list is gone
    intro hk
    obtain ⟨hne, hk⟩ := Std.HashMap.mem_erase.1 hk
    obtain ⟨x, hx, hxk⟩ := ih k hk
    rw [htake] at hx
    rcases List.mem_append.1 hx with hx | hx
    · exact ⟨x, hx, hxk⟩
    · rw [List.mem_singleton.1 hx] at hxk
      rw [hxk] at hne
      cases hne
  · -- a push goes to a function argument, recorded before the visited node
    intro s a c ha hs hk
    rcases Adjoints.mem_push_nodes hk with hk | ⟨hfa, hak⟩
    · exact hs hk
    · obtain ⟨j, hj, hget⟩ := (walk_postOrder he).2 i (by simpa using hi) a
        (by simpa [hn, Expr.args] using ha) hfa
      refine ⟨a, ?_, hak⟩
      rw [List.mem_iff_getElem?]
      exact ⟨j, by rw [List.getElem?_take, if_pos hj, hget]⟩

/-- Once the sweep has visited the recorded nodes from the `i`-th on, only nodes before the
`i`-th hold contributions. By induction on the number `d` of nodes visited. -/
theorem sweepFrom_nodes {e : Expr} (he : KeysIdentify e) (wrt : List Expr) (t : NodeTag) :
    ∀ d i, i + d = (postOrder e).size → ∀ k ∈ (Adjoints.sweepFrom wrt t e i).nodes,
      ∃ x ∈ (postOrder e).toList.take i, (x.key == k) = true
  | 0, i, hi => by
    rw [Nat.add_zero] at hi
    subst hi
    exact sweepFrom_size_nodes he wrt t
  | d + 1, i, hi =>
    sweepFrom_nodes_step he wrt t (by omega) (sweepFrom_nodes he wrt t d (i + 1) (by omega))

/-- Reverse accumulation over an expression in which one key names one node. The walk records
every function node of the expression and nothing else, each exactly once (their keys are
pairwise distinct), and each after every function node among its arguments. So the sweep, which
visits the recorded nodes last first and is what the gradient computes, never pushes a contribution
to a node it has visited: once it has visited the nodes from the `i`-th on, only nodes before
the `i`-th hold contributions, and no list is left behind at the end. Each node is visited, and
its partial derivatives expanded, once. -/
theorem reverse_sweep_postOrder (t : NodeTag) (e : Expr) (wrt : List Expr)
    (he : KeysIdentify e) :
    let order := (postOrder e).toList
    (order.map key).Pairwise (fun a b => (a == b) = false) ∧
    (∀ n, n ∈ order ↔ n.isFunc = true ∧ Occurs n e) ∧
    (∀ i (hi : i < order.length), ∀ a ∈ order[i].args, a.isFunc = true →
      ∃ j < i, order[j]? = some a) ∧
    (∀ i ≤ order.length, ∀ k ∈ (Adjoints.sweepFrom wrt t e i).nodes,
      ∃ x ∈ order.take i, (x.key == k) = true) ∧
    (Adjoints.sweepFrom wrt t e 0).nodes.isEmpty = true ∧
    gradientTagged t e wrt = (do
      for a in wrt do checkDiffArg a
      return (Adjoints.sweepFrom wrt t e 0).atoms.toList.zipIdx.map fun (l, k) =>
        sum ((t.child 1).child k) l.toList) := by
  intro order
  obtain ⟨hmem, hpost⟩ := walk_postOrder he
  have hsweep : ∀ i ≤ order.length, ∀ k ∈ (Adjoints.sweepFrom wrt t e i).nodes,
      ∃ x ∈ order.take i, (x.key == k) = true := fun i hi =>
    sweepFrom_nodes he wrt t (order.length - i) i (by simp only [order, Array.length_toList] at hi ⊢; omega)
  refine ⟨keys_postOrder_pairwise e, hmem, hpost, hsweep, ?_, gradientTagged_eq_sweep t e wrt⟩
  -- no node comes before the first
  refine Std.HashMap.isEmpty_iff_forall_not_mem.2 fun k hk => ?_
  obtain ⟨x, hx, -⟩ := hsweep 0 (Nat.zero_le _) k hk
  simp at hx

/-- The walk of `cos t · cos t` records the shared cosine once, with the product, and the sweep
of its gradient by the time leaves no list behind. -/
theorem cosSquared_sweep :
    KeysIdentify cosSquared ∧
    (postOrder cosSquared).toList.Perm [cosTime, cosSquared] ∧
    (Adjoints.sweepFrom [.time] .anon cosSquared 0).nodes.isEmpty = true := by
  have hkeys := identified_cosSquared.keysIdentify
  obtain ⟨hpair, hmem, -, -, hempty, -⟩ := reverse_sweep_postOrder .anon cosSquared [.time] hkeys
  have hnodup : (postOrder cosSquared).toList.Nodup :=
    (List.pairwise_map.1 hpair).imp fun hxy hxy' => by rw [hxy', BEq.refl] at hxy; cases hxy
  have hne : cosTime ≠ cosSquared := by simp [cosTime, cosSquared, node]
  refine ⟨hkeys, (List.perm_ext_iff_of_nodup hnodup (by simp [hne])).2 fun n => ?_, hempty⟩
  rw [hmem, occurs_cosSquared, List.mem_pair]
  constructor
  · rintro ⟨hf, rfl | rfl | rfl⟩
    · exact .inr rfl
    · exact .inl rfl
    · cases hf
  · rintro (rfl | rfl)
    · exact ⟨rfl, .inr (.inl rfl)⟩
    · exact ⟨rfl, .inl rfl⟩

end Expr

end TaylorOde
