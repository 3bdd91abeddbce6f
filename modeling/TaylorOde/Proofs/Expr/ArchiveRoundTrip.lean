import TaylorOde.Proofs.Expr.Rebuild
import TaylorOde.Proofs.Expr.Preparation
/-!
# Archives of expressions read back

Writing an archive walks the expression in post-order and remembers every function node by
its key, so a node met twice is written once and referred to by its position afterwards.
Reading rebuilds the nodes in order and tags the node at position `i` under `p ++ [i]`.

The main result, `archive_round_trip`, is about expressions as the library builds them
(`Identified`: every function node is tagged, one tag names one node, cached hashes are
right and every operator accepts its number of arguments). Their archive
* places every node after the nodes it refers to;
* has one function entry per distinct function node, at a position `ρ q` given by the node's
  tag `q`, and distinct tags at distinct positions;
* reads back, cut after the position of a node, as that node, and read whole as the
  expression with its tags renamed by `q ↦ p ++ [ρ q]` (`retag`). The renamed expression is
  structurally equal to the original, keeps every literal with its format, and two of its
  nodes are the same node exactly when they were in the original.

Reading any list of nodes fails exactly when it is empty or one of its nodes is misplaced.

The walk is followed by an invariant on its state (`WalkInv`): the archive written so far
rebuilds, and the memo sends the tag of every node written to the position where its rebuilt
form stands. One lemma per kind of node keeps it (`WalkInv.pushAtom`, `WalkInv.pushFunc`),
and the run lemma `flattenFrom_walk` follows the recursion of the walk.
-/

namespace TaylorOde

namespace Expr

/-! ## Renaming tags -/

/-- Renames the tag of every function node and keeps everything else, cached hashes
included. -/
def retag (σ : NodeTag → NodeTag) : Expr → Expr
  | .func t op args h => .func (σ t) op (retagArgs σ args) h
  | e => e
where
  /-- Renames the tags in each argument. -/
  retagArgs (σ : NodeTag → NodeTag) : List Expr → List Expr
    | [] => []
    | a :: as => retag σ a :: retagArgs σ as

@[simp] theorem retagArgs_eq (σ : NodeTag → NodeTag) :
    ∀ l : List Expr, retag.retagArgs σ l = l.map (retag σ)
  | [] => rfl
  | a :: as => by simp [retag.retagArgs, retagArgs_eq σ as]

@[simp] theorem retag_func (σ : NodeTag → NodeTag) (t : NodeTag) (op : Op) (args : List Expr)
    (h : UInt64) : (Expr.func t op args h).retag σ = .func (σ t) op (args.map (retag σ)) h := by
  simp [retag]

@[simp] theorem retag_num (σ : NodeTag → NodeTag) (n : Literal) : (Expr.num n).retag σ = .num n :=
  rfl

@[simp] theorem retag_param (σ : NodeTag → NodeTag) (i : UInt32) :
    (Expr.param i).retag σ = .param i := rfl

@[simp] theorem retag_var (σ : NodeTag → NodeTag) (v : String) : (Expr.var v).retag σ = .var v :=
  rfl

@[simp] theorem retag_time (σ : NodeTag → NodeTag) : Expr.time.retag σ = .time := rfl

/-- Only the expression itself occurs in an expression without arguments. -/
theorem occurs_iff_of_args_nil {a e : Expr} (he : e.args = []) : Occurs a e ↔ a = e :=
  ⟨fun h => h.eq_of_args_nil he, fun h => h ▸ .refl⟩

theorem argsEq_map_retag {σ : NodeTag → NodeTag} {args : List Expr}
    (h : ∀ a ∈ args, (a.retag σ).beq a = true) : ArgsEq (args.map (retag σ)) args := by
  rw [ArgsEq, List.forall₂_map_left_iff, List.forall₂_same]
  exact h

/-- Renaming tags keeps an expression structurally equal to itself. -/
theorem retag_beq (σ : NodeTag → NodeTag) (e : Expr) : (e.retag σ).beq e = true := by
  induction e using recArgs with
  | func t op args h ih =>
    rw [retag_func]
    exact func_beq_func.2 ⟨rfl, rfl, argsEq_map_retag ih⟩
  | num n => exact beq_self _
  | param i => exact beq_self _
  | var v => exact beq_self _
  | time => exact beq_self _

/-- The hash of a node does not see the tags of its arguments. -/
theorem nodeHash_retag (σ : NodeTag → NodeTag) (op : Op) (args : List Expr) :
    nodeHash op (args.map (retag σ)) = nodeHash op args :=
  nodeHash_congr op (argsEq_map_retag fun a _ => retag_beq σ a)

/-- The nodes of a renamed expression are the renamed nodes of the original. -/
theorem occurs_retag_iff {σ : NodeTag → NodeTag} {e : Expr} :
    ∀ {y : Expr}, Occurs y (e.retag σ) ↔ ∃ z, Occurs z e ∧ y = z.retag σ := by
  induction e using recArgs with
  | func t op args h ih =>
    intro y
    rw [retag_func, occurs_func_iff]
    constructor
    · rintro (rfl | ⟨b, hb, hy⟩)
      · exact ⟨_, .refl, (retag_func σ t op args h).symm⟩
      · obtain ⟨a, ha, rfl⟩ := List.mem_map.1 hb
        obtain ⟨z, hz, rfl⟩ := (ih a ha).1 hy
        exact ⟨z, .arg ha hz, rfl⟩
    · rintro ⟨z, hz, rfl⟩
      rcases occurs_func_iff.1 hz with rfl | ⟨b, hb, hzb⟩
      · exact .inl (retag_func σ t op args h)
      · exact .inr ⟨b.retag σ, List.mem_map_of_mem hb, (ih b hb).2 ⟨z, hzb, rfl⟩⟩
  | num _ | param _ | var _ | time =>
    intro y
    rw [occurs_iff_of_args_nil rfl]
    constructor
    · rintro rfl
      exact ⟨_, .refl, rfl⟩
    · rintro ⟨z, hz, rfl⟩
      rw [occurs_iff_of_args_nil rfl] at hz
      subst hz
      rfl

/-- Renamings that agree on the tags of the function nodes of `e` rename it alike. -/
theorem retag_congr {σ σ' : NodeTag → NodeTag} {e : Expr}
    (hσ : ∀ t op args h, Occurs (.func t op args h) e → σ t = σ' t) :
    e.retag σ = e.retag σ' := by
  induction e using recArgs with
  | func t op args h ih =>
    rw [retag_func, retag_func, hσ t op args h .refl, List.map_congr_left fun a ha =>
      ih a ha fun t' op' args' h' hocc => hσ t' op' args' h' (.arg ha hocc)]
  | _ => rfl

/-- The tags of an archive read under `.path p`: the node of tag `q`, written at position
`ρ q`, is rebuilt under `p ++ [ρ q]`. -/
def placeTag (p : List Nat) (ρ : List Nat → Nat) : NodeTag → NodeTag
  | .path q => .path (p ++ [ρ q])
  | .anon => .anon

/-! ## Expressions as the library builds them -/

/-- An expression as the library's constructors leave it: every function node has a tag, one
tag names one node, cached hashes are right and every operator accepts its number of
arguments. -/
structure Identified (e : Expr) : Prop where
  tagged : ∀ t op args h, Occurs (.func t op args h) e → t ≠ .anon
  identify : TagsIdentify [e]
  hash : e.HashOk
  arity : ∀ t op args h, Occurs (.func t op args h) e → op.accepts args.length = true

namespace Identified

variable {E : Expr} (hE : Identified E)
include hE

theorem path?_of_func {x : Expr} (hx : Occurs x E) {t : NodeTag} {op : Op} {args : List Expr}
    {h : UInt64} (hfun : x = .func t op args h) : ∃ q, t = .path q ∧ x.path? = some q := by
  subst hfun
  cases t with
  | anon => exact absurd rfl (hE.tagged _ _ _ _ hx)
  | path q => exact ⟨q, rfl, rfl⟩

/-- A node of an identified expression without a tag is an atom, which renaming keeps. -/
theorem retag_of_path?_none {x : Expr} (hx : Occurs x E) (hq : x.path? = none)
    (σ : NodeTag → NodeTag) : x.retag σ = x := by
  cases x with
  | func t op args h =>
    obtain ⟨q, -, hq'⟩ := hE.path?_of_func hx rfl
    rw [hq] at hq'
    cases hq'
  | _ => rfl

theorem eq_of_path? {x y : Expr} {q : List Nat} (hx : Occurs x E) (hy : Occurs y E)
    (hxq : x.path? = some q) (hyq : y.path? = some q) : x = y :=
  hE.identify x y q ⟨E, List.mem_singleton_self E, hx⟩ ⟨E, List.mem_singleton_self E, hy⟩ hxq hyq

end Identified

/-! ## The state of the walk -/

/-- The position the memo gives a tag (zero for a tag it does not hold). -/
def memoPos (m : NodeMap Nat) (q : List Nat) : Nat := (m[NodeKey.tagged q]?).getD 0

theorem memoPos_of_getElem? {m : NodeMap Nat} {q : List Nat} {i : Nat}
    (h : m[NodeKey.tagged q]? = some i) : memoPos m q = i := by
  simp [memoPos, h]

theorem getElem?_insert_tagged {m : NodeMap Nat} {q q' : List Nat} {v : Nat} :
    (m.insert (NodeKey.tagged q) v)[NodeKey.tagged q']? =
      if q = q' then some v else m[NodeKey.tagged q']? := by
  rw [Std.HashMap.getElem?_insert, NodeKey.tagged_beq_tagged]
  simp only [beq_iff_eq]

/-- The memo holds the tag of every tagged node of `x`. -/
def Memoized (m : NodeMap Nat) (x : Expr) : Prop :=
  ∀ y q, Occurs y x → y.path? = some q → ∃ i, m[NodeKey.tagged q]? = some i

/-- Position `r` of the rebuilt expressions holds `x` with its tags placed by the memo, and
the memo holds every tag of `x`. -/
structure Written (p : List Nat) (m : NodeMap Nat) (B : Array Expr) (x : Expr) (r : Nat) :
    Prop where
  memoized : Memoized m x
  rebuilt : B[r]? = some (x.retag (placeTag p (memoPos m)))

/-- From one state of the walk to a later one: the memo entries and the rebuilt expressions
stay. -/
structure Grows (m m' : NodeMap Nat) (B B' : Array Expr) : Prop where
  memo : ∀ (k : NodeKey) (i : Nat), m[k]? = some i → m'[k]? = some i
  built : ∀ i, i < B.size → B'[i]? = B[i]?

theorem Grows.refl (m : NodeMap Nat) (B : Array Expr) : Grows m m B B :=
  ⟨fun _ _ h => h, fun _ _ => rfl⟩

theorem Grows.trans {m₁ m₂ m₃ : NodeMap Nat} {B₁ B₂ B₃ : Array Expr} (h₁ : Grows m₁ m₂ B₁ B₂)
    (h₂ : Grows m₂ m₃ B₂ B₃) : Grows m₁ m₃ B₁ B₃ := by
  refine ⟨fun k i hk => h₂.memo k i (h₁.memo k i hk), fun i hi => ?_⟩
  have hi₂ : i < B₂.size := by
    have := h₁.built i hi
    have hlt : B₁[i]?.isSome := by simp [hi]
    rw [← this] at hlt
    simpa using hlt
  rw [h₂.built i hi₂, h₁.built i hi]

theorem Grows.push (m : NodeMap Nat) (B : Array Expr) (e : Expr) : Grows m m B (B.push e) :=
  ⟨fun _ _ h => h, fun i hi => by rw [Array.getElem?_push, if_neg (by omega)]⟩

/-- A memo that gains a fresh key keeps its entries. -/
theorem Grows.insert {m : NodeMap Nat} {k : NodeKey} (hk : m[k]? = none) (v : Nat)
    (B : Array Expr) : Grows m (m.insert k v) B B := by
  refine ⟨fun k' i hk' => ?_, fun _ _ => rfl⟩
  rw [Std.HashMap.getElem?_insert]
  split
  · rename_i hkk
    rw [← Std.HashMap.getElem?_congr hkk, hk] at hk'
    cases hk'
  · exact hk'

/-- The tags of a node held by a memo are placed alike by every memo that keeps its
entries. -/
theorem retag_memo_grow {p : List Nat} {m m' : NodeMap Nat} {x : Expr} (hx : Memoized m x)
    (hmm : ∀ (k : NodeKey) (i : Nat), m[k]? = some i → m'[k]? = some i) :
    x.retag (placeTag p (memoPos m)) = x.retag (placeTag p (memoPos m')) := by
  refine retag_congr fun t op args h hocc => ?_
  cases t with
  | anon => rfl
  | path q =>
    obtain ⟨i, hi⟩ := hx _ q hocc rfl
    simp only [placeTag, memoPos_of_getElem? hi, memoPos_of_getElem? (hmm _ i hi)]

/-- A written node stays put as the walk goes on. -/
theorem Written.grow {p : List Nat} {m m' : NodeMap Nat} {B B' : Array Expr} {x : Expr} {r : Nat}
    (hw : Written p m B x r) (hg : Grows m m' B B') : Written p m' B' x r := by
  have hr : r < B.size := (Array.getElem?_eq_some_iff.1 hw.rebuilt).1
  refine ⟨fun y q hy hq => ?_, ?_⟩
  · obtain ⟨i, hi⟩ := hw.memoized y q hy hq
    exact ⟨i, hg.memo _ i hi⟩
  · rw [hg.built r hr, hw.rebuilt, retag_memo_grow hw.memoized hg.memo]

/-- Arguments written at some positions have their tags held by the memo. -/
theorem Written.memoized_args {p : List Nat} {m : NodeMap Nat} {B : Array Expr}
    {refs : List Nat} {args : List Expr}
    (h : List.Forall₂ (fun r a => Written p m B a r) refs args) : ∀ a ∈ args, Memoized m a := by
  induction h with
  | nil => intro a ha; cases ha
  | cons hw _ ih =>
    intro a ha
    rcases List.mem_cons.1 ha with rfl | ha
    · exact hw.memoized
    · exact ih a ha

/-- Every tag the memo `m'` holds beyond `m` is the tag of a node of one of `xs`. -/
def NewTags (m m' : NodeMap Nat) (xs : List Expr) : Prop :=
  ∀ q i, m'[NodeKey.tagged q]? = some i →
    m[NodeKey.tagged q]? = some i ∨ ∃ y a, a ∈ xs ∧ Occurs y a ∧ y.path? = some q

theorem NewTags.refl (m : NodeMap Nat) (xs : List Expr) : NewTags m m xs :=
  fun _ _ h => .inl h

theorem NewTags.trans {m₁ m₂ m₃ : NodeMap Nat} {xs ys : List Expr} (h₁ : NewTags m₁ m₂ xs)
    (h₂ : NewTags m₂ m₃ ys) : NewTags m₁ m₃ (xs ++ ys) := by
  intro q i hi
  rcases h₂ q i hi with hi | ⟨y, a, ha, hy, hq⟩
  · rcases h₁ q i hi with hi | ⟨y, a, ha, hy, hq⟩
    · exact .inl hi
    · exact .inr ⟨y, a, List.mem_append_left ys ha, hy, hq⟩
  · exact .inr ⟨y, a, List.mem_append_right xs ha, hy, hq⟩

theorem NewTags.mono {m m' : NodeMap Nat} {xs ys : List Expr} (h : NewTags m m' xs)
    (hsub : ∀ y a, a ∈ xs → Occurs y a → ∃ b ∈ ys, Occurs y b) : NewTags m m' ys := by
  intro q i hi
  rcases h q i hi with hi | ⟨y, a, ha, hy, hq⟩
  · exact .inl hi
  · obtain ⟨b, hb, hyb⟩ := hsub y a ha hy
    exact .inr ⟨y, b, hb, hyb, hq⟩

/-- The state `(m, arr)` of a walk over the nodes of `E`, with `B` the expressions `arr`
rebuilds to under `.path p`: the memo sends the tag of every node written to the position of
its rebuilt form, which is a function entry; every function entry is so reached; and no two
tags share a position. -/
structure WalkInv (E : Expr) (p : List Nat) (m : NodeMap Nat) (arr : Array ArchiveNode)
    (B : Array Expr) : Prop where
  rebuild : rebuildFrom (.path p) #[] arr.toList = .ok B
  memo : ∀ x q i, Occurs x E → x.path? = some q → m[NodeKey.tagged q]? = some i →
    Written p m B x i
  bound : ∀ (k : NodeKey) (i : Nat), m[k]? = some i → i < arr.size
  memoFunc : ∀ (k : NodeKey) (i : Nat), m[k]? = some i → ∃ op refs, arr[i]? = some (.func op refs)
  funcs : ∀ i op refs, arr[i]? = some (.func op refs) →
    ∃ x q, Occurs x E ∧ x.path? = some q ∧ m[NodeKey.tagged q]? = some i
  inj : ∀ q q' i, m[NodeKey.tagged q]? = some i → m[NodeKey.tagged q']? = some i → q = q'

namespace WalkInv

variable {E : Expr} {p : List Nat} {m : NodeMap Nat} {arr : Array ArchiveNode} {B : Array Expr}

theorem size (hinv : WalkInv E p m arr B) : B.size = arr.size := by
  simpa using rebuildFrom_size hinv.rebuild

theorem empty (E : Expr) (p : List Nat) : WalkInv E p {} #[] #[] where
  rebuild := rfl
  memo _ _ _ _ _ h := by simp at h
  bound _ _ h := by simp at h
  memoFunc _ _ h := by simp at h
  funcs _ _ _ h := by simp at h
  inj _ _ _ h := by simp at h

/-- Writing an atom keeps the invariant. -/
theorem pushAtom (hinv : WalkInv E p m arr B) {n : ArchiveNode} {x : Expr}
    (hn : rebuildNode (.path p) B n = .ok x) (hnf : ∀ op refs, n ≠ .func op refs) :
    WalkInv E p m (arr.push n) (B.push x) where
  rebuild := rebuildFrom_push hinv.rebuild hn
  memo y q i hy hq hi := (hinv.memo y q i hy hq hi).grow (Grows.push m B x)
  bound k i hk := by
    have := hinv.bound k i hk
    rw [Array.size_push]
    omega
  memoFunc k i hk := by
    obtain ⟨op, refs, h⟩ := hinv.memoFunc k i hk
    exact ⟨op, refs, by rw [Array.getElem?_push, if_neg (by have := hinv.bound k i hk; omega), h]⟩
  funcs i op refs h := by
    rw [Array.getElem?_push] at h
    split at h
    · cases h
      exact absurd rfl (hnf op refs)
    · exact hinv.funcs i op refs h
  inj := hinv.inj

/-- Writing a function node of `E` whose tag the memo does not hold, after its arguments,
keeps the invariant, and its position then holds it. -/
theorem pushFunc (hE : Identified E) (hinv : WalkInv E p m arr B) {t : NodeTag} {op : Op}
    {args : List Expr} {h : UInt64} {q : List Nat} {refs : List Nat}
    (hx : Occurs (.func t op args h) E) (ht : t = .path q)
    (hfresh : m[NodeKey.tagged q]? = none)
    (hargs : List.Forall₂ (fun r a => Written p m B a r) refs args) :
    WalkInv E p (m.insert (NodeKey.tagged q) arr.size) (arr.push (.func op refs))
        (B.push ((Expr.func t op args h).retag
          (placeTag p (memoPos (m.insert (NodeKey.tagged q) arr.size))))) ∧
      Written p (m.insert (NodeKey.tagged q) arr.size)
        (B.push ((Expr.func t op args h).retag
          (placeTag p (memoPos (m.insert (NodeKey.tagged q) arr.size))))) (.func t op args h)
        arr.size := by
  subst ht
  set m' := m.insert (NodeKey.tagged q) arr.size with hm'
  set x := Expr.func (.path q) op args h with hxdef
  set x' := x.retag (placeTag p (memoPos m')) with hx'
  have hsize := hinv.size
  have hgrow : Grows m m' B (B.push x') :=
    (Grows.insert hfresh arr.size B).trans (Grows.push m' B x')
  have hnew : m'[NodeKey.tagged q]? = some arr.size := by simp [hm']
  have hold : ∀ q', q' ≠ q → m'[NodeKey.tagged q']? = m[NodeKey.tagged q']? := fun q' hq' => by
    simp [hm', getElem?_insert_tagged, Ne.symm hq']
  -- the arguments are written already, so `m` holds their tags
  have hmemo_args : ∀ a ∈ args, Memoized m a := Written.memoized_args hargs
  have hmemo_x : Memoized m' x := by
    intro y q' hy hq'
    rcases occurs_func_iff.1 hy with rfl | ⟨a, ha, hya⟩
    · simp only [path?_func_path, Option.some.injEq] at hq'
      subst hq'
      exact ⟨_, hnew⟩
    · obtain ⟨i, hi⟩ := hmemo_args a ha y q' hya hq'
      exact ⟨i, hgrow.memo _ i hi⟩
  -- the node rebuilt at the new position is `x` renamed: same hash, renamed arguments
  have hσargs : args.map (retag (placeTag p (memoPos m'))) =
      args.map (retag (placeTag p (memoPos m))) :=
    List.map_congr_left fun a ha => (retag_memo_grow (hmemo_args a ha) hgrow.memo).symm
  have hh : h = nodeHash op args := hE.hash _ _ _ _ hx
  have hretag : x' = node ((NodeTag.path p).child B.size) op
      (args.map (retag (placeTag p (memoPos m)))) := by
    rw [hx', hxdef, retag_func, hσargs, node, nodeHash_retag, ← hh, child_path, hsize]
    simp only [placeTag, memoPos_of_getElem? hnew]
  have hnode : rebuildNode (.path p) B (.func op refs) = .ok x' := by
    rw [hretag]
    refine rebuildNode_func_eq_ok.2 ⟨_, ?_, ?_, rfl⟩
    · rw [List.forall₂_map_right_iff]
      exact hargs.imp fun r a hw => hw.rebuilt
    · rw [hargs.length_eq]
      exact hE.arity _ _ _ _ hx
  have hlast : (B.push x')[arr.size]? = some x' := by
    rw [Array.getElem?_push, if_pos hsize.symm]
  refine ⟨⟨rebuildFrom_push hinv.rebuild hnode, ?_, ?_, ?_, ?_, ?_⟩, ⟨hmemo_x, hlast⟩⟩
  · intro y q' i hy hq' hi
    by_cases hqq : q' = q
    · subst hqq
      rw [hnew, Option.some.injEq] at hi
      subst hi
      obtain rfl := hE.eq_of_path? hy hx hq' rfl
      exact ⟨hmemo_x, hlast⟩
    · rw [hold q' hqq] at hi
      exact (hinv.memo y q' i hy hq' hi).grow hgrow
  · intro k i hk
    rw [hm', Std.HashMap.getElem?_insert] at hk
    split at hk
    · cases hk
      simp
    · have := hinv.bound k i hk
      simp only [Array.size_push]
      omega
  · intro k i hk
    rw [hm', Std.HashMap.getElem?_insert] at hk
    split at hk
    · cases hk
      exact ⟨op, refs, by simp⟩
    · obtain ⟨op', refs', h'⟩ := hinv.memoFunc k i hk
      have := hinv.bound k i hk
      exact ⟨op', refs', by rw [Array.getElem?_push, if_neg (by omega), h']⟩
  · intro i op' refs' hi
    rw [Array.getElem?_push] at hi
    split at hi
    · rename_i heq
      subst heq
      exact ⟨x, q, hx, rfl, hnew⟩
    · obtain ⟨y, q', hy, hq', hyi⟩ := hinv.funcs i op' refs' hi
      exact ⟨y, q', hy, hq', hgrow.memo _ i hyi⟩
  · -- the new position is past every old one, so only the new tag reaches it
    intro q₁ q₂ i h₁ h₂
    by_cases e₁ : q₁ = q <;> by_cases e₂ : q₂ = q
    · rw [e₁, e₂]
    · subst e₁
      rw [hnew, Option.some.injEq] at h₁
      subst h₁
      rw [hold q₂ e₂] at h₂
      have := hinv.bound _ _ h₂
      omega
    · subst e₂
      rw [hnew, Option.some.injEq] at h₂
      subst h₂
      rw [hold q₁ e₁] at h₁
      have := hinv.bound _ _ h₁
      omega
    · rw [hold q₁ e₁] at h₁
      rw [hold q₂ e₂] at h₂
      exact hinv.inj q₁ q₂ i h₁ h₂

end WalkInv

/-! ## The walk -/

/-- A walk from a state `(m, ·)` rebuilding to `B` over the nodes of `xs` ends in the state
`(m', arr')` rebuilding to `B'`: the invariant holds there, the state grew from the first,
and the memo holds no new tag but those of `xs`. -/
structure Step (E : Expr) (p : List Nat) (m : NodeMap Nat) (B : Array Expr) (xs : List Expr)
    (m' : NodeMap Nat) (arr' : Array ArchiveNode) (B' : Array Expr) : Prop where
  inv : WalkInv E p m' arr' B'
  grows : Grows m m' B B'
  newTags : NewTags m m' xs

theorem Step.trans {E : Expr} {p : List Nat} {m₁ m₂ m₃ : NodeMap Nat}
    {arr₂ arr₃ : Array ArchiveNode} {B₁ B₂ B₃ : Array Expr} {xs ys : List Expr}
    (h₁ : Step E p m₁ B₁ xs m₂ arr₂ B₂) (h₂ : Step E p m₂ B₂ ys m₃ arr₃ B₃) :
    Step E p m₁ B₁ (xs ++ ys) m₃ arr₃ B₃ :=
  ⟨h₂.inv, h₁.grows.trans h₂.grows, h₁.newTags.trans h₂.newTags⟩

section Walk

variable {E : Expr} {p : List Nat}

/-- Writing an atom: it lands at the next position, where it rebuilds to itself. -/
theorem WalkInv.walkAtom {m : NodeMap Nat} {arr : Array ArchiveNode} {B : Array Expr}
    (hinv : WalkInv E p m arr B) {n : ArchiveNode} {x : Expr}
    (hn : rebuildNode (.path p) B n = .ok x) (hnf : ∀ op refs, n ≠ .func op refs)
    (hx : x.args = []) (hq : x.path? = none) (hσ : ∀ σ, x.retag σ = x) :
    ∃ B', Step E p m B [x] m (arr.push n) B' ∧ Written p m B' x arr.size := by
  refine ⟨B.push x, ⟨hinv.pushAtom hn hnf, Grows.push m B x, NewTags.refl m _⟩, ?_, ?_⟩
  · intro y q hy hyq
    rw [hy.eq_of_args_nil hx, hq] at hyq
    cases hyq
  · rw [Array.getElem?_push, if_pos hinv.size.symm, hσ]

/-- The walk of the arguments of a node, one after another, from the walk of each. -/
theorem flattenArgs_walk {args : List Expr}
    (ih : ∀ a ∈ args, ∀ m arr B, WalkInv E p m arr B →
      ∃ B', Step E p m B [a] (flattenFrom (m, arr) a).1.1 (flattenFrom (m, arr) a).1.2 B' ∧
        Written p (flattenFrom (m, arr) a).1.1 B' a (flattenFrom (m, arr) a).2) :
    ∀ m arr B, WalkInv E p m arr B →
      ∃ B', Step E p m B args (flattenFrom.flattenArgs (m, arr) args).1.1
          (flattenFrom.flattenArgs (m, arr) args).1.2 B' ∧
        List.Forall₂ (fun r a => Written p (flattenFrom.flattenArgs (m, arr) args).1.1 B' a r)
          (flattenFrom.flattenArgs (m, arr) args).2 args := by
  induction args with
  | nil =>
    intro m arr B hinv
    exact ⟨B, ⟨hinv, Grows.refl m B, NewTags.refl m []⟩, .nil⟩
  | cons a rest ihrest =>
    intro m arr B hinv
    obtain ⟨B₁, hstep₁, hw₁⟩ := ih a List.mem_cons_self m arr B hinv
    rcases hfa : flattenFrom (m, arr) a with ⟨⟨m₁, arr₁⟩, r⟩
    rw [hfa] at hstep₁ hw₁
    obtain ⟨B₂, hstep₂, hws⟩ :=
      ihrest (fun b hb => ih b (List.mem_cons_of_mem a hb)) m₁ arr₁ B₁ hstep₁.inv
    rcases hfr : flattenFrom.flattenArgs (m₁, arr₁) rest with ⟨⟨m₂, arr₂⟩, rs⟩
    rw [hfr] at hstep₂ hws
    rw [flattenFrom.flattenArgs, hfa]
    simp only [hfr]
    exact ⟨B₂, hstep₁.trans hstep₂, .cons (hw₁.grow hstep₂.grows) hws⟩

/-- The walk of a node of an identified expression keeps the invariant and leaves the node at
the position it returns. -/
theorem flattenFrom_walk (hE : Identified E) : ∀ x, Occurs x E → ∀ m arr B,
    WalkInv E p m arr B →
    ∃ B', Step E p m B [x] (flattenFrom (m, arr) x).1.1 (flattenFrom (m, arr) x).1.2 B' ∧
      Written p (flattenFrom (m, arr) x).1.1 B' x (flattenFrom (m, arr) x).2 := by
  intro x
  induction x using recArgs with
  | func t op args h ih =>
    intro hx m arr B hinv
    obtain ⟨q, rfl, hq⟩ := hE.path?_of_func hx rfl
    have hkey : (Expr.func (.path q) op args h).key = NodeKey.tagged q := rfl
    cases hm : m[NodeKey.tagged q]? with
    | some pos =>
      -- met before: the memo answers with its position
      have hflat : flattenFrom (m, arr) (.func (.path q) op args h) = ((m, arr), pos) := by
        rw [flattenFrom, hkey, Std.HashMap.get?_eq_getElem?, hm]
      rw [hflat]
      exact ⟨B, ⟨hinv, Grows.refl m B, NewTags.refl m _⟩, hinv.memo _ q pos hx hq hm⟩
    | none =>
      obtain ⟨B₁, hstep₁, hws⟩ :=
        flattenArgs_walk (fun a ha => ih a ha ((Occurs.of_mem ha).trans hx)) m arr B hinv
      rcases hfa : flattenFrom.flattenArgs (m, arr) args with ⟨⟨m₁, arr₁⟩, refs⟩
      rw [hfa] at hstep₁ hws
      -- the arguments do not contain the node, so their walk leaves its tag out of the memo
      have hfresh : m₁[NodeKey.tagged q]? = none := by
        cases h₁ : m₁[NodeKey.tagged q]? with
        | none => rfl
        | some i =>
          rcases hstep₁.newTags q i h₁ with h₀ | ⟨y, a, ha, hy, hyq⟩
          · rw [hm] at h₀
            cases h₀
          · obtain rfl := hE.eq_of_path? ((hy.trans (.of_mem ha)).trans hx) hx hyq hq
            have := @treeSize_lt_of_occurs_arg _ a (.path q) op args h ha hy
            omega
      have hflat : flattenFrom (m, arr) (.func (.path q) op args h) =
          ((m₁.insert (NodeKey.tagged q) arr₁.size, arr₁.push (.func op refs)), arr₁.size) := by
        rw [flattenFrom, hkey, Std.HashMap.get?_eq_getElem?, hm]
        simp only [hfa]
      rw [hflat]
      obtain ⟨hinv', hw⟩ := hstep₁.inv.pushFunc hE hx rfl hfresh hws
      have hnew : NewTags m₁ (m₁.insert (NodeKey.tagged q) arr₁.size)
          [.func (.path q) op args h] := by
        intro q' i hi
        rw [getElem?_insert_tagged] at hi
        split at hi
        · rename_i hqq
          subst hqq
          exact .inr ⟨_, _, List.mem_singleton_self _, .refl, hq⟩
        · exact .inl hi
      refine ⟨_, ⟨hinv', hstep₁.grows.trans ((Grows.insert hfresh _ _).trans (Grows.push _ _ _)),
        (hstep₁.newTags.trans hnew).mono fun y a ha hy => ⟨_, List.mem_singleton_self _, ?_⟩⟩, hw⟩
      rcases List.mem_append.1 ha with ha | ha
      · exact hy.trans (.of_mem ha)
      · rwa [List.mem_singleton.1 ha] at hy
  | num n =>
    intro _ m arr B hinv
    exact hinv.walkAtom rfl (fun _ _ h => by cases h) rfl rfl fun _ => rfl
  | param i =>
    intro _ m arr B hinv
    exact hinv.walkAtom rfl (fun _ _ h => by cases h) rfl rfl fun _ => rfl
  | var v =>
    intro _ m arr B hinv
    exact hinv.walkAtom rfl (fun _ _ h => by cases h) rfl rfl fun _ => rfl
  | time =>
    intro _ m arr B hinv
    exact hinv.walkAtom rfl (fun _ _ h => by cases h) rfl rfl fun _ => rfl

/-- A walk that meets a node for the first time writes it last, and the memo then holds its
tag at that position. -/
theorem flattenFrom_last {m : NodeMap Nat} {arr : Array ArchiveNode} {x : Expr}
    (hm : m.get? x.key = none) :
    (flattenFrom (m, arr) x).2 + 1 = (flattenFrom (m, arr) x).1.2.size ∧
      ∀ q, x.path? = some q →
        (flattenFrom (m, arr) x).1.1[NodeKey.tagged q]? = some (flattenFrom (m, arr) x).2 := by
  cases x with
  | func t op args h =>
    rw [flattenFrom, hm]
    rcases hfa : flattenFrom.flattenArgs (m, arr) args with ⟨⟨m₁, arr₁⟩, refs⟩
    refine ⟨by simp, fun q hq => ?_⟩
    cases t with
    | anon => cases hq
    | path q' =>
      simp only [path?_func_path, Option.some.injEq] at hq
      subst hq
      exact Std.HashMap.getElem?_insert_self
  | _ => exact ⟨by simp [flattenFrom], fun _ hq => by cases hq⟩

end Walk

/-! ## Archives of identified expressions -/

/-- How the archive `nodes` lays out the expression `e` when read under `.path p`, with `ρ q`
the position of the node of tag `q`. -/
structure Layout (e : Expr) (p : List Nat) (ρ : List Nat → Nat) (nodes : List ArchiveNode) :
    Prop where
  /-- every node stands after the nodes it refers to -/
  placed : ∀ i (h : i < nodes.length), nodes[i].Placed i
  /-- the function entries are the positions of the nodes of `e` -/
  funcs : ∀ i (h : i < nodes.length),
    nodes[i].IsFunc ↔ ∃ x q, Occurs x e ∧ x.path? = some q ∧ ρ q = i
  /-- distinct nodes stand at distinct positions -/
  distinct : ∀ x y q q', Occurs x e → Occurs y e → x.path? = some q → y.path? = some q' →
    (ρ q = ρ q' ↔ q = q')
  /-- the archive cut after the position of a node reads as that node -/
  listed : ∀ x q, Occurs x e → x.path? = some q →
    ofArchiveNodes (.path p) (nodes.take (ρ q + 1)) = .ok (x.retag (placeTag p ρ))
  /-- a function node at the root stands last -/
  last : ∀ q, e.path? = some q → ρ q + 1 = nodes.length
  /-- the whole archive reads as the expression -/
  root : ofArchiveNodes (.path p) nodes = .ok (e.retag (placeTag p ρ))

section Layout

variable {E : Expr} (hE : Identified E)
include hE

/-- The archive of an identified expression, with positions given by the memo of its walk. -/
theorem archiveNodes_layout (p : List Nat) :
    Layout E p (memoPos (flattenFrom ({}, #[]) E).1.1) E.archiveNodes := by
  obtain ⟨B, hstep, hroot⟩ := flattenFrom_walk hE E .refl {} #[] #[] (WalkInv.empty E p)
  obtain ⟨hlast, hlastq⟩ := @flattenFrom_last {} #[] E (by simp)
  rcases hflat : flattenFrom ({}, #[]) E with ⟨⟨m, arr⟩, r⟩
  rw [hflat] at hstep hroot hlast hlastq
  have hinv := hstep.inv
  have hsize := hinv.size
  have hnodes : E.archiveNodes = arr.toList := by rw [archiveNodes, hflat]
  simp only at hlast hlastq
  -- every node of `E` is held by the memo at the position of its rebuilt form
  have hpos : ∀ x q, Occurs x E → x.path? = some q →
      m[NodeKey.tagged q]? = some (memoPos m q) := fun x q hx hq => by
    obtain ⟨i, hi⟩ := hroot.memoized x q hx hq
    rw [memoPos_of_getElem? hi, hi]
  rw [hnodes]
  refine ⟨fun i hi => ?_, fun i hi => ?_, fun x y q q' hx hy hxq hyq => ?_,
    fun x q hx hq => ?_, fun q hq => ?_, ?_⟩
  · simpa using rebuildFrom_isOk_iff.1 ⟨B, hinv.rebuild⟩ i hi
  · constructor
    · intro hf
      obtain ⟨op, refs, hnode⟩ := ArchiveNode.isFunc_iff.1 hf
      have : arr[i]? = some (.func op refs) := by
        rw [← Array.getElem?_toList, List.getElem?_eq_getElem hi, hnode]
      obtain ⟨x, q, hx, hq, hxi⟩ := hinv.funcs i op refs this
      exact ⟨x, q, hx, hq, memoPos_of_getElem? hxi⟩
    · rintro ⟨x, q, hx, hq, rfl⟩
      obtain ⟨op, refs, hf⟩ := hinv.memoFunc _ _ (hpos x q hx hq)
      rw [← Array.getElem?_toList, List.getElem?_eq_getElem hi, Option.some.injEq] at hf
      rw [hf]
      exact ArchiveNode.isFunc_iff.2 ⟨op, refs, rfl⟩
  · constructor
    · intro hρ
      exact hinv.inj q q' _ (hpos x q hx hxq) (hρ ▸ hpos y q' hy hyq)
    · rintro rfl
      rfl
  · exact ofArchiveNodes_take hinv.rebuild (hinv.memo x q _ hx hq (hpos x q hx hq)).rebuilt
  · rw [memoPos_of_getElem? (hlastq q hq), Array.length_toList]
    exact hlast
  · refine ofArchiveNodes_of_rebuildFrom hinv.rebuild ?_
    rw [Array.back?_eq_getElem?, hsize, ← hlast, Nat.add_sub_cancel]
    exact hroot.rebuilt

/-- Placing the tags of an identified expression by a map injective on them keeps which of
its nodes are the same node. -/
theorem sameNode_retag {p : List Nat} {ρ : List Nat → Nat}
    (hρ : ∀ x y q q', Occurs x E → Occurs y E → x.path? = some q → y.path? = some q' →
      (ρ q = ρ q' ↔ q = q'))
    {x y : Expr} (hx : Occurs x E) (hy : Occurs y E) :
    (x.retag (placeTag p ρ)).sameNode (y.retag (placeTag p ρ)) = x.sameNode y := by
  have hkey : ∀ {z : Expr} {q : List Nat}, z.path? = some q →
      (z.retag (placeTag p ρ)).key = .tagged (p ++ [ρ q]) := by
    intro z q hz
    rcases z with _ | _ | _ | _ | ⟨_ | q', op, args, h⟩ <;> simp_all [path?, key, placeTag]
  unfold sameNode
  cases hxq : x.path? with
  | none =>
    rw [hE.retag_of_path?_none hx hxq, key_of_path?_none hxq]
    cases hyq : y.path? with
    | none => rw [hE.retag_of_path?_none hy hyq]
    | some q' => rw [hkey hyq, key_of_path?_some hyq, NodeKey.shape_beq_tagged,
        NodeKey.shape_beq_tagged]
  | some q =>
    rw [hkey hxq, key_of_path?_some hxq]
    cases hyq : y.path? with
    | none => rw [hE.retag_of_path?_none hy hyq, key_of_path?_none hyq,
        NodeKey.tagged_beq_shape, NodeKey.tagged_beq_shape]
    | some q' =>
      rw [hkey hyq, key_of_path?_some hyq, NodeKey.tagged_beq_tagged, NodeKey.tagged_beq_tagged,
        Bool.eq_iff_iff, beq_iff_eq, beq_iff_eq, List.append_cancel_left_eq, List.singleton_inj]
      exact hρ x y q q' hx hy hxq hyq

end Layout

theorem retag_eq_num {σ : NodeTag → NodeTag} {z : Expr} {n : Literal} :
    z.retag σ = .num n ↔ z = .num n := by
  cases z <;> simp

/-- Archives of expressions as the library builds them read back as the expression, with the
same structure, literals and sharing; and reading a list of nodes fails exactly when it is
empty or a node refers to a position not before its own or has an argument count its
operator rejects. -/
theorem archive_round_trip :
    (∀ (e : Expr) (p : List Nat), Identified e → ∃ ρ : List Nat → Nat,
      Layout e p ρ e.archiveNodes ∧ (e.retag (placeTag p ρ)).beq e = true ∧
      (∀ y, Occurs y (e.retag (placeTag p ρ)) ↔ ∃ x, Occurs x e ∧ y = x.retag (placeTag p ρ)) ∧
      (∀ n, Occurs (.num n) (e.retag (placeTag p ρ)) ↔ Occurs (.num n) e) ∧
      ∀ x y, Occurs x e → Occurs y e →
        (x.retag (placeTag p ρ)).sameNode (y.retag (placeTag p ρ)) = x.sameNode y) ∧
    ∀ (t : NodeTag) (nodes : List ArchiveNode), (∃ err, ofArchiveNodes t nodes = .error err) ↔
      nodes = [] ∨ ∃ i, ∃ h : i < nodes.length, ¬ nodes[i].Placed i := by
  refine ⟨fun e p he => ?_, fun t nodes => ofArchiveNodes_eq_error_iff⟩
  have hlayout := archiveNodes_layout he p
  refine ⟨_, hlayout, retag_beq _ e, fun y => occurs_retag_iff, fun n => ?_,
    fun x y hx hy => sameNode_retag he hlayout.distinct hx hy⟩
  rw [occurs_retag_iff]
  constructor
  · rintro ⟨z, hz, hzn⟩
    rwa [retag_eq_num.1 hzn.symm] at hz
  · intro hn
    exact ⟨_, hn, rfl⟩

/-! ## A shared node written once -/

/-- `cos t`, as one tagged node. -/
def cosTime : Expr := node (.path [4]) .cos [.time]

/-- `cos t * cos t`, the two factors one node. -/
def cosSquared : Expr := node (.path [5]) .mul [cosTime, cosTime]

theorem occurs_cosSquared {a : Expr} :
    Occurs a cosSquared ↔ a = cosSquared ∨ a = cosTime ∨ a = .time := by
  have htime : Occurs a .time ↔ a = .time := occurs_iff_of_args_nil rfl
  simp only [cosSquared, cosTime, node, occurs_func_iff, htime,
    List.mem_cons, List.mem_nil_iff, or_false, exists_eq_or_imp, exists_eq_left]
  tauto

theorem identified_cosSquared : Identified cosSquared := by
  have hpath : cosSquared.path? = some [5] ∧ cosTime.path? = some [4] ∧
      Expr.time.path? = none := ⟨rfl, rfl, rfl⟩
  refine ⟨fun t op args h hocc => ?_, fun x y q hx hy hxq hyq => ?_, ?_,
    fun t op args h hocc => ?_⟩
  · rcases occurs_cosSquared.1 hocc with h' | h' | h' <;>
      simp only [cosSquared, cosTime, node, func.injEq, reduceCtorEq] at h' <;>
      simp [h'.1]
  · -- the two tags, `[5]` and `[4]`, name one node each
    simp only [List.mem_singleton, exists_eq_left, occurs_cosSquared] at hx hy
    rcases hx with rfl | rfl | rfl <;> rcases hy with rfl | rfl | rfl <;>
      simp only [hpath, reduceCtorEq, Option.some.injEq] at hxq hyq
    all_goals
      subst hxq
      simp at hyq ⊢
  · refine HashOk.node fun a ha => ?_
    rw [List.mem_cons, List.mem_singleton, or_self] at ha
    subst ha
    refine HashOk.node fun b hb => ?_
    rw [List.mem_singleton.1 hb]
    intro t op args h ho
    cases (occurs_iff_of_args_nil rfl).1 ho
  · rcases occurs_cosSquared.1 hocc with h' | h' | h' <;>
      simp only [cosSquared, cosTime, node, func.injEq, reduceCtorEq] at h'
    · obtain ⟨-, rfl, rfl, -⟩ := h'
      decide
    · obtain ⟨-, rfl, rfl, -⟩ := h'
      decide

/-- The archive of `cos t * cos t` lays it out, reads back under `[2]` with its one shared
factor, and a lone product that refers to its own position is refused. -/
theorem cosSquared_round_trip :
    Identified cosSquared ∧
    (∃ ρ : List Nat → Nat,
      Layout cosSquared [2] ρ cosSquared.archiveNodes ∧
      (cosSquared.retag (placeTag [2] ρ)).beq cosSquared = true ∧
      (∀ y, Occurs y (cosSquared.retag (placeTag [2] ρ)) ↔
        ∃ x, Occurs x cosSquared ∧ y = x.retag (placeTag [2] ρ)) ∧
      (∀ n, Occurs (.num n) (cosSquared.retag (placeTag [2] ρ)) ↔ Occurs (.num n) cosSquared) ∧
      ∀ x y, Occurs x cosSquared → Occurs y cosSquared →
        (x.retag (placeTag [2] ρ)).sameNode (y.retag (placeTag [2] ρ)) = x.sameNode y) ∧
    ((∃ err, ofArchiveNodes (.path [2]) [.func .mul [0, 0]] = .error err) ↔
      [ArchiveNode.func .mul [0, 0]] = [] ∨
        ∃ i, ∃ h : i < [ArchiveNode.func .mul [0, 0]].length,
          ¬ [ArchiveNode.func .mul [0, 0]][i].Placed i) :=
  ⟨identified_cosSquared, archive_round_trip.1 cosSquared [2] identified_cosSquared,
    archive_round_trip.2 (.path [2]) [.func .mul [0, 0]]⟩

end Expr

end TaylorOde
