import TaylorOde.Expr.Archive
import TaylorOde.Proofs.Expr.Nodes
/-!
# Reading archives of expressions

`Expr.ofArchiveNodes` rebuilds the nodes of an archive in order, each over the expressions
rebuilt before it, and returns the last one. This module takes its loop apart into one step
per node (`rebuildNode`) and the run over a list of nodes (`rebuildFrom`), and says when a run
succeeds: exactly when every node is `Placed` at its position, that is, a function node refers
only to earlier positions and has an argument count its operator accepts
(`rebuildFrom_isOk_iff`). Reading an archive therefore fails exactly when the archive is empty
or one of its nodes is misplaced (`ofArchiveNodes_eq_error_iff`).

A run over an archive that extends another continues the other's run (`rebuildFrom_append`)
and keeps what it rebuilt, so every prefix of a readable archive reads back as the node at its
last position (`ofArchiveNodes_take`).
-/

namespace TaylorOde

namespace ArchiveNode

/-- The positions a node refers to; none for an atom. -/
def refs : ArchiveNode → List Nat
  | .func _ refs => refs
  | _ => []

/-- Whether the node is a function node. -/
def IsFunc : ArchiveNode → Prop
  | .func .. => True
  | _ => False

theorem isFunc_iff {n : ArchiveNode} : n.IsFunc ↔ ∃ op refs, n = .func op refs := by
  cases n <;> simp [IsFunc]

/-- A node can stand at position `i` of an archive: a function node refers only to positions
before `i`, and its operator accepts its number of arguments. -/
def Placed (i : Nat) : ArchiveNode → Prop
  | .func op refs => (∀ r ∈ refs, r < i) ∧ op.accepts refs.length = true
  | _ => True

end ArchiveNode

namespace Expr

/-- The expression rebuilt at a position, or the error for a position not rebuilt yet. -/
def lookupBuilt (built : Array Expr) (i : Nat) : Outcome Expr :=
  match built[i]? with
  | some a => pure a
  | none => throw (Error.serialization s!"expression node refers to unknown node {i}")

/-- The expression one archive node stands for, over the expressions rebuilt before it. -/
def rebuildNode (t : NodeTag) (built : Array Expr) : ArchiveNode → Outcome Expr
  | .number n => pure (.num n)
  | .param i => pure (.param i)
  | .var v => pure (.var v)
  | .time => pure .time
  | .func op refs => do
    let args ← refs.mapM (lookupBuilt built)
    op.checkArity args.length
    pure (node (t.child built.size) op args)

/-- Rebuilds archive nodes in order, after the expressions already rebuilt. -/
def rebuildFrom (t : NodeTag) : Array Expr → List ArchiveNode → Outcome (Array Expr)
  | built, [] => pure built
  | built, n :: rest => do
    let e ← rebuildNode t built n
    rebuildFrom t (built.push e) rest

theorem rebuildFrom_nil (t : NodeTag) (built : Array Expr) :
    rebuildFrom t built [] = .ok built := rfl

theorem rebuildFrom_cons (t : NodeTag) (built : Array Expr) (n : ArchiveNode)
    (rest : List ArchiveNode) :
    rebuildFrom t built (n :: rest) =
      (rebuildNode t built n).bind fun e => rebuildFrom t (built.push e) rest := rfl

/-- The loop of `ofArchiveNodes` is the run of `rebuildNode` over the nodes. -/
theorem ofArchiveNodes_eq (t : NodeTag) (nodes : List ArchiveNode) :
    ofArchiveNodes t nodes = (rebuildFrom t #[] nodes).bind fun built =>
      match built.back? with
      | some e => .ok e
      | none => .error (Error.serialization "empty expression archive") := by
  -- the loop body is a `match` on the node that `rebuildNode` names
  have loop : ∀ f : ArchiveNode → Array Expr → Outcome (ForInStep (Array Expr)),
      (∀ node built, f node built =
        rebuildNode t built node >>= fun e => pure (.yield (built.push e))) →
      ∀ (nodes : List ArchiveNode) (built : Array Expr),
        forIn nodes built f = rebuildFrom t built nodes := by
    intro f hf nodes
    induction nodes with
    | nil => intro built; rfl
    | cons n rest ih =>
      intro built
      rw [List.forIn_cons, rebuildFrom_cons, hf]
      cases rebuildNode t built n with
      | error err => rfl
      | ok e => exact ih (built.push e)
  unfold ofArchiveNodes
  dsimp only
  rw [loop]
  · rfl
  · intro node built
    cases node with
    | func op refs =>
      simp only [rebuildNode, bind_assoc, pure_bind]
      rfl
    | _ => rfl

theorem checkArity_eq_ok {op : Op} {n : Nat} : op.checkArity n = .ok () ↔ op.accepts n = true := by
  unfold Op.checkArity
  split <;> simp_all

/-- A `mapM` in `Except` succeeds with the results of its calls, each succeeding. -/
theorem mapM_except_eq_ok {ε α β : Type} (f : α → Except ε β) :
    ∀ (l : List α) (bs : List β), l.mapM f = .ok bs ↔ List.Forall₂ (fun a b => f a = .ok b) l bs
  | [], bs => by cases bs <;> simp [pure, Except.pure]
  | a :: l, bs => by
    rw [List.mapM_cons, List.forall₂_cons_left_iff]
    cases hfa : f a with
    | error err => simp [bind, Except.bind]
    | ok b =>
      cases hl : l.mapM f with
      | error err =>
        have hnot : ∀ bs', ¬ List.Forall₂ (fun a b => f a = .ok b) l bs' := fun bs' hbs' => by
          rw [← mapM_except_eq_ok f l bs', hl] at hbs'
          cases hbs'
        simp [bind, Except.bind, hnot]
      | ok bs' =>
        have hbs' := (mapM_except_eq_ok f l bs').1 hl
        simp only [bind, Except.bind, pure, Except.pure, Except.ok.injEq]
        constructor
        · rintro rfl
          exact ⟨b, bs', rfl, hbs', rfl⟩
        · rintro ⟨b', u, hb', hu, rfl⟩
          rw [← mapM_except_eq_ok f l u, hl, Except.ok.injEq] at hu
          rw [hb', hu]

theorem lookupBuilt_eq_ok {built : Array Expr} {r : Nat} {a : Expr} :
    lookupBuilt built r = .ok a ↔ built[r]? = some a := by
  unfold lookupBuilt
  cases built[r]? <;> simp [pure, Except.pure, throw, throwThe, MonadExceptOf.throw]

/-- Looking the references up succeeds with the expressions at those positions. -/
theorem mapM_lookupBuilt_eq_ok {built : Array Expr} {refs : List Nat} {args : List Expr} :
    refs.mapM (lookupBuilt built) = .ok args ↔
      List.Forall₂ (fun r a => built[r]? = some a) refs args := by
  simp only [mapM_except_eq_ok, lookupBuilt_eq_ok]

/-- Looking the references up succeeds exactly when they all point before the end. -/
theorem mapM_lookupBuilt_isOk {built : Array Expr} {refs : List Nat} :
    (∃ args, refs.mapM (lookupBuilt built) = .ok args) ↔ ∀ r ∈ refs, r < built.size := by
  simp only [mapM_lookupBuilt_eq_ok]
  induction refs with
  | nil => simp
  | cons r refs ih =>
    simp only [List.forall₂_cons_left_iff, List.mem_cons, forall_eq_or_imp]
    constructor
    · rintro ⟨_, a, as, hra, hrest, rfl⟩
      exact ⟨(Array.getElem?_eq_some_iff.1 hra).1, ih.1 ⟨as, hrest⟩⟩
    · rintro ⟨hr, hrest⟩
      obtain ⟨as, has⟩ := ih.2 hrest
      exact ⟨_, built[r], as, Array.getElem?_eq_getElem hr, has, rfl⟩

/-- A function node rebuilds to the node of its operator over the expressions its references
point at, under the tag of its position. -/
theorem rebuildNode_func_eq_ok {t : NodeTag} {built : Array Expr} {op : Op} {refs : List Nat}
    {e : Expr} : rebuildNode t built (.func op refs) = .ok e ↔
      ∃ args, List.Forall₂ (fun r a => built[r]? = some a) refs args ∧
        op.accepts refs.length = true ∧ e = node (t.child built.size) op args := by
  simp only [rebuildNode]
  cases hm : refs.mapM (lookupBuilt built) with
  | error err =>
    simp only [bind, Except.bind, reduceCtorEq, false_iff, not_exists, not_and]
    intro args hargs
    rw [← mapM_lookupBuilt_eq_ok, hm] at hargs
    cases hargs
  | ok args =>
    have hargs := mapM_lookupBuilt_eq_ok.1 hm
    have hlen := hargs.length_eq
    cases hc : op.checkArity args.length with
    | error err =>
      have hacc : op.accepts args.length = false := by
        cases h : op.accepts args.length
        · rfl
        · rw [checkArity_eq_ok.2 h] at hc
          cases hc
      simp only [bind, Except.bind, hc, reduceCtorEq, false_iff, not_exists, not_and]
      intro args' hargs' hacc'
      rw [← hlen, hacc'] at hacc
      cases hacc
    | ok u =>
      have hacc := checkArity_eq_ok.1 hc
      simp only [bind, Except.bind, hc, pure, Except.pure, Except.ok.injEq]
      constructor
      · rintro rfl
        exact ⟨args, hargs, hlen ▸ hacc, rfl⟩
      · rintro ⟨args', hargs', -, rfl⟩
        rw [← mapM_lookupBuilt_eq_ok, hm, Except.ok.injEq] at hargs'
        rw [hargs']

/-- A node rebuilds exactly when it can stand at the next position. -/
theorem rebuildNode_isOk {t : NodeTag} {built : Array Expr} {n : ArchiveNode} :
    (∃ e, rebuildNode t built n = .ok e) ↔ n.Placed built.size := by
  cases n with
  | func op refs =>
    simp only [rebuildNode_func_eq_ok, ArchiveNode.Placed]
    constructor
    · rintro ⟨_, args, hargs, hacc, -⟩
      exact ⟨mapM_lookupBuilt_isOk.1 ⟨args, mapM_lookupBuilt_eq_ok.2 hargs⟩, hacc⟩
    · rintro ⟨hrefs, hacc⟩
      obtain ⟨args, hargs⟩ := mapM_lookupBuilt_isOk.2 hrefs
      exact ⟨_, args, mapM_lookupBuilt_eq_ok.1 hargs, hacc, rfl⟩
  | _ => simp [rebuildNode, ArchiveNode.Placed, pure, Except.pure]

/-- A run succeeds exactly when every node can stand at its position. -/
theorem rebuildFrom_isOk_iff {t : NodeTag} : ∀ {l : List ArchiveNode} {built : Array Expr},
    (∃ B, rebuildFrom t built l = .ok B) ↔
      ∀ i (h : i < l.length), l[i].Placed (built.size + i)
  | [], built => by simp [rebuildFrom_nil]
  | n :: rest, built => by
    rw [rebuildFrom_cons]
    constructor
    · rintro ⟨B, hB⟩
      cases hn : rebuildNode t built n with
      | error err => simp [hn, Except.bind] at hB
      | ok e =>
        rw [hn] at hB
        have hrest := rebuildFrom_isOk_iff.1 ⟨B, hB⟩
        intro i hi
        cases i with
        | zero => simpa using rebuildNode_isOk.1 ⟨e, hn⟩
        | succ i =>
          have := hrest i (by simpa using hi)
          simpa [Nat.add_assoc, Nat.add_comm 1] using this
    · intro hall
      have h₀ := hall 0 (by simp)
      rw [List.getElem_cons_zero, Nat.add_zero] at h₀
      obtain ⟨e, hn⟩ := (@rebuildNode_isOk t built n).2 h₀
      have hrest : ∃ B, rebuildFrom t (built.push e) rest = .ok B := by
        refine rebuildFrom_isOk_iff.2 fun i hi => ?_
        have := hall (i + 1) (by simpa using hi)
        simpa [Nat.add_assoc, Nat.add_comm 1] using this
      obtain ⟨B, hB⟩ := hrest
      exact ⟨B, by rw [hn]; exact hB⟩

/-- A run rebuilds one expression per node. -/
theorem rebuildFrom_size {t : NodeTag} : ∀ {l : List ArchiveNode} {built B : Array Expr},
    rebuildFrom t built l = .ok B → B.size = built.size + l.length
  | [], built, B, h => by
    cases h
    simp
  | n :: rest, built, B, h => by
    rw [rebuildFrom_cons] at h
    cases hn : rebuildNode t built n with
    | error err => simp [hn, Except.bind] at h
    | ok e =>
      rw [hn] at h
      rw [rebuildFrom_size h, Array.size_push, List.length_cons]
      omega

/-- A run keeps the expressions rebuilt before it. -/
theorem rebuildFrom_getElem? {t : NodeTag} : ∀ {l : List ArchiveNode} {built B : Array Expr},
    rebuildFrom t built l = .ok B → ∀ i, i < built.size → B[i]? = built[i]?
  | [], built, B, h => by
    cases h
    simp
  | n :: rest, built, B, h => by
    rw [rebuildFrom_cons] at h
    cases hn : rebuildNode t built n with
    | error err => simp [hn, Except.bind] at h
    | ok e =>
      rw [hn] at h
      intro i hi
      rw [rebuildFrom_getElem? h i (by simp; omega), Array.getElem?_push, if_neg (by omega)]

/-- A run over two lists of nodes continues the run over the first. -/
theorem rebuildFrom_append {t : NodeTag} : ∀ (l l' : List ArchiveNode) (built : Array Expr),
    rebuildFrom t built (l ++ l') = rebuildFrom t built l >>= fun B => rebuildFrom t B l'
  | [], l', built => rfl
  | n :: rest, l', built => by
    rw [List.cons_append, rebuildFrom_cons, rebuildFrom_cons]
    cases rebuildNode t built n with
    | error err => rfl
    | ok e => exact rebuildFrom_append rest l' (built.push e)

/-- Rebuilding one more node appends its expression. -/
theorem rebuildFrom_push {t : NodeTag} {arr : Array ArchiveNode} {B : Array Expr}
    {n : ArchiveNode} {e : Expr} (hB : rebuildFrom t #[] arr.toList = .ok B)
    (hn : rebuildNode t B n = .ok e) : rebuildFrom t #[] (arr.push n).toList = .ok (B.push e) := by
  rw [Array.toList_push, rebuildFrom_append, hB]
  change (rebuildNode t B n).bind (fun e => rebuildFrom t (B.push e) []) = _
  rw [hn]
  rfl

/-- Reading an archive fails exactly when it is empty or one of its nodes is misplaced. -/
theorem ofArchiveNodes_eq_error_iff {t : NodeTag} {nodes : List ArchiveNode} :
    (∃ err, ofArchiveNodes t nodes = .error err) ↔
      nodes = [] ∨ ∃ i, ∃ h : i < nodes.length, ¬ nodes[i].Placed i := by
  rw [ofArchiveNodes_eq]
  cases hB : rebuildFrom t #[] nodes with
  | error err =>
    have hmis : ¬ ∀ i (h : i < nodes.length), nodes[i].Placed i := by
      intro hall
      obtain ⟨B, hB'⟩ := (@rebuildFrom_isOk_iff t nodes #[]).2 (by simpa using hall)
      rw [hB] at hB'
      cases hB'
    simp only [Except.bind, Except.error.injEq, exists_eq', true_iff]
    simp only [not_forall] at hmis
    exact .inr hmis
  | ok B =>
    have hall := rebuildFrom_isOk_iff.1 ⟨B, hB⟩
    have hsize := rebuildFrom_size hB
    simp only [Array.size_empty, Nat.zero_add] at hall hsize
    simp only [Except.bind, Array.back?_eq_getElem?]
    constructor
    · rintro ⟨err, herr⟩
      left
      cases hb : B[B.size - 1]? with
      | some e => simp [hb] at herr
      | none =>
        rw [Array.getElem?_eq_none_iff] at hb
        exact List.eq_nil_of_length_eq_zero (by omega)
    · rintro (rfl | ⟨i, hi, hmis⟩)
      · simp at hsize
        simp [hsize]
      · exact absurd (hall i hi) hmis

/-- A readable archive reads as the last expression its run rebuilds. -/
theorem ofArchiveNodes_of_rebuildFrom {t : NodeTag} {nodes : List ArchiveNode} {B : Array Expr}
    {e : Expr} (hB : rebuildFrom t #[] nodes = .ok B) (he : B.back? = some e) :
    ofArchiveNodes t nodes = .ok e := by
  rw [ofArchiveNodes_eq, hB]
  simp [Except.bind, he]

/-- Every prefix of a readable archive reads as the expression rebuilt at its last position. -/
theorem ofArchiveNodes_take {t : NodeTag} {nodes : List ArchiveNode} {B : Array Expr}
    (hB : rebuildFrom t #[] nodes = .ok B) {i : Nat} {e : Expr} (he : B[i]? = some e) :
    ofArchiveNodes t (nodes.take (i + 1)) = .ok e := by
  have hsize := rebuildFrom_size hB
  have hi : i < B.size := (Array.getElem?_eq_some_iff.1 he).1
  rw [← List.take_append_drop (i + 1) nodes, rebuildFrom_append] at hB
  cases hB₀ : rebuildFrom t #[] (nodes.take (i + 1)) with
  | error err => simp [hB₀, bind, Except.bind] at hB
  | ok B₀ =>
    have hrest : rebuildFrom t B₀ (nodes.drop (i + 1)) = .ok B := by
      rw [hB₀] at hB
      exact hB
    have hsize₀ := rebuildFrom_size hB₀
    simp only [Array.size_empty, List.length_take, Nat.zero_add] at hsize hsize₀
    have hlast : B₀.size - 1 = i := by omega
    refine ofArchiveNodes_of_rebuildFrom hB₀ ?_
    rw [Array.back?_eq_getElem?, hlast, ← rebuildFrom_getElem? hrest i (by omega), he]

end Expr

end TaylorOde
