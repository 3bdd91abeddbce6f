import TaylorOde.Proofs.Decomposition.Renumbering
import TaylorOde.Proofs.Expr.Nodes
import TaylorOde.Decomposition.Build
import Mathlib
/-!
# Lowering prepared expressions into a table

`Builder.lower` lays out one entry per distinct node of the prepared expressions, arguments
first, each node with the block of entries its recurrence needs (`Builder.layout`). What a
builder keeps along the way is `Builder.Valid`: its table is well formed, every function entry
lists the hidden dependencies its recurrence reads, and all indices fit a 64-bit word.

* `lower_valid`: lowering keeps the builder valid and its entries, and adds at most five
  entries per node;
* `lower_ok`: lowering succeeds on every expression over the variables and parameters the
  builder was started with;
* `lower_expand`: over a family of expressions whose nodes cache their hashes and share a key
  only when structurally equal, a lowered node stands for an entry that expands back to it,
  and the memo of visited nodes stays sound.

`ofPrepared_ok`, `ofPrepared_wellFormed` and `ofPrepared_reconstruct` lift these to the table
of a list of prepared expressions.
-/

namespace TaylorOde

namespace Decomposition

namespace Builder

open TaylorOde.Expr

section Run

variable {α β σ ε : Type} {f : α → StateT σ (Except ε) β} {s s' : σ} {ys : List β}

theorem run_mapM_nil : (([] : List α).mapM f).run s = .ok (ys, s') ↔ ys = [] ∧ s' = s := by
  simp only [List.mapM_nil, StateT.run_pure]
  constructor
  · intro h
    cases h
    exact ⟨rfl, rfl⟩
  · rintro ⟨rfl, rfl⟩
    rfl

theorem run_mapM_cons {a : α} {l : List α} :
    ((a :: l).mapM f).run s = .ok (ys, s') ↔
      ∃ y s₁ ys', (f a).run s = .ok (y, s₁) ∧ (l.mapM f).run s₁ = .ok (ys', s') ∧
        ys = y :: ys' := by
  simp only [List.mapM_cons, StateT.run_bind, StateT.run_pure]
  cases h : (f a).run s with
  | error e => simp [bind, Except.bind]
  | ok p =>
    obtain ⟨y, s₁⟩ := p
    cases hl : (l.mapM f).run s₁ with
    | error e => simp [bind, Except.bind, hl]
    | ok q =>
      obtain ⟨ys', s₂⟩ := q
      simp only [bind, Except.bind, hl, pure, Except.pure, Except.ok.injEq, Prod.mk.injEq]
      constructor
      · rintro ⟨rfl, rfl⟩
        exact ⟨y, s₁, ys', ⟨rfl, rfl⟩, hl, rfl⟩
      · rintro ⟨y₁, s₃, ys₁, ⟨rfl, rfl⟩, hys, rfl⟩
        rw [hl] at hys
        obtain ⟨rfl, rfl⟩ := Prod.mk.inj (Except.ok.inj hys)
        exact ⟨rfl, rfl⟩

theorem run_mapM_length {l : List α} : (l.mapM f).run s = .ok (ys, s') → ys.length = l.length := by
  induction l generalizing s ys with
  | nil =>
    intro h
    obtain ⟨rfl, -⟩ := run_mapM_nil.1 h
    rfl
  | cons a l ih =>
    intro h
    obtain ⟨y, s₁, ys', -, hl, rfl⟩ := run_mapM_cons.1 h
    simp [ih hl]

end Run

variable {b b' : Builder} {x : Expr}

theorem lower_num_run {n : Literal} :
    (lower (.num n)).run b = .ok (x, b') ↔ x = .num n ∧ b' = b := by
  simp only [lower, StateT.run_pure]
  constructor
  · intro h
    cases h
    exact ⟨rfl, rfl⟩
  · rintro ⟨rfl, rfl⟩
    rfl

theorem lower_var_run {v : String} :
    (lower (.var v)).run b = .ok (x, b') ↔ ∃ i, b.varIndex[v]? = some i ∧ x = elem i ∧ b' = b := by
  simp only [lower, StateT.run_bind, StateT.run_get, pure_bind, Std.HashMap.get?_eq_getElem?]
  cases hv : b.varIndex[v]? with
  | none => simp [throw, throwThe, MonadExceptOf.throw, bind, Except.bind]
  | some i =>
    simp only [StateT.run_pure, Option.some.injEq, exists_eq_left']
    constructor
    · intro h
      cases h
      exact ⟨rfl, rfl⟩
    · rintro ⟨rfl, rfl⟩
      rfl

theorem lower_param_run {p : UInt32} :
    (lower (.param p)).run b = .ok (x, b') ↔ ∃ i, b.parIndex[p]? = some i ∧ x = elem i ∧ b' = b := by
  simp only [lower, StateT.run_bind, StateT.run_get, pure_bind, Std.HashMap.get?_eq_getElem?]
  cases hv : b.parIndex[p]? with
  | none => simp [throw, throwThe, MonadExceptOf.throw, bind, Except.bind]
  | some i =>
    simp only [StateT.run_pure, Option.some.injEq, exists_eq_left']
    constructor
    · intro h
      cases h
      exact ⟨rfl, rfl⟩
    · rintro ⟨rfl, rfl⟩
      rfl

theorem lower_time_run :
    (lower .time).run b = .ok (x, b') ↔ (b.time = some x ∧ b' = b) ∨
      (b.time = none ∧ x = elem b.entries.size ∧
        b' = { b with entries := b.entries.push { rhs := .time }, time := some (elem b.entries.size) }) := by
  simp only [lower, StateT.run_bind, StateT.run_get, pure_bind]
  cases ht : b.time with
  | some t =>
    simp only [StateT.run_pure, Option.some.injEq, reduceCtorEq, false_and, or_false]
    constructor
    · intro h
      cases h
      exact ⟨rfl, rfl⟩
    · rintro ⟨rfl, rfl⟩
      rfl
  | none =>
    simp only [StateT.run_modifyGet, push, reduceCtorEq, false_and, true_and, false_or]
    constructor
    · intro h
      cases h
      exact ⟨rfl, rfl⟩
    · rintro ⟨rfl, rfl⟩
      rfl

theorem lower_func_run {t : NodeTag} {op : Op} {args : List Expr} {hh : UInt64} :
    (lower (.func t op args hh)).run b = .ok (x, b') ↔
      (b.memo[(Expr.func t op args hh).key]? = some x ∧ b' = b) ∨
      (b.memo[(Expr.func t op args hh).key]? = none ∧ ∃ xs b₁,
        (args.mapM lower).run b = .ok (xs, b₁) ∧ x = elem (b₁.append op xs).2 ∧
        b' = { (b₁.append op xs).1 with
          memo := (b₁.append op xs).1.memo.insert (Expr.func t op args hh).key
            (elem (b₁.append op xs).2) }) := by
  simp only [lower, StateT.run_bind, StateT.run_get, pure_bind, Std.HashMap.get?_eq_getElem?]
  cases hm : b.memo[(Expr.func t op args hh).key]? with
  | some y =>
    simp only [StateT.run_pure, Option.some.injEq, reduceCtorEq, false_and, or_false]
    constructor
    · intro h
      cases h
      exact ⟨rfl, rfl⟩
    · rintro ⟨rfl, rfl⟩
      rfl
  | none =>
    simp only [reduceCtorEq, false_and, true_and, false_or, StateT.run_bind]
    cases hargs : (args.mapM lower).run b with
    | error e => simp [bind, Except.bind]
    | ok p =>
      obtain ⟨xs, b₁⟩ := p
      simp only [StateT.run_modifyGet, bind, Except.bind, pure, Except.pure, Except.ok.injEq,
        Prod.mk.injEq]
      constructor
      · rintro ⟨rfl, rfl⟩
        exact ⟨xs, b₁, ⟨rfl, rfl⟩, rfl, rfl⟩
      · rintro ⟨xs', b₂, ⟨rfl, rfl⟩, rfl, rfl⟩
        exact ⟨rfl, rfl⟩


/-! ## The table laid out so far -/

/-- The entries a builder has laid out, as a decomposition with no outputs yet. -/
def table (b : Builder) (names : List String) (params : List UInt32) : Decomposition :=
  { entries := b.entries, varNames := names, params := params, nOutputs := 0 }

section Table

variable {names : List String} {params : List UInt32}

@[simp] theorem table_entries : (b.table names params).entries = b.entries := rfl
@[simp] theorem table_varNames : (b.table names params).varNames = names := rfl
@[simp] theorem table_params : (b.table names params).params = params := rfl
@[simp] theorem table_nOutputs : (b.table names params).nOutputs = 0 := rfl
@[simp] theorem table_size : (b.table names params).size = b.entries.size := rfl
@[simp] theorem table_nPrefix : (b.table names params).nPrefix = names.length + params.length :=
  rfl
@[simp] theorem table_functionsEnd : (b.table names params).functionsEnd = b.entries.size := by
  simp [functionsEnd, table]

theorem table_entry_of_getElem? {k : Nat} {e : Entry} (h : b.entries[k]? = some e) :
    (b.table names params).entry k = e :=
  entry_of_getElem? h

end Table


/-! ## Appending the entries of one node -/

section Append

variable {op : Op} {xs : List Expr} {a : Nat}

@[simp] theorem append_varIndex : (b.append op xs).1.varIndex = b.varIndex := rfl
@[simp] theorem append_parIndex : (b.append op xs).1.parIndex = b.parIndex := rfl
@[simp] theorem append_memo : (b.append op xs).1.memo = b.memo := rfl
@[simp] theorem append_time : (b.append op xs).1.time = b.time := rfl

theorem append_entries :
    (b.append op xs).1.entries = b.entries ++ (layout b.entries.size op xs).1 := rfl

theorem append_index :
    (b.append op xs).2 = b.entries.size + (layout b.entries.size op xs).2 := rfl

/-- A layout has between one and five entries, the node's own among them. -/
theorem layout_size :
    (layout a op xs).2 < (layout a op xs).1.size ∧ (layout a op xs).1.size ≤ 5 := by
  cases op <;> simp [layout]

/-- The node's own entry is the operator over the arguments. -/
theorem layout_main :
    ∃ hs, (layout a op xs).1[(layout a op xs).2]? =
      some { rhs := Expr.node .anon op xs, hidden := hs } := by
  cases op <;> simp [layout]

end Append

section Args

variable {i k : Nat} {a : Expr}

theorem ArgOk.mono (h : ArgOk i a) (hik : i ≤ k) : ArgOk k a := by
  rcases h with ⟨j, hj, hlt⟩ | hnum
  · exact .inl ⟨j, hj, by omega⟩
  · exact .inr hnum

theorem argOk_num (n : Literal) : ArgOk i (.num n) := .inr ⟨rfl, rfl⟩

theorem argOk_one : ArgOk i one := argOk_num _

theorem argOk_elem {j : Nat} (hj : j < i) (hw : j ≤ Variable.wordMax) : ArgOk i (elem j) :=
  .inl ⟨j, elemIndex?_elem hw, hj⟩

theorem argOk_getD {xs : List Expr} (h : ∀ x ∈ xs, ArgOk i x) (n : Nat) :
    ArgOk i (xs.getD n zero) := by
  rw [List.getD_eq_getElem?_getD]
  cases hx : xs[n]? with
  | none => exact argOk_num _
  | some x => exact h x (List.mem_of_getElem? hx)

end Args

section New

variable {names : List String} {params : List UInt32} {op : Op} {xs : List Expr}

theorem functionRhs_node {k : Nat} {t : NodeTag} {args : List Expr} :
    FunctionRhs k (Expr.node t op args) ↔ ∀ a ∈ args, ArgOk k a := Iff.rfl

theorem hiddenShapeAt_of_entry {d : Decomposition} {k : Nat} {t : NodeTag} {args : List Expr}
    {hs : List Nat} (h : d.entry k = { rhs := Expr.node t op args, hidden := hs }) :
    d.HiddenShapeAt k ↔ d.HiddenOk k args op hs := by
  unfold HiddenShapeAt
  rw [h]
  rfl

/-- The table after appending reads the laid-out entries above the old ones. -/
theorem append_entry {m : Nat} (hm : m < (layout b.entries.size op xs).1.size) :
    ((b.append op xs).1.table names params).entry (b.entries.size + m) =
      (layout b.entries.size op xs).1[m] := by
  apply table_entry_of_getElem?
  rw [append_entries, Array.getElem?_append_right (by omega)]
  simp [hm]

/-- Every laid-out entry is an operator over literals and earlier entries. -/
theorem layout_functionRhs {a m : Nat} (hxs : ∀ x ∈ xs, ArgOk a x)
    (hm : m < (layout a op xs).1.size)
    (hfit : a + (layout a op xs).1.size ≤ Variable.wordMax + 1) :
    FunctionRhs (a + m) (layout a op xs).1[m].rhs := by
  have hxs' : ∀ k, a ≤ k → ∀ x ∈ xs, ArgOk k x := fun k hk x hx => ArgOk.mono (hxs x hx) hk
  have hget : ∀ k n, a ≤ k → ArgOk k (xs[n]?.getD zero) := fun k n hk => by
    simpa [List.getD_eq_getElem?_getD] using argOk_getD (hxs' k hk) n
  have hel : ∀ j k, j < k → k < a + (layout a op xs).1.size → ArgOk k (elem j) :=
    fun j k hjk hk => argOk_elem hjk (by omega)
  cases op
  all_goals simp only [layout, List.size_toArray, List.length_cons, List.length_nil,
    Nat.reduceAdd] at hm hel ⊢
  all_goals interval_cases m
  all_goals simp +contextual [functionRhs_node, hxs', hget, hel, argOk_one]

/-- The hidden dependencies of a laid-out entry are other entries of the same layout. -/
theorem layout_hidden {a m : Nat} (hm : m < (layout a op xs).1.size) :
    ∀ h ∈ (layout a op xs).1[m].hidden, a ≤ h ∧ h < a + (layout a op xs).1.size ∧ h ≠ a + m := by
  cases op
  all_goals simp only [layout, List.size_toArray, List.length_cons, List.length_nil,
    Nat.reduceAdd] at hm ⊢
  all_goals interval_cases m
  all_goals simp

theorem append_rhsIs {m : Nat} (hm : m < (layout b.entries.size op xs).1.size) {op' : Op}
    {args : List Expr} (h : (layout b.entries.size op xs).1[m].rhs = Expr.node .anon op' args) :
    ((b.append op xs).1.table names params).RhsIs (b.entries.size + m) op' args := by
  unfold RhsIs
  rw [append_entry hm, h]
  exact Expr.beq_self _

/-- Every laid-out entry lists the hidden dependencies its recurrence reads. -/
theorem append_hiddenShapeAt {m : Nat} (hm : m < (layout b.entries.size op xs).1.size) :
    ((b.append op xs).1.table names params).HiddenShapeAt (b.entries.size + m) := by
  have he : ((b.append op xs).1.table names params).entry (b.entries.size + m) =
      (layout b.entries.size op xs).1[m] := append_entry hm
  cases op
  all_goals simp only [layout, List.size_toArray, List.length_cons, List.length_nil,
    Nat.reduceAdd] at hm he
  all_goals interval_cases m
  all_goals rw [hiddenShapeAt_of_entry he]
  -- the auxiliary entries and the plain operators have no hidden dependencies
  case sum.«0» | mul.«0» | div.«0» | neg.«0» | square.«0» | sqrt.«0» | exp.«0» | log.«0» |
      pow.«0» | tan.«1» | tanh.«1» | asin.«0» | asin.«1» | asin.«2» | asin.«3» | acos.«0» |
      acos.«1» | acos.«2» | acos.«3» | atan.«0» | atan2.«0» | atan2.«1» | atan2.«2» => rfl
  case sin.«0» | cos.«0» | sinh.«0» | cosh.«0» | tan.«0» | tanh.«0» =>
    exact ⟨_, rfl, append_rhsIs (m := 1) (by simp [layout]) rfl⟩
  case sin.«1» | cos.«1» | sinh.«1» | cosh.«1» | atan.«1» =>
    exact ⟨_, rfl, append_rhsIs (m := 0) (by simp [layout]) rfl⟩
  case asin.«4» | acos.«4» =>
    exact ⟨_, _, _, _, rfl, append_rhsIs (m := 3) (by simp [layout]) rfl,
      append_rhsIs (m := 2) (by simp [layout]) rfl, append_rhsIs (m := 1) (by simp [layout]) rfl,
      append_rhsIs (m := 0) (by simp [layout]) rfl⟩
  case atan2.«3» =>
    exact ⟨_, _, _, rfl, append_rhsIs (m := 2) (by simp [layout]) rfl,
      append_rhsIs (m := 0) (by simp [layout]) rfl, append_rhsIs (m := 1) (by simp [layout]) rfl⟩
  case kepE.«0» =>
    exact ⟨_, _, rfl, append_rhsIs (m := 1) (by simp [layout]) rfl,
      append_rhsIs (m := 2) (by simp [layout]) rfl⟩
  case kepE.«1» => exact ⟨_, rfl, append_rhsIs (m := 2) (by simp [layout]) rfl⟩
  case kepE.«2» => exact ⟨_, rfl, append_rhsIs (m := 1) (by simp [layout]) rfl⟩

end New

/-! ## Tables that extend one another -/

section Extend

variable {d d' : Decomposition}

/-- Only an entry inside the table matches an operator node. -/
theorem RhsIs.lt_size {k : Nat} {op : Op} {args : List Expr} (h : d.RhsIs k op args) :
    k < d.size := by
  by_contra hk
  have hnum : (default : Entry).rhs = .num default := rfl
  unfold RhsIs entry at h
  rw [Array.getElem?_eq_none (by simp [size] at hk; omega), Option.getD_none, hnum] at h
  simp [Expr.node, Expr.beq] at h

theorem RhsIs.of_prefix (hpre : ∀ j < d.size, d'.entries[j]? = d.entries[j]?) {k : Nat}
    {op : Op} {args : List Expr} (h : d.RhsIs k op args) : d'.RhsIs k op args := by
  have hk := RhsIs.lt_size h
  unfold RhsIs entry at *
  rw [hpre k hk]
  exact h

theorem HiddenOk.of_rhsIs (himp : ∀ k op args, d.RhsIs k op args → d'.RhsIs k op args)
    {i : Nat} {args : List Expr} {op : Op} {hs : List Nat} (h : d.HiddenOk i args op hs) :
    d'.HiddenOk i args op hs := by
  cases op
  case sin | cos | sinh | cosh | tan | tanh | atan =>
    obtain ⟨k, rfl, hk⟩ := h
    exact ⟨k, rfl, himp _ _ _ hk⟩
  case asin | acos =>
    obtain ⟨r, s, g, q, rfl, hr, hs, hg, hq⟩ := h
    exact ⟨r, s, g, q, rfl, himp _ _ _ hr, himp _ _ _ hs, himp _ _ _ hg, himp _ _ _ hq⟩
  case atan2 =>
    obtain ⟨k, y, x, rfl, hk, hy, hx⟩ := h
    exact ⟨k, y, x, rfl, himp _ _ _ hk, himp _ _ _ hy, himp _ _ _ hx⟩
  case kepE =>
    obtain ⟨sn, cs, rfl, hsn, hcs⟩ := h
    exact ⟨sn, cs, rfl, himp _ _ _ hsn, himp _ _ _ hcs⟩
  all_goals exact h

/-- An entry of a table keeps its hidden shape in every table that extends it. -/
theorem HiddenShapeAt.of_prefix (hpre : ∀ j < d.size, d'.entries[j]? = d.entries[j]?) {i : Nat}
    (hi : i < d.size) (h : d.HiddenShapeAt i) : d'.HiddenShapeAt i := by
  have he : d'.entry i = d.entry i := by
    unfold entry
    rw [hpre i hi]
  unfold HiddenShapeAt at *
  rw [he]
  cases hr : (d.entry i).rhs with
  | func t op args hh =>
    rw [hr] at h
    exact HiddenOk.of_rhsIs (fun _ _ _ hk => RhsIs.of_prefix hpre hk) h
  | _ =>
    rw [hr] at h
    exact h

end Extend

/-! ## The builder at the start -/

section Start

variable {κ : Type} [BEq κ] [Hashable κ] [LawfulBEq κ] [LawfulHashable κ]

/-- A key read back from a map filled by inserting pairs was inserted with that value, or was
there before. -/
theorem foldl_insert_getElem? (l : List (κ × Nat)) (m : Std.HashMap κ Nat) {k : κ} {i : Nat}
    (h : (l.foldl (fun m (v, i) => m.insert v i) m)[k]? = some i) : (k, i) ∈ l ∨ m[k]? = some i := by
  induction l generalizing m with
  | nil => exact .inr h
  | cons p l ih =>
    obtain ⟨k', i'⟩ := p
    rcases ih _ h with hl | hm
    · exact .inl (List.mem_cons_of_mem _ hl)
    · rw [Std.HashMap.getElem?_insert] at hm
      split at hm
      · rename_i hk
        cases hm
        obtain rfl := beq_iff_eq.1 hk
        exact .inl List.mem_cons_self
      · exact .inr hm

/-- Every key inserted stays in the map. -/
theorem mem_foldl_insert (l : List (κ × Nat)) (m : Std.HashMap κ Nat) {k : κ}
    (h : k ∈ m ∨ ∃ i, (k, i) ∈ l) : k ∈ l.foldl (fun m (v, i) => m.insert v i) m := by
  induction l generalizing m with
  | nil =>
    rcases h with h | ⟨i, hi⟩
    · exact h
    · cases hi
  | cons p l ih =>
    apply ih
    rcases h with h | ⟨i, hi⟩
    · exact .inl (Std.HashMap.mem_insert.2 (.inr h))
    · rcases List.mem_cons.1 hi with rfl | hi
      · exact .inl (Std.HashMap.mem_insert.2 (.inl (beq_self_eq_true _)))
      · exact .inr ⟨i, hi⟩

variable {names : List String} {params : List UInt32}

/-- The index of a variable at the start is its position among the names. -/
theorem start_varIndex {v : String} {i : Nat} (h : (start names params).varIndex[v]? = some i) :
    names[i]? = some v := by
  rcases foldl_insert_getElem? _ _ h with hmem | hnone
  · exact List.mem_zipIdx_iff_getElem?.1 hmem
  · simp at hnone

theorem start_varIndex_of_mem {v : String} (hv : v ∈ names) :
    ∃ i, (start names params).varIndex[v]? = some i := by
  obtain ⟨i, hi⟩ := List.mem_iff_getElem?.1 hv
  have hmem := mem_foldl_insert names.zipIdx ∅ (.inr ⟨i, List.mem_zipIdx_iff_getElem?.2 hi⟩)
  exact Option.isSome_iff_exists.1 (Std.HashMap.mem_iff_isSome_getElem?.1 hmem)

/-- The index of a parameter at the start is its position among the parameters, after the
variables. -/
theorem start_parIndex {p : UInt32} {i : Nat} (h : (start names params).parIndex[p]? = some i) :
    names.length ≤ i ∧ params[i - names.length]? = some p := by
  rcases foldl_insert_getElem? _ _ h with hmem | hnone
  · obtain ⟨⟨q, j⟩, hj, heq⟩ := List.mem_map.1 hmem
    obtain ⟨rfl, rfl⟩ := Prod.mk.inj heq
    refine ⟨by omega, ?_⟩
    rw [Nat.add_sub_cancel]
    exact List.mem_zipIdx_iff_getElem?.1 hj
  · simp at hnone

theorem start_parIndex_of_mem {p : UInt32} (hp : p ∈ params) :
    ∃ i, (start names params).parIndex[p]? = some i := by
  obtain ⟨i, hi⟩ := List.mem_iff_getElem?.1 hp
  have hmem : p ∈ (start names params).parIndex := mem_foldl_insert _ ∅
    (.inr ⟨i + names.length, List.mem_map.2 ⟨(p, i), List.mem_zipIdx_iff_getElem?.2 hi, rfl⟩⟩)
  exact Option.isSome_iff_exists.1 (Std.HashMap.mem_iff_isSome_getElem?.1 hmem)

theorem start_size : (start names params).entries.size = names.length + params.length := by
  simp [start]

theorem start_var_entry {k : Nat} (hk : k < names.length) :
    (start names params).entries[k]? = some { rhs := .var names[k] } := by
  rw [start, Array.getElem?_append_left (by simpa using hk)]
  simp [hk]

theorem start_param_entry {k : Nat} (hk : k < params.length) :
    (start names params).entries[names.length + k]? = some { rhs := .param params[k] } := by
  rw [start, Array.getElem?_append_right (by simp)]
  simp [hk]

end Start

/-! ## What lowering keeps -/

/-- `b'` keeps every entry of `b`. -/
def Extends (b b' : Builder) : Prop :=
  b.entries.size ≤ b'.entries.size ∧ ∀ j < b.entries.size, b'.entries[j]? = b.entries[j]?

theorem Extends.refl (b : Builder) : Extends b b := ⟨Nat.le_refl _, fun _ _ => rfl⟩

theorem Extends.trans {b₁ b₂ b₃ : Builder} (h₁ : Extends b₁ b₂) (h₂ : Extends b₂ b₃) :
    Extends b₁ b₃ :=
  ⟨Nat.le_trans h₁.1 h₂.1, fun j hj => (h₂.2 j (Nat.lt_of_lt_of_le hj h₁.1)).trans (h₁.2 j hj)⟩

theorem extends_append {op : Op} {xs : List Expr} : Extends b (b.append op xs).1 := by
  refine ⟨by simp [append_entries], fun j hj => ?_⟩
  rw [append_entries, Array.getElem?_append_left hj]

section Extend

variable {names : List String} {params : List UInt32}

theorem Extends.table_entry (hext : Extends b b') {j : Nat} (hj : j < b.entries.size) :
    (b'.table names params).entry j = (b.table names params).entry j := by
  unfold entry
  rw [table_entries, table_entries, hext.2 j hj]

/-- A table extended by entries that are each a function entry over earlier entries, with
hidden dependencies among the new entries and of the shape their recurrence reads, stays well
formed with hidden dependencies of that shape. -/
theorem table_extend (hwf : (b.table names params).WellFormed)
    (hshape : (b.table names params).HiddenShape) (hext : Extends b b')
    (hnew : ∀ i, b.entries.size ≤ i → i < b'.entries.size →
      FunctionRhs i ((b'.table names params).entry i).rhs ∧
      (∀ h ∈ ((b'.table names params).entry i).hidden,
        b.entries.size ≤ h ∧ h < b'.entries.size ∧ h ≠ i) ∧
      (b'.table names params).HiddenShapeAt i) :
    (b'.table names params).WellFormed ∧ (b'.table names params).HiddenShape := by
  have hpre : ∀ j < (b.table names params).size,
      (b'.table names params).entries[j]? = (b.table names params).entries[j]? := hext.2
  have hold : ∀ j < b.entries.size, (b'.table names params).entry j =
      (b.table names params).entry j := fun j hj => hext.table_entry hj
  have hnp := hwf.size_le
  simp only [table_nPrefix, table_nOutputs, table_size, Nat.add_zero] at hnp
  refine ⟨⟨?_, hwf.plain_names, ?_, ?_, ?_, ?_, ?_⟩, ?_⟩
  · simp only [table_nPrefix, table_nOutputs, table_size, Nat.add_zero]
    exact Nat.le_trans hnp hext.1
  · intro k hk
    simp only [table_varNames] at hk ⊢
    rw [hold k (by omega)]
    exact hwf.var_entry k hk
  · intro k hk
    simp only [table_varNames, table_params] at hk ⊢
    rw [hold _ (by omega)]
    exact hwf.param_entry k hk
  · intro i hlo hhi
    simp only [table_nPrefix, table_functionsEnd] at hlo hhi
    by_cases hi : i < b.entries.size
    · rw [hold i hi]
      exact hwf.function_entry i (by simpa using hlo) (by simpa using hi)
    · exact (hnew i (by omega) hhi).1
  · intro i hlo hhi h hh
    simp only [table_nPrefix, table_functionsEnd] at hlo hhi ⊢
    by_cases hi : i < b.entries.size
    · rw [hold i hi] at hh
      have := hwf.hidden_entry i (by simpa using hlo) (by simpa using hi) h hh
      simp only [table_nPrefix, table_functionsEnd] at this
      exact ⟨this.1, Nat.lt_of_lt_of_le this.2.1 hext.1, this.2.2⟩
    · have := (hnew i (by omega) hhi).2.1 h hh
      exact ⟨by omega, this.2.1, this.2.2⟩
  · intro i hlo hhi
    simp only [table_functionsEnd, table_size] at hlo hhi
    omega
  · intro i hlo hhi
    simp only [table_nPrefix, table_functionsEnd] at hlo hhi
    by_cases hi : i < b.entries.size
    · exact HiddenShapeAt.of_prefix hpre hi (hshape i (by simpa using hlo) (by simpa using hi))
    · exact (hnew i (by omega) hhi).2.2

end Extend

/-- What lowering keeps of a builder started over `names` and `params`: its table is well
formed, with the hidden dependencies each recurrence reads, and fits 64-bit indices; the
variable and parameter indices are those of the start; the time and every memoized node stand
for function entries, the time for an entry of the time. -/
structure Valid (names : List String) (params : List UInt32) (b : Builder) : Prop where
  wf : (b.table names params).WellFormed
  shape : (b.table names params).HiddenShape
  fits : b.entries.size ≤ Variable.wordMax + 1
  var_index : b.varIndex = (start names params).varIndex
  par_index : b.parIndex = (start names params).parIndex
  time : ∀ x, b.time = some x → ∃ j, x = elem j ∧ names.length + params.length ≤ j ∧
    j < b.entries.size ∧ ((b.table names params).entry j).rhs = .time
  memo : ∀ (k : NodeKey) x, b.memo[k]? = some x → ∃ j, x = elem j ∧
    names.length + params.length ≤ j ∧ j < b.entries.size

namespace Valid

variable {names : List String} {params : List UInt32}

theorem start (hnames : ∀ v ∈ names, Variable.elementaryIndex? v = none)
    (hfit : names.length + params.length ≤ Variable.wordMax + 1) :
    Valid names params (start names params) where
  wf := by
    refine ⟨by simp [start_size], hnames, fun k hk => ?_, fun k hk => ?_, fun i hlo hhi => ?_,
      fun i hlo hhi => ?_, fun i hlo hhi => ?_⟩
    · simp only [table_varNames] at hk ⊢
      rw [table_entry_of_getElem? (start_var_entry hk)]
    · simp only [table_varNames, table_params] at hk ⊢
      rw [table_entry_of_getElem? (start_param_entry hk)]
    all_goals simp [start_size] at hlo hhi; omega
  shape i hlo hhi := by simp [start_size] at hlo hhi; omega
  fits := by rw [start_size]; exact hfit
  var_index := rfl
  par_index := rfl
  time x h := by simp [Builder.start] at h
  memo k x h := by simp [Builder.start] at h

/-- Appending the entries of a node over arguments that are literals or existing entries
keeps the invariant. -/
theorem append (hinv : Valid names params b) {op : Op} {xs : List Expr}
    (hxs : ∀ x ∈ xs, ArgOk b.entries.size x)
    (hfit : (b.append op xs).1.entries.size ≤ Variable.wordMax + 1) :
    Valid names params (b.append op xs).1 := by
  have hsize : (b.append op xs).1.entries.size =
      b.entries.size + (layout b.entries.size op xs).1.size := by simp [append_entries]
  have hext : Extends b (b.append op xs).1 := extends_append
  obtain ⟨hwf, hshape⟩ := table_extend hinv.wf hinv.shape hext fun i hlo hhi => by
    obtain ⟨m, rfl⟩ : ∃ m, i = b.entries.size + m := ⟨i - b.entries.size, by omega⟩
    have hm : m < (layout b.entries.size op xs).1.size := by omega
    rw [append_entry hm]
    refine ⟨layout_functionRhs hxs hm (by omega), fun h hh => ?_, append_hiddenShapeAt hm⟩
    have := layout_hidden hm h hh
    omega
  exact { wf := hwf, shape := hshape, fits := hfit, var_index := hinv.var_index,
          par_index := hinv.par_index
          time := fun x hx => by
            obtain ⟨j, rfl, hlo, hhi, hrhs⟩ := hinv.time x hx
            refine ⟨j, rfl, hlo, by omega, ?_⟩
            rw [hext.table_entry hhi]
            exact hrhs
          memo := fun k x hx => by
            obtain ⟨j, rfl, hlo, hhi⟩ := hinv.memo k x hx
            exact ⟨j, rfl, hlo, by omega⟩ }

/-- Laying out the entry of the time keeps the invariant. -/
theorem pushTime (hinv : Valid names params b)
    (hfit : b.entries.size + 1 ≤ Variable.wordMax + 1) :
    Valid names params
      { b with entries := b.entries.push { rhs := .time }
               time := some (elem b.entries.size) } := by
  set b' : Builder :=
    { b with entries := b.entries.push { rhs := .time }
             time := some (elem b.entries.size) } with hb'
  have hext : Extends b b' :=
    ⟨by simp [b'], fun j hj => by simp [b', Array.getElem?_push, Nat.ne_of_lt hj]⟩
  have hnew : (b'.table names params).entry b.entries.size = { rhs := .time } :=
    table_entry_of_getElem? (by simp [b'])
  have hnp := hinv.wf.size_le
  simp only [table_nPrefix, table_nOutputs, table_size, Nat.add_zero] at hnp
  obtain ⟨hwf, hshape⟩ := table_extend hinv.wf hinv.shape hext fun i hlo hhi => by
    obtain rfl : i = b.entries.size := by simp [b'] at hhi; omega
    rw [HiddenShapeAt, hnew]
    refine ⟨trivial, fun h hh => ?_, rfl⟩
    simp at hh
  refine ⟨hwf, hshape, by simpa [b'] using hfit, hinv.var_index, hinv.par_index,
    fun x hx => ?_, fun k x hx => ?_⟩
  · obtain rfl : x = elem b.entries.size := (Option.some.inj hx).symm
    exact ⟨b.entries.size, rfl, hnp, by simp [b'], by rw [hnew]⟩
  · obtain ⟨j, rfl, hlo, hhi⟩ := hinv.memo k x hx
    exact ⟨j, rfl, hlo, by simp [b']; omega⟩

/-- Memoizing a node as a function entry keeps the invariant. -/
theorem insertMemo (hinv : Valid names params b) (k : NodeKey) {j : Nat}
    (hlo : names.length + params.length ≤ j) (hhi : j < b.entries.size) :
    Valid names params { b with memo := b.memo.insert k (elem j) } where
  wf := hinv.wf
  shape := hinv.shape
  fits := hinv.fits
  var_index := hinv.var_index
  par_index := hinv.par_index
  time := hinv.time
  memo k' x hx := by
    rw [Std.HashMap.getElem?_insert] at hx
    split at hx
    · exact ⟨j, (Option.some.inj hx).symm, hlo, hhi⟩
    · exact hinv.memo k' x hx

end Valid

/-! ## Counting entries by memoized keys

Every node lowered for the first time adds at most five entries and one memoized key, and no
two memoized keys are equal, so the entries are bounded by the prefix, the time and five per
key. Over a family whose function nodes have keys among a list `K`, a builder therefore never
has more than five entries per member of `K` beyond its prefix and the time.
-/

section Count

/-- A list of pairwise distinct keys, each equal to one of `K`, is no longer than `K`. -/
theorem length_le_of_distinct {α : Type} [BEq α] [EquivBEq α] {l K : List α}
    (hl : l.Pairwise fun a b => (a == b) = false) (hK : ∀ a ∈ l, ∃ k ∈ K, (a == k) = true) :
    l.length ≤ K.length := by
  induction l generalizing K with
  | nil => simp
  | cons a l ih =>
    obtain ⟨k₀, hk₀, hak₀⟩ := hK a List.mem_cons_self
    -- the members of `K` equal to `a` cover no other key of the list
    have hlt : (K.filter fun k => !(a == k)).length < K.length :=
      List.length_filter_lt_length_iff_exists.2 ⟨k₀, hk₀, by simp [hak₀]⟩
    have hrest : l.length ≤ (K.filter fun k => !(a == k)).length := by
      refine ih (List.pairwise_cons.1 hl).2 fun c hc => ?_
      obtain ⟨k, hk, hck⟩ := hK c (List.mem_cons_of_mem _ hc)
      have hac : (a == c) = false := (List.pairwise_cons.1 hl).1 c hc
      refine ⟨k, List.mem_filter.2 ⟨hk, ?_⟩, hck⟩
      cases hak : a == k
      · rfl
      · simp [BEq.trans hak (BEq.symm hck)] at hac
    simp only [List.length_cons]
    omega

/-- A hash map whose keys are each equal to one of `K` has at most as many keys as `K`. -/
theorem size_le_of_keys {α β : Type} [BEq α] [Hashable α] [EquivBEq α] [LawfulHashable α]
    {m : Std.HashMap α β} {K : List α} (hK : ∀ k ∈ m, ∃ k' ∈ K, (k == k') = true) :
    m.size ≤ K.length := by
  rw [← Std.HashMap.length_keys]
  exact length_le_of_distinct Std.HashMap.distinct_keys
    fun k hk => hK k (Std.HashMap.mem_of_mem_keys hk)

/-- The keys `b'` memoizes are those of `b`, or keys of function nodes satisfying `P`. -/
def NewKeys (P : Expr → Prop) (b b' : Builder) : Prop :=
  ∀ k ∈ b'.memo, k ∈ b.memo ∨
    ∃ t op args h, P (.func t op args h) ∧ ((Expr.func t op args h).key == k) = true

namespace NewKeys

variable {P Q : Expr → Prop} {b₁ : Builder}

theorem refl : NewKeys P b b := fun _ hk => .inl hk

theorem trans (h₁ : NewKeys P b b₁) (h₂ : NewKeys P b₁ b') : NewKeys P b b' := by
  intro k hk
  rcases h₂ k hk with hk | hnew
  · exact h₁ k hk
  · exact .inr hnew

theorem mono (h : NewKeys P b b') (hPQ : ∀ x, P x → Q x) : NewKeys Q b b' := by
  intro k hk
  rcases h k hk with hk | ⟨t, op, args, hh, hP, hkey⟩
  · exact .inl hk
  · exact .inr ⟨t, op, args, hh, hPQ _ hP, hkey⟩

end NewKeys

/-- The entries of a builder are counted by its memo: at most the prefix, the time and five
entries per memoized key, each key equal to one of `K`. -/
structure Counted (K : List NodeKey) (names : List String) (params : List UInt32)
    (b : Builder) : Prop where
  size : b.entries.size ≤ names.length + params.length + b.time.isSome.toNat + 5 * b.memo.size
  keys : ∀ k ∈ b.memo, ∃ k' ∈ K, (k == k') = true

namespace Counted

variable {K : List NodeKey} {names : List String} {params : List UInt32}

theorem start : Counted K names params (start names params) where
  size := by
    rw [start_size]
    simp [Builder.start]
  keys k hk := by simp [Builder.start] at hk

theorem le (hc : Counted K names params b) :
    b.entries.size ≤ names.length + params.length + 1 + 5 * K.length := by
  have hmemo := size_le_of_keys hc.keys
  have htime := Bool.toNat_le b.time.isSome
  have := hc.size
  omega

/-- Laying out the entry of the time is counted by the time. -/
theorem pushTime (hc : Counted K names params b) (ht : b.time = none) :
    Counted K names params
      { b with entries := b.entries.push { rhs := .time }
               time := some (elem b.entries.size) } where
  size := by
    have := hc.size
    simp only [ht, Option.isSome_none, Bool.toNat_false, Option.isSome_some,
      Bool.toNat_true, Array.size_push] at this ⊢
    omega
  keys := hc.keys

/-- Laying out a node and memoizing it under a fresh key equal to a member of `K` is counted
by the key. -/
theorem insert (hc : Counted K names params b) (op : Op) (xs : List Expr) {k k' : NodeKey}
    (hk' : k' ∈ K) (hkk : (k == k') = true) (hfresh : ¬k ∈ b.memo) :
    Counted K names params
      { (b.append op xs).1 with
          memo := (b.append op xs).1.memo.insert k (elem (b.append op xs).2) } where
  size := by
    have hlay : (layout b.entries.size op xs).2 < (layout b.entries.size op xs).1.size ∧
        (layout b.entries.size op xs).1.size ≤ 5 := layout_size
    have hmemo : (b.memo.insert k (elem (b.append op xs).2)).size = b.memo.size + 1 := by
      rw [Std.HashMap.size_insert, if_neg hfresh]
    have := hc.size
    simp only [append_memo, append_time, append_entries, Array.size_append, hmemo]
    omega
  keys k₂ hk₂ := by
    rcases Std.HashMap.mem_insert.1 hk₂ with hkey | hk₂
    · exact ⟨k', hk', BEq.trans (BEq.symm hkey) hkk⟩
    · exact hc.keys k₂ hk₂

end Counted

end Count

/-! ## Lowering -/

/-- A family of expressions closed under taking arguments, whose function nodes cache the
hash of their arguments and are structurally equal whenever they share a key. -/
structure Family (U : Expr → Prop) : Prop where
  args : ∀ t op args h, U (.func t op args h) → ∀ a ∈ args, U a
  hash : ∀ t op args h, U (.func t op args h) → h = nodeHash op args
  coherent : ∀ a b, U a → U b → a.key == b.key → a.beq b = true

/-- Every function node of the family has a key equal to one of `K`. -/
def Covers (K : List NodeKey) (U : Expr → Prop) : Prop :=
  ∀ t op args h, U (.func t op args h) → ∃ k ∈ K, ((Expr.func t op args h).key == k) = true

section Lower

variable {names : List String} {params : List UInt32} {U : Expr → Prop} {K : List NodeKey}

theorem Family.of_occurs (hU : Family U) {a e : Expr} (he : U e) (h : Occurs a e) : U a := by
  induction h with
  | refl => exact he
  | arg hmem _ ih => exact ih (hU.args _ _ _ _ he _ hmem)

/-- The index a valid builder gives a variable names its prefix entry. -/
theorem Valid.var_lt (hinv : Valid names params b) {v : String} {i : Nat}
    (h : b.varIndex[v]? = some i) : i < names.length ∧ names[i]? = some v := by
  rw [hinv.var_index] at h
  have hv := start_varIndex h
  exact ⟨(List.getElem?_eq_some_iff.1 hv).1, hv⟩

/-- The index a valid builder gives a parameter names its prefix entry. -/
theorem Valid.par_lt (hinv : Valid names params b) {p : UInt32} {i : Nat}
    (h : b.parIndex[p]? = some i) :
    names.length ≤ i ∧ i < names.length + params.length ∧
      params[i - names.length]? = some p := by
  rw [hinv.par_index] at h
  obtain ⟨hle, hp⟩ := start_parIndex h
  exact ⟨hle, by have := (List.getElem?_eq_some_iff.1 hp).1; omega, hp⟩

theorem Valid.argOk_entry (hinv : Valid names params b) {j : Nat} (hj : j < b.entries.size) :
    ArgOk b.entries.size (elem j) :=
  argOk_elem hj (by have := hinv.fits; omega)

theorem Valid.nPrefix_le (hinv : Valid names params b) :
    names.length + params.length ≤ b.entries.size := by
  simpa using hinv.wf.size_le

/-- Lowering the arguments of a node one after another memoizes keys of nodes occurring in
them only. -/
theorem lowerArgs_newKeys {args : List Expr}
    (ih : ∀ a ∈ args, ∀ (b b' : Builder) (x : Expr), (lower a).run b = .ok (x, b') →
      NewKeys (Occurs · a) b b') :
    ∀ (b b' : Builder) (xs : List Expr), (args.mapM lower).run b = .ok (xs, b') →
      NewKeys (fun n => ∃ a ∈ args, Occurs n a) b b' := by
  induction args with
  | nil =>
    intro b b' xs h
    obtain ⟨rfl, rfl⟩ := run_mapM_nil.1 h
    exact NewKeys.refl
  | cons a args iha =>
    intro b b' xs h
    obtain ⟨x, b₁, xs', ha, hrest, rfl⟩ := run_mapM_cons.1 h
    have h₁ : NewKeys (fun n => ∃ a' ∈ a :: args, Occurs n a') b b₁ :=
      (ih a List.mem_cons_self b b₁ x ha).mono fun n hn => ⟨a, List.mem_cons_self, hn⟩
    have h₂ : NewKeys (fun n => ∃ a' ∈ a :: args, Occurs n a') b₁ b' :=
      (iha (fun a' ha' => ih a' (List.mem_cons_of_mem _ ha')) b₁ b' xs' hrest).mono
        fun n ⟨a', ha', hn⟩ => ⟨a', List.mem_cons_of_mem _ ha', hn⟩
    exact h₁.trans h₂

/-- Lowering memoizes keys of nodes occurring in the expression only. -/
theorem lower_newKeys (e : Expr) : ∀ (b b' : Builder) (x : Expr), (lower e).run b = .ok (x, b') →
    NewKeys (Occurs · e) b b' := by
  induction e using Expr.recArgs with
  | num n =>
    intro b b' x h
    obtain ⟨-, rfl⟩ := lower_num_run.1 h
    exact NewKeys.refl
  | var v =>
    intro b b' x h
    obtain ⟨_, -, -, rfl⟩ := lower_var_run.1 h
    exact NewKeys.refl
  | param p =>
    intro b b' x h
    obtain ⟨_, -, -, rfl⟩ := lower_param_run.1 h
    exact NewKeys.refl
  | time =>
    intro b b' x h
    rcases lower_time_run.1 h with ⟨-, rfl⟩ | ⟨-, -, rfl⟩
    · exact NewKeys.refl
    · exact fun k hk => .inl hk
  | func t op args hh ih =>
    intro b b' x h
    rcases lower_func_run.1 h with ⟨-, rfl⟩ | ⟨-, xs, b₁, hargs, -, rfl⟩
    · exact NewKeys.refl
    · intro k hk
      rcases Std.HashMap.mem_insert.1 hk with hkey | hk
      · exact .inr ⟨t, op, args, hh, .refl, hkey⟩
      · rcases lowerArgs_newKeys ih b b₁ xs hargs k hk with
          hk | ⟨t', op', args', h', ⟨a, ha, hocc⟩, hkey⟩
        · exact .inl hk
        · exact .inr ⟨t', op', args', h', .arg ha hocc, hkey⟩

/-- A node of a family is still unmemoized after lowering its arguments: a node occurring in
them with its key would be structurally equal to it, yet smaller. -/
theorem Family.key_fresh (hU : Family U) {t : NodeTag} {op : Op} {args : List Expr} {h : UInt64}
    (he : U (.func t op args h)) (hnew : NewKeys (fun n => ∃ a ∈ args, Occurs n a) b b')
    (hmiss : ¬(Expr.func t op args h).key ∈ b.memo) : ¬(Expr.func t op args h).key ∈ b'.memo := by
  intro hk
  rcases hnew _ hk with hk | ⟨t', op', args', h', ⟨a, ha, hocc⟩, hkey⟩
  · exact hmiss hk
  · have hbeq := hU.coherent _ _ (hU.of_occurs he (.arg ha hocc)) he hkey
    have := treeSize_eq_of_beq _ _ hbeq
    have : (Expr.func t' op' args' h').treeSize < (Expr.func t op args h).treeSize :=
      treeSize_lt_of_occurs_arg ha hocc
    omega

/-- Lowering the arguments of a node one after another, each as `lower` does. -/
theorem lowerArgs_valid {args : List Expr}
    (ih : ∀ a ∈ args, ∀ (b b' : Builder) (x : Expr), Valid names params b →
      Counted K names params b → (lower a).run b = .ok (x, b') →
      Valid names params b' ∧ Counted K names params b' ∧ Extends b b' ∧
        ArgOk b'.entries.size x) :
    ∀ (b b' : Builder) (xs : List Expr), Valid names params b → Counted K names params b →
      (args.mapM lower).run b = .ok (xs, b') →
      Valid names params b' ∧ Counted K names params b' ∧ Extends b b' ∧
        ∀ x ∈ xs, ArgOk b'.entries.size x := by
  induction args with
  | nil =>
    intro b b' xs hinv hc h
    obtain ⟨rfl, rfl⟩ := run_mapM_nil.1 h
    exact ⟨hinv, hc, .refl _, by simp⟩
  | cons a args iha =>
    intro b b' xs hinv hc h
    obtain ⟨x, b₁, xs', ha, hrest, rfl⟩ := run_mapM_cons.1 h
    obtain ⟨hinv₁, hc₁, hext₁, hx⟩ := ih a List.mem_cons_self b b₁ x hinv hc ha
    obtain ⟨hinv', hc', hext', hxs⟩ := iha (fun a' ha' => ih a' (List.mem_cons_of_mem _ ha'))
      b₁ b' xs' hinv₁ hc₁ hrest
    refine ⟨hinv', hc', hext₁.trans hext', fun y hy => ?_⟩
    rcases List.mem_cons.1 hy with rfl | hy
    · exact ArgOk.mono hx hext'.1
    · exact hxs y hy

section Room

variable (hU : Family U) (hK : Covers K U)
  (hroom : names.length + params.length + 1 + 5 * K.length ≤ Variable.wordMax + 1)
include hU hK hroom

/-- Lowering a node of a family whose keys `K` covers, into a builder with room for the
prefix, the time and five entries per key of `K`, keeps the builder valid and counted and
its entries, and returns a literal or an entry of the table. -/
theorem lower_valid (e : Expr) (he : U e) : ∀ (b b' : Builder) (x : Expr),
    Valid names params b → Counted K names params b → (lower e).run b = .ok (x, b') →
    Valid names params b' ∧ Counted K names params b' ∧ Extends b b' ∧
      ArgOk b'.entries.size x := by
  induction e using Expr.recArgs with
  | num n =>
    intro b b' x hinv hc h
    obtain ⟨rfl, rfl⟩ := lower_num_run.1 h
    exact ⟨hinv, hc, .refl _, argOk_num n⟩
  | var v =>
    intro b b' x hinv hc h
    obtain ⟨i, hi, rfl, rfl⟩ := lower_var_run.1 h
    have := hinv.var_lt hi
    exact ⟨hinv, hc, .refl _, hinv.argOk_entry (by have := hinv.nPrefix_le; omega)⟩
  | param p =>
    intro b b' x hinv hc h
    obtain ⟨i, hi, rfl, rfl⟩ := lower_param_run.1 h
    have := hinv.par_lt hi
    exact ⟨hinv, hc, .refl _, hinv.argOk_entry (by have := hinv.nPrefix_le; omega)⟩
  | time =>
    intro b b' x hinv hc h
    rcases lower_time_run.1 h with ⟨ht, rfl⟩ | ⟨ht, rfl, rfl⟩
    · obtain ⟨j, rfl, -, hj, -⟩ := hinv.time x ht
      exact ⟨hinv, hc, .refl _, hinv.argOk_entry hj⟩
    · have hc' := hc.pushTime ht
      have hinv' := hinv.pushTime (by have := hc'.le; simp at this; omega)
      refine ⟨hinv', hc', ⟨by simp, fun j hj => by simp [Array.getElem?_push, Nat.ne_of_lt hj]⟩,
        hinv'.argOk_entry (by simp)⟩
  | func t op args hh ih =>
    intro b b' x hinv hc h
    rcases lower_func_run.1 h with ⟨hm, rfl⟩ | ⟨hm, xs, b₁, hargs, rfl, rfl⟩
    · obtain ⟨j, rfl, -, hj⟩ := hinv.memo _ x hm
      exact ⟨hinv, hc, .refl _, hinv.argOk_entry hj⟩
    · have hargsU := hU.args t op args hh he
      obtain ⟨hinv₁, hc₁, hext₁, hxs⟩ :=
        lowerArgs_valid (fun a ha => ih a ha (hargsU a ha)) b b₁ xs hinv hc hargs
      have hfresh := hU.key_fresh he (lowerArgs_newKeys (fun a _ => lower_newKeys a) b b₁ xs hargs)
        (by simp [Std.HashMap.mem_iff_isSome_getElem?, hm])
      obtain ⟨k', hk', hkk⟩ := hK t op args hh he
      have hc₂ := hc₁.insert op xs hk' hkk hfresh
      have hlay : (layout b₁.entries.size op xs).2 < (layout b₁.entries.size op xs).1.size ∧
          (layout b₁.entries.size op xs).1.size ≤ 5 := layout_size
      have hinv₂ : Valid names params (b₁.append op xs).1 := hinv₁.append hxs (by
        have : (b₁.append op xs).1.entries.size ≤ names.length + params.length + 1 + 5 * K.length :=
          hc₂.le
        omega)
      have hj : (b₁.append op xs).2 < (b₁.append op xs).1.entries.size := by
        simp only [append_index, append_entries, Array.size_append]
        omega
      have hnp : names.length + params.length ≤ (b₁.append op xs).2 := by
        have := hinv₁.nPrefix_le
        rw [append_index]
        omega
      exact ⟨hinv₂.insertMemo _ hnp hj, hc₂, hext₁.trans extends_append, hinv₂.argOk_entry hj⟩

end Room

/-- The indices a builder was started with. -/
def Indexed (names : List String) (params : List UInt32) (b : Builder) : Prop :=
  b.varIndex = (start names params).varIndex ∧ b.parIndex = (start names params).parIndex

/-- Lowering a list succeeds when lowering each member does, keeping the indices. -/
theorem lowerList_ok {l : List Expr}
    (h : ∀ a ∈ l, ∀ b, Indexed names params b →
      ∃ x b', (lower a).run b = .ok (x, b') ∧ Indexed names params b') :
    ∀ b, Indexed names params b →
      ∃ xs b', (l.mapM lower).run b = .ok (xs, b') ∧ Indexed names params b' := by
  induction l with
  | nil => exact fun b hb => ⟨[], b, run_mapM_nil.2 ⟨rfl, rfl⟩, hb⟩
  | cons a l ih =>
    intro b hb
    obtain ⟨x, b₁, hx, hb₁⟩ := h a List.mem_cons_self b hb
    obtain ⟨xs, b₂, hxs, hb₂⟩ := ih (fun a' ha' => h a' (List.mem_cons_of_mem _ ha')) b₁ hb₁
    exact ⟨x :: xs, b₂, run_mapM_cons.2 ⟨x, b₁, xs, hx, hxs, rfl⟩, hb₂⟩

/-- Lowering succeeds on every expression whose variables and parameters the builder was
started with, and keeps the indices. -/
theorem lower_ok (e : Expr) (hvars : ∀ v, Occurs (.var v) e → v ∈ names)
    (hpars : ∀ p, Occurs (.param p) e → p ∈ params) :
    ∀ b, Indexed names params b → ∃ x b', (lower e).run b = .ok (x, b') ∧ Indexed names params b' := by
  induction e using Expr.recArgs with
  | num n => exact fun b hb => ⟨_, b, lower_num_run.2 ⟨rfl, rfl⟩, hb⟩
  | var v =>
    intro b hb
    obtain ⟨i, hi⟩ : ∃ i, (start names params).varIndex[v]? = some i :=
      start_varIndex_of_mem (hvars v .refl)
    exact ⟨_, b, lower_var_run.2 ⟨i, hb.1 ▸ hi, rfl, rfl⟩, hb⟩
  | param p =>
    intro b hb
    obtain ⟨i, hi⟩ : ∃ i, (start names params).parIndex[p]? = some i :=
      start_parIndex_of_mem (hpars p .refl)
    exact ⟨_, b, lower_param_run.2 ⟨i, hb.2 ▸ hi, rfl, rfl⟩, hb⟩
  | time =>
    intro b hb
    cases ht : b.time with
    | some x => exact ⟨x, b, lower_time_run.2 (.inl ⟨ht, rfl⟩), hb⟩
    | none => exact ⟨_, _, lower_time_run.2 (.inr ⟨ht, rfl, rfl⟩), hb⟩
  | func t op args hh ih =>
    intro b hb
    cases hm : b.memo[(Expr.func t op args hh).key]? with
    | some x => exact ⟨x, b, lower_func_run.2 (.inl ⟨hm, rfl⟩), hb⟩
    | none =>
      obtain ⟨xs, b₁, hxs, hb₁⟩ := lowerList_ok (fun a ha => ih a ha
        (fun v hv => hvars v (hv.trans (.of_mem ha)))
        (fun p hp => hpars p (hp.trans (.of_mem ha)))) b hb
      exact ⟨_, _, lower_func_run.2 (.inr ⟨hm, xs, b₁, hxs, rfl, rfl⟩), hb₁⟩

end Lower

/-! ## What the entries stand for -/

section Expand

variable {names : List String} {params : List UInt32}

/-- Extending a table keeps the expansions of its entries. -/
theorem expansions_extends (hext : Extends b b') {j : Nat} (hj : j < b.entries.size) :
    (expansions b'.entries)[j]? = (expansions b.entries)[j]? := by
  have htake : b'.entries.toList.take b.entries.size = b.entries.toList := by
    apply List.ext_getElem?
    intro k
    rw [List.getElem?_take]
    split
    · rename_i hk
      simpa using hext.2 k hk
    · rename_i hk
      rw [List.getElem?_eq_none (by simp; omega)]
  have hsplit : expansions b'.entries = (b'.entries.toList.drop b.entries.size).foldl expandStep
      (expansions b.entries) := by
    have hl : b'.entries.toList = b.entries.toList ++ b'.entries.toList.drop b.entries.size := by
      rw [← htake, List.take_append_drop]
    unfold expansions
    rw [← Array.foldl_toList, ← Array.foldl_toList]
    conv_lhs => rw [hl]
    rw [List.foldl_append]
  rw [hsplit, foldl_expandStep_getElem? _ _ (by simpa using hj)]

/-- An argument over the entries of a table expands alike in every extension. -/
theorem expandArg_extends (hext : Extends b b') {x : Expr} (hx : ArgOk b.entries.size x) :
    expandArg (expansions b'.entries) x = expandArg (expansions b.entries) x :=
  expandArg_congr (fun _ hj => expansions_extends hext hj) hx.refsBelow

/-- Each memoized key of the builder stands for an entry whose expansion is structurally
equal to every node of the family `U` with that key. -/
def MemoSound (U : Expr → Prop) (b : Builder) : Prop :=
  ∀ k x, b.memo[k]? = some x → ∀ e, U e → e.key == k →
    (expandArg (expansions b.entries) x).beq e = true

theorem MemoSound.extend {U : Expr → Prop} (hsound : MemoSound U b)
    (hinv : Valid names params b) (hext : Extends b b') (hmemo : b'.memo = b.memo) :
    MemoSound U b' := by
  intro k x hx e he hk
  rw [hmemo] at hx
  obtain ⟨j, rfl, -, hj⟩ := hinv.memo k _ hx
  rw [expandArg_extends hext (hinv.argOk_entry hj)]
  exact hsound k _ hx e he hk

/-- A prefix entry expands to its variable or parameter. -/
theorem Valid.expandArg_prefix (hinv : Valid names params b) {i : Nat}
    (hi : i < names.length + params.length) :
    expandArg (expansions b.entries) (elem i) = ((b.table names params).entry i).rhs := by
  have hsize := hinv.nPrefix_le
  show expandArg (expansions (b.table names params).entries) (elem i) = _
  rw [hinv.wf.expandArg_elem (by simp; omega) (by have := hinv.fits; omega),
    hinv.wf.expansion_prefix (by simpa using hi)]

/-- An entry of the time expands to the time. -/
theorem Valid.expandArg_time (hinv : Valid names params b) {j : Nat} (hj : j < b.entries.size)
    (htime : ((b.table names params).entry j).rhs = .time) :
    expandArg (expansions b.entries) (elem j) = .time := by
  show expandArg (expansions (b.table names params).entries) (elem j) = _
  rw [hinv.wf.expandArg_elem (by simpa using hj) (by have := hinv.fits; omega), expansion, htime]
  rfl

section Family

variable {U : Expr → Prop} {K : List NodeKey} (hU : Family U) (hK : Covers K U)
  (hroom : names.length + params.length + 1 + 5 * K.length ≤ Variable.wordMax + 1)
include hU hK hroom

/-- Lowering the arguments of a node one after another, each as `lower` does. -/
theorem lowerArgs_expand {args : List Expr}
    (ih : ∀ a ∈ args, U a → ∀ (b b' : Builder) (x : Expr), Valid names params b →
      Counted K names params b → MemoSound U b → (lower a).run b = .ok (x, b') →
      MemoSound U b' ∧ (expandArg (expansions b'.entries) x).beq a = true)
    (hargs : ∀ a ∈ args, U a) :
    ∀ (b b' : Builder) (xs : List Expr), Valid names params b → Counted K names params b →
      MemoSound U b → (args.mapM lower).run b = .ok (xs, b') →
      MemoSound U b' ∧ Expr.ArgsEq (xs.map (expandArg (expansions b'.entries))) args := by
  induction args with
  | nil =>
    intro b b' xs _ _ hsound h
    obtain ⟨rfl, rfl⟩ := run_mapM_nil.1 h
    exact ⟨hsound, .nil⟩
  | cons a args iha =>
    intro b b' xs hinv hc hsound h
    obtain ⟨x, b₁, xs', ha, hrest, rfl⟩ := run_mapM_cons.1 h
    have hUa := hargs a List.mem_cons_self
    have hargs' := fun a' ha' => hargs a' (List.mem_cons_of_mem _ ha')
    obtain ⟨hinv₁, hc₁, -, hx⟩ := lower_valid hU hK hroom a hUa b b₁ x hinv hc ha
    obtain ⟨hsound₁, hxa⟩ := ih a List.mem_cons_self hUa b b₁ x hinv hc hsound ha
    obtain ⟨-, -, hext', -⟩ := lowerArgs_valid
      (fun a' ha' => lower_valid hU hK hroom a' (hargs' a' ha')) b₁ b' xs' hinv₁ hc₁ hrest
    obtain ⟨hsound', hxs⟩ := iha (fun a' ha' => ih a' (List.mem_cons_of_mem _ ha')) hargs'
      b₁ b' xs' hinv₁ hc₁ hsound₁ hrest
    refine ⟨hsound', .cons ?_ hxs⟩
    rw [expandArg_extends hext' hx]
    exact hxa

/-- Lowering a node of the family returns a literal or an entry whose expansion is
structurally equal to the node, and keeps the memo sound. -/
theorem lower_expand (e : Expr) (he : U e) :
    ∀ (b b' : Builder) (x : Expr), Valid names params b → Counted K names params b →
      MemoSound U b → (lower e).run b = .ok (x, b') →
      MemoSound U b' ∧ (expandArg (expansions b'.entries) x).beq e = true := by
  induction e using Expr.recArgs with
  | num n =>
    intro b b' x _ _ hsound h
    obtain ⟨rfl, rfl⟩ := lower_num_run.1 h
    exact ⟨hsound, Expr.beq_self _⟩
  | var v =>
    intro b b' x hinv _ hsound h
    obtain ⟨i, hi, rfl, rfl⟩ := lower_var_run.1 h
    obtain ⟨hlt, hv⟩ := hinv.var_lt hi
    refine ⟨hsound, ?_⟩
    rw [hinv.expandArg_prefix (by omega), hinv.wf.var_entry i hlt]
    obtain rfl : names[i] = v := Option.some.inj ((List.getElem?_eq_getElem hlt).symm.trans hv)
    exact Expr.beq_self _
  | param p =>
    intro b b' x hinv _ hsound h
    obtain ⟨i, hi, rfl, rfl⟩ := lower_param_run.1 h
    obtain ⟨hle, hlt, hp⟩ := hinv.par_lt hi
    refine ⟨hsound, ?_⟩
    have hk : i - names.length < params.length := by omega
    have hentry := hinv.wf.param_entry (i - names.length) hk
    simp only [table_varNames, table_params, Nat.add_sub_cancel' hle] at hentry
    rw [hinv.expandArg_prefix hlt, hentry]
    obtain rfl : params[i - names.length] = p :=
      Option.some.inj ((List.getElem?_eq_getElem hk).symm.trans hp)
    exact Expr.beq_self _
  | time =>
    intro b b' x hinv hc hsound h
    rcases lower_time_run.1 h with ⟨ht, rfl⟩ | ⟨ht, rfl, rfl⟩
    · obtain ⟨j, rfl, -, hj, hrhs⟩ := hinv.time x ht
      exact ⟨hsound, by rw [hinv.expandArg_time hj hrhs]; rfl⟩
    · obtain ⟨hinv', -, hext, -⟩ := lower_valid hU hK hroom .time he b _ _ hinv hc h
      refine ⟨hsound.extend hinv hext rfl, ?_⟩
      obtain ⟨j, hj, -, hj', hrhs⟩ := hinv'.time _ rfl
      rw [hj, hinv'.expandArg_time hj' hrhs]
      rfl
  | func t op args hh ih =>
    intro b b' x hinv hc hsound h
    obtain ⟨hinv', -, -, -⟩ := lower_valid hU hK hroom _ he b b' x hinv hc h
    rcases lower_func_run.1 h with ⟨hm, rfl⟩ | ⟨-, xs, b₁, hargs, rfl, rfl⟩
    · exact ⟨hsound, hsound _ x hm _ he BEq.rfl⟩
    · have hargsU := hU.args t op args hh he
      obtain ⟨hinv₁, -, -, hxs⟩ := lowerArgs_valid
        (fun a ha => lower_valid hU hK hroom a (hargsU a ha)) b b₁ xs hinv hc hargs
      obtain ⟨hsound₁, hxsE⟩ := lowerArgs_expand hU hK hroom (fun a ha => ih a ha) hargsU
        b b₁ xs hinv hc hsound hargs
      have hext' : Extends b₁ { (b₁.append op xs).1 with
          memo := (b₁.append op xs).1.memo.insert (Expr.func t op args hh).key
            (elem (b₁.append op xs).2) } := extends_append
      obtain ⟨hs, hmain⟩ : ∃ hs, (layout b₁.entries.size op xs).1[(layout b₁.entries.size op xs).2]? =
          some { rhs := Expr.node .anon op xs, hidden := hs } := layout_main
      have hlay : (layout b₁.entries.size op xs).2 < (layout b₁.entries.size op xs).1.size ∧
          (layout b₁.entries.size op xs).1.size ≤ 5 := layout_size
      have hi : (b₁.append op xs).2 < (b₁.append op xs).1.entries.size := by
        simp only [append_index, append_entries, Array.size_append]
        omega
      have hinv₂ : Valid names params (b₁.append op xs).1 := hinv₁.append hxs hinv'.fits
      have hentry : ((b₁.append op xs).1.table names params).entry (b₁.append op xs).2 =
          { rhs := Expr.node .anon op xs, hidden := hs } := by
        apply table_entry_of_getElem?
        rw [append_entries, append_index, Array.getElem?_append_right (by omega)]
        simpa using hmain
      -- the new entry expands to the node over the expansions of the lowered arguments
      have hbeq : (expandArg (expansions (b₁.append op xs).1.entries)
          (elem (b₁.append op xs).2)).beq (.func t op args hh) = true := by
        show (expandArg (expansions ((b₁.append op xs).1.table names params).entries)
          (elem (b₁.append op xs).2)).beq _ = true
        rw [hinv₂.wf.expandArg_elem (by simpa using hi) (by have := hinv₂.fits; omega),
          expansion, hentry]
        have hmap : xs.map (expandArg (expansions ((b₁.append op xs).1.table names params).entries)) =
            xs.map (expandArg (expansions b₁.entries)) :=
          List.map_congr_left fun x hx => expandArg_extends extends_append (hxs x hx)
        simp only [expandRhs, Expr.node]
        rw [hmap]
        exact Expr.beq_symm _ _ (Expr.func_beq_node (hU.hash t op args hh he) hxsE.symm)
      refine ⟨?_, hbeq⟩
      -- the memo keeps the old keys and maps the node's key to the new entry
      intro k x' hx' e' he' hk
      simp only [Std.HashMap.getElem?_insert, append_memo] at hx'
      split at hx'
      · rename_i hkey
        cases hx'
        exact Expr.beq_trans _ _ _ hbeq (hU.coherent _ _ he he' (BEq.trans hkey (BEq.symm hk)))
      · obtain ⟨j, rfl, -, hj⟩ := hinv₁.memo k x' hx'
        rw [expandArg_extends hext' (hinv₁.argOk_entry hj)]
        exact hsound₁ k _ hx' e' he' hk

end Family

end Expand

end Builder

/-! ## The table of prepared expressions -/

section Prepared

open Decomposition.Builder TaylorOde.Expr

variable {names : List String} {prepared : List Expr} {d : Decomposition}

theorem ofPrepared_eq_ok :
    ofPrepared names prepared = .ok d ↔ ∃ refs b,
      (prepared.mapM lower).run (start names (paramsOf prepared)) = .ok (refs, b) ∧
      d = { entries := b.entries ++ (refs.map fun r => ({ rhs := r } : Entry)).toArray
            varNames := names, params := paramsOf prepared, nOutputs := prepared.length } := by
  unfold ofPrepared
  cases h : (prepared.mapM lower).run (start names (paramsOf prepared)) with
  | error e => simp [h, bind, Except.bind]
  | ok p =>
    obtain ⟨refs, b⟩ := p
    simp [h, bind, Except.bind, pure, Except.pure]
    exact eq_comm

/-- Every parameter of a prepared expression is among the parameters of the table. -/
theorem mem_paramsOf {e : Expr} (he : e ∈ prepared) {p : UInt32} (hp : Occurs (.param p) e) :
    p ∈ paramsOf prepared := by
  have hatom : Expr.param p ∈ e.atoms := mem_atoms_of_occurs hp rfl
  have hnat : p.toNat ∈ e.params := by
    simp only [Expr.params, List.mem_eraseDups, List.mem_mergeSort, List.mem_filterMap]
    exact ⟨_, hatom, rfl⟩
  simp only [paramsOf, List.mem_map, List.mem_eraseDups, List.mem_mergeSort, List.mem_flatMap]
  exact ⟨p.toNat, ⟨e, he, hnat⟩, UInt32.ofNat_toNat⟩

/-- The table of prepared expressions over the given variables exists as soon as every
variable they mention is among them. -/
theorem ofPrepared_ok (hvars : ∀ e ∈ prepared, ∀ v, Occurs (.var v) e → v ∈ names) :
    ∃ d, ofPrepared names prepared = .ok d := by
  obtain ⟨refs, b, h, -⟩ := lowerList_ok
    (fun e he => lower_ok e (hvars e he) (fun p hp => mem_paramsOf he hp))
    (start names (paramsOf prepared)) ⟨rfl, rfl⟩
  exact ⟨_, ofPrepared_eq_ok.2 ⟨refs, b, h, rfl⟩⟩

/-- Appending entries keeps the expansions of the entries before. -/
theorem expansions_append (es more : Array Entry) {j : Nat} (hj : j < es.size) :
    (expansions (es ++ more))[j]? = (expansions es)[j]? := by
  unfold expansions
  rw [← Array.foldl_toList, ← Array.foldl_toList, Array.toList_append, List.foldl_append,
    foldl_expandStep_getElem? _ _ (by rw [foldl_expandStep_size]; simpa using hj)]

section Table

variable {refs : List Expr} {b : Builder}

/-- The function entries of the table of prepared expressions are those of the builder. -/
theorem ofPrepared_entry {j : Nat} (hj : j < b.entries.size) :
    ({ entries := b.entries ++ (refs.map fun r => ({ rhs := r } : Entry)).toArray
       varNames := names, params := paramsOf prepared, nOutputs := prepared.length } :
        Decomposition).entry j = (b.table names (paramsOf prepared)).entry j := by
  unfold entry
  rw [Array.getElem?_append_left hj]
  rfl

/-- The output entries of the table of prepared expressions are the lowered expressions. -/
theorem ofPrepared_output_entry {m : Nat} (hm : m < refs.length) :
    ({ entries := b.entries ++ (refs.map fun r => ({ rhs := r } : Entry)).toArray
       varNames := names, params := paramsOf prepared, nOutputs := prepared.length } :
        Decomposition).entry (b.entries.size + m) = { rhs := refs[m] } := by
  apply entry_of_getElem?
  rw [Array.getElem?_append_right (by omega)]
  simp [hm]

end Table

/-- A literal or an elementary variable is no operator node. -/
theorem ArgOk.op?_eq_none {i : Nat} {a : Expr} (h : ArgOk i a) : a.op? = none := by
  rcases h with ⟨j, hj, -⟩ | ⟨-, hnum⟩
  · cases a <;> simp_all [Expr.elemIndex?, Expr.op?]
  · cases a <;> simp_all [Expr.isNumber, Expr.op?]

section Family

variable {U : Expr → Prop} {K : List NodeKey} (hnames : ∀ v ∈ names, Variable.elementaryIndex? v = none)
  (hfam : Family U) (hK : Covers K U) (hU : ∀ e ∈ prepared, U e)
  (hroom : names.length + (paramsOf prepared).length + 1 + 5 * K.length + prepared.length ≤
    Variable.wordMax + 1)
include hnames hfam hK hU hroom

/-- The table of prepared expressions is well formed, with the hidden dependencies each
recurrence reads, and fits 64-bit indices, when the variable names are not elementary and there
is room for the prefix, the time, five entries per key of a family holding the expressions, and
the outputs. -/
theorem ofPrepared_wellFormed (h : ofPrepared names prepared = .ok d) :
    d.WellFormed ∧ d.HiddenShape ∧ d.Fits ∧ d.varNames = names ∧ d.params = paramsOf prepared ∧
      d.nOutputs = prepared.length := by
  obtain ⟨refs, b, hrun, rfl⟩ := ofPrepared_eq_ok.1 h
  have hstart : Valid names (paramsOf prepared) (start names (paramsOf prepared)) :=
    Valid.start hnames (by omega)
  have hlen := run_mapM_length hrun
  obtain ⟨hinv, hc, -, hrefs⟩ := lowerArgs_valid
    (fun a ha => lower_valid hfam hK (by omega) a (hU a ha)) _ b refs hstart Counted.start hrun
  have hsize := hc.le
  have hnp := hinv.nPrefix_le
  set d : Decomposition :=
    { entries := b.entries ++ (refs.map fun r => ({ rhs := r } : Entry)).toArray
      varNames := names, params := paramsOf prepared, nOutputs := prepared.length } with hd
  have hdsize : d.size = b.entries.size + prepared.length := by simp [d, size, hlen]
  have hfe : d.functionsEnd = b.entries.size := by
    simp only [functionsEnd]
    simp [d, hlen]
  have hold : ∀ j < b.entries.size, d.entry j = (b.table names (paramsOf prepared)).entry j :=
    fun j hj => ofPrepared_entry hj
  have hwf := hinv.wf
  have hnpd : d.nPrefix = names.length + (paramsOf prepared).length := rfl
  have hvn : d.varNames = names := rfl
  have hps : d.params = paramsOf prepared := rfl
  refine ⟨⟨?_, hnames, fun k hk => ?_, fun k hk => ?_, fun i hlo hhi => ?_, fun i hlo hhi => ?_,
    fun i hlo hhi => ?_⟩, fun i hlo hhi => ?_, ?_, rfl, rfl, rfl⟩
  · simp only [nPrefix, hdsize]
    simp [d]
    omega
  · simp only [hvn] at hk ⊢
    rw [hold k (by omega)]
    exact hwf.var_entry k hk
  · simp only [hvn, hps] at hk ⊢
    rw [hold _ (by omega)]
    exact hwf.param_entry k hk
  · rw [hfe] at hhi
    rw [hold i hhi]
    exact hwf.function_entry i hlo (by simpa using hhi)
  · rw [hfe] at hhi ⊢
    rw [hold i hhi, hnpd]
    simpa using hwf.hidden_entry i hlo (by simpa using hhi)
  · rw [hfe] at hlo ⊢
    rw [hdsize] at hhi
    obtain ⟨m, rfl⟩ : ∃ m, i = b.entries.size + m := ⟨i - b.entries.size, by omega⟩
    rw [ofPrepared_output_entry (by omega)]
    exact hrefs _ (List.getElem_mem _)
  · rw [hfe] at hhi
    have hpre : ∀ j < (b.table names (paramsOf prepared)).size,
        d.entries[j]? = (b.table names (paramsOf prepared)).entries[j]? :=
      fun j hj => Array.getElem?_append_left hj
    exact HiddenShapeAt.of_prefix hpre (by simpa using hhi)
      (hinv.shape i hlo (by simpa using hhi))
  · show d.size ≤ _
    rw [hdsize]
    omega

/-- The table of prepared expressions reconstructs them when they form a family whose nodes
cache their hashes and share a key only when structurally equal. -/
theorem ofPrepared_reconstruct (h : ofPrepared names prepared = .ok d) :
    Expr.ArgsEq d.reconstruct prepared := by
  obtain ⟨hwf, -⟩ := ofPrepared_wellFormed hnames hfam hK hU hroom h
  obtain ⟨refs, b, hrun, rfl⟩ := ofPrepared_eq_ok.1 h
  have hstart : Valid names (paramsOf prepared) (start names (paramsOf prepared)) :=
    Valid.start hnames (by omega)
  have hlen := run_mapM_length hrun
  have hroom' : names.length + (paramsOf prepared).length + 1 + 5 * K.length ≤
      Variable.wordMax + 1 := by
    omega
  obtain ⟨-, -, -, hrefs⟩ := lowerArgs_valid
    (fun a ha => lower_valid hfam hK hroom' a (hU a ha)) _ b refs hstart Counted.start hrun
  obtain ⟨-, hE⟩ := lowerArgs_expand hfam hK hroom' (fun a _ => lower_expand hfam hK hroom' a) hU
    _ b refs hstart Counted.start (fun k x hx => by simp [start] at hx) hrun
  -- each output expands as its lowered expression does against the builder's entries
  suffices heq : Decomposition.reconstruct
      { entries := b.entries ++ (refs.map fun r => ({ rhs := r } : Entry)).toArray
        varNames := names, params := paramsOf prepared, nOutputs := prepared.length } =
      refs.map (expandArg (expansions b.entries)) by
    rw [heq]
    exact hE
  rw [hwf.reconstruct_eq_map]
  apply List.ext_getElem (by simp [hlen])
  intro m h1 h2
  simp only [List.length_map, List.length_range] at h1 h2
  have hfe : Decomposition.functionsEnd
      { entries := b.entries ++ (refs.map fun r => ({ rhs := r } : Entry)).toArray
        varNames := names, params := paramsOf prepared, nOutputs := prepared.length } =
      b.entries.size := by
    simp only [functionsEnd]
    simp [hlen]
  simp only [List.getElem_map, List.getElem_range, hfe, expansion]
  rw [ofPrepared_output_entry (by omega)]
  have hok := hrefs _ (List.getElem_mem (by omega : m < refs.length))
  rw [expandRhs_of_op?_none _ hok.op?_eq_none]
  exact expandArg_congr (fun j hj => expansions_append _ _ hj) hok.refsBelow

end Family

end Prepared

end Decomposition

end TaylorOde
