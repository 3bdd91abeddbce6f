import TaylorOde.Proofs.Decomposition.Table
import TaylorOde.Decomposition.Passes
import Mathlib.Data.List.GetD
/-!
# Renumbering the entries of a decomposition

Every pass over a decomposition (common subexpressions, dead code, reordering) keeps the
prefix in place and the outputs last, drops or merges some function entries, and renames the
references of the rest through a table from old to new positions. `Renumbering d d' r keep`
states this once:

* the kept entries `keep` of `d` are closed under references and hidden dependencies, and
  each lands, through `r`, on a function entry of `d'` structurally equal to its renaming;
* every function entry `k` of `d'` is the renaming of a kept entry landing on `k`, whose
  references land before `k`;
* the outputs of `d'` are the renamed outputs of `d`.

From it follow the three facts every pass needs: the renumbered table is well formed
(`Renumbering.wellFormed`), keeps the shape of hidden dependencies
(`Renumbering.hiddenShape`), and reconstructs the same expressions
(`Renumbering.reconstruct`). All of it asks the tables to fit 64-bit positions, so that every
elementary name reads back its index.
-/

namespace TaylorOde

namespace Decomposition

/-- `u_j` renamed to `u_(r j)`; every other argument kept. -/
def renameArg (r : Nat → Nat) (a : Expr) : Expr :=
  match a.elemIndex? with
  | some j => Expr.elem (r j)
  | none => a

/-- A right-hand side with its elementary variables renamed through `r`. -/
def renameRhs (r : Nat → Nat) : Expr → Expr
  | .func _ op args _ => Expr.node .anon op (args.map (renameArg r))
  | other => renameArg r other

/-- A walk over the indices `a, a + 1, …, a + len - 1` keeps an invariant that each step
carries from `m` indices walked to `m + 1`. -/
theorem foldl_range_induction {σ : Type} (f : σ → Nat → σ) (a len : Nat) (I : Nat → σ → Prop)
    {s : σ} (h0 : I 0 s) (hstep : ∀ m t, m < len → I m t → I (m + 1) (f t (a + m))) :
    I len (((List.range len).map (a + ·)).foldl f s) := by
  induction len with
  | zero => exact h0
  | succ len ih =>
    rw [List.range_succ, List.map_append, List.foldl_append]
    exact hstep len _ (by omega) (ih fun m t hm => hstep m t (by omega))

/-- The indices from `f` on, below `n`. -/
theorem mem_drop_range {n f x : Nat} : x ∈ (List.range n).drop f ↔ f ≤ x ∧ x < n := by
  simp only [List.mem_drop_iff_getElem, List.getElem_range, List.length_range]
  constructor
  · rintro ⟨k, hk, rfl⟩
    omega
  · rintro ⟨h₁, h₂⟩
    exact ⟨x - f, by omega, by omega⟩

/-- A renaming table of the passes read as a function: the new position of entry `j`. -/
def posOf (remap : Array Nat) (j : Nat) : Nat := remap[j]?.getD 0

theorem remapRhs_eq (remap : Array Nat) (e : Expr) : remapRhs remap e = renameRhs (posOf remap) e := by
  cases e <;> rfl

/-- Renaming reads the renaming only at the references. -/
theorem renameRhs_congr {r r' : Nat → Nat} {e : Entry} (h : ∀ j ∈ e.refs, r j = r' j) :
    renameRhs r e.rhs = renameRhs r' e.rhs := by
  have harg : ∀ a, (∀ j, a.elemIndex? = some j → r j = r' j) → renameArg r a = renameArg r' a := by
    intro a ha
    unfold renameArg
    split
    · rename_i j hj
      rw [ha j hj]
    · rfl
  cases hrhs : e.rhs with
  | func t op args hh =>
    simp only [renameRhs]
    congr 1
    refine List.map_congr_left fun a hmem => harg a fun j hj => h j ?_
    exact (mem_refs_iff hrhs).2 ⟨a, hmem, hj⟩
  | _ =>
    exact harg _ fun j hj => h j (mem_refs_of_elemIndex? (by rw [hrhs]; exact hj))

/-- Setting one position leaves the others. -/
theorem posOf_set_of_ne {remap : Array Nat} {i j v : Nat} (h : i ≠ j) :
    posOf (remap.set! i v) j = posOf remap j := by
  simp [posOf, h]

theorem posOf_set_self {remap : Array Nat} {i v : Nat} (h : i < remap.size) :
    posOf (remap.set! i v) i = v := by
  simp [posOf, h]

theorem posOf_of_getElem? {remap : Array Nat} {j v : Nat} (h : remap[j]? = some v) :
    posOf remap j = v := by
  simp [posOf, h]

/-- A table fits 64-bit positions: every position has an elementary name that reads back. -/
def Fits (d : Decomposition) : Prop := d.size ≤ Variable.wordMax + 1

theorem renameArg_beq (r : Nat → Nat) {a b : Expr} (h : a.beq b = true) :
    (renameArg r a).beq (renameArg r b) = true := by
  unfold renameArg
  rw [Expr.elemIndex?_eq_of_beq h]
  split
  · exact Expr.beq_self _
  · exact h

/-- Renaming respects structural equality. -/
theorem renameRhs_beq (r : Nat → Nat) {a b : Expr} (h : a.beq b = true) :
    (renameRhs r a).beq (renameRhs r b) = true := by
  cases a <;> cases b
  case func.func t op xs hh t' op' ys hh' =>
    obtain ⟨-, rfl, hargs⟩ := Expr.func_beq_func.1 h
    refine Expr.node_beq_node _ _ _ ?_
    exact List.forall₂_map_left_iff.2 (List.forall₂_map_right_iff.2
      (hargs.imp fun _ _ hab => renameArg_beq r hab))
  all_goals first
    | exact renameArg_beq r h
    | simp [Expr.beq] at h

/-- The renaming of a node built from arguments is the node of the renamed arguments. -/
theorem renameRhs_node (r : Nat → Nat) (t : NodeTag) (op : Op) (xs : List Expr) :
    renameRhs r (Expr.node t op xs) = Expr.node .anon op (xs.map (renameArg r)) := rfl

theorem renameArg_elem (r : Nat → Nat) {j : Nat} (hj : j ≤ Variable.wordMax) :
    renameArg r (Expr.elem j) = Expr.elem (r j) := by
  simp [renameArg, Expr.elemIndex?_elem hj]

theorem renameArg_of_elemIndex?_none (r : Nat → Nat) {a : Expr} (h : a.elemIndex? = none) :
    renameArg r a = a := by
  simp [renameArg, h]

/-- Expanding an argument respects structural equality. -/
theorem expandArg_beq (B : Array Expr) {a b : Expr} (h : a.beq b = true) :
    (expandArg B a).beq (expandArg B b) = true := by
  unfold expandArg
  rw [Expr.elemIndex?_eq_of_beq h]
  split
  · rename_i j hj
    cases B[j]? with
    | some x => exact Expr.beq_self x
    | none => exact h
  · exact h

/-- Expanding a right-hand side respects structural equality. -/
theorem expandRhs_beq (B : Array Expr) {a b : Expr} (h : a.beq b = true) :
    (expandRhs B a).beq (expandRhs B b) = true := by
  cases a <;> cases b
  case func.func t op xs hh t' op' ys hh' =>
    obtain ⟨-, rfl, hargs⟩ := Expr.func_beq_func.1 h
    refine Expr.node_beq_node _ _ _ ?_
    exact List.forall₂_map_left_iff.2 (List.forall₂_map_right_iff.2
      (hargs.imp fun _ _ hab => expandArg_beq B hab))
  all_goals first
    | exact expandArg_beq B h
    | simp [Expr.beq] at h

/-- A renamed argument stays an argument of the entry `k` when every reference lands
before `k`. -/
theorem ArgOk.rename {r : Nat → Nat} {i k : Nat} {a : Expr} (h : ArgOk i a)
    (hk : k ≤ Variable.wordMax + 1) (hr : ∀ j, a.elemIndex? = some j → r j < k) :
    ArgOk k (renameArg r a) := by
  rcases h with ⟨j, hj, -⟩ | ⟨hnone, hnum⟩
  · have hjk := hr j hj
    have hre : renameArg r a = Expr.elem (r j) := by simp [renameArg, hj]
    rw [hre]
    exact Or.inl ⟨r j, Expr.elemIndex?_elem (by omega), hjk⟩
  · rw [renameArg_of_elemIndex?_none r hnone]
    exact Or.inr ⟨hnone, hnum⟩

theorem renameRhs_of_op?_none (r : Nat → Nat) {e : Expr} (h : e.op? = none) :
    renameRhs r e = renameArg r e := by
  cases e with
  | func t op args hh => cases h
  | _ => rfl

theorem op?_renameArg (r : Nat → Nat) {a : Expr} (h : a.op? = none) :
    (renameArg r a).op? = none := by
  unfold renameArg
  split
  · rfl
  · exact h

theorem expandRhs_of_op?_none (B : Array Expr) {e : Expr} (h : e.op? = none) :
    expandRhs B e = expandArg B e := by
  cases e with
  | func t op args hh => cases h
  | _ => rfl

/-- An argument is no operator node, so it is renamed as an argument. -/
theorem ArgOk.renameRhs_eq {r : Nat → Nat} {i : Nat} {a : Expr} (h : ArgOk i a) :
    renameRhs r a = renameArg r a := by
  refine renameRhs_of_op?_none r ?_
  cases a with
  | func t op args hh =>
    rcases h with ⟨j, hj, -⟩ | ⟨-, hnum⟩
    · simp [Expr.elemIndex?] at hj
    · simp [Expr.isNumber] at hnum
  | _ => rfl

/-- A renamed right-hand side stays the right-hand side of a function entry `k` when every
reference lands before `k`. -/
theorem FunctionRhs.rename {r : Nat → Nat} {i k : Nat} {e : Entry} (h : FunctionRhs i e.rhs)
    (hk : k ≤ Variable.wordMax + 1) (hr : ∀ j ∈ e.refs, r j < k) :
    FunctionRhs k (renameRhs r e.rhs) := by
  cases hrhs : e.rhs with
  | time => trivial
  | func t op args hh =>
    rw [hrhs] at h
    simp only [renameRhs, Expr.node, FunctionRhs, List.mem_map]
    rintro _ ⟨a, ha, rfl⟩
    exact (h a ha).rename hk fun j hj => hr j ((mem_refs_iff hrhs).2 ⟨a, ha, hj⟩)
  | _ =>
    rw [hrhs] at h
    exact h.elim

/-- Renaming an argument and expanding it in `d'` gives what expanding it in `d` gives, when
the entry it names expands alike in both tables. -/
theorem expandArg_renameArg {d d' : Decomposition} (hwf : d.WellFormed) (hwf' : d'.WellFormed)
    (hfit' : d'.Fits) {r : Nat → Nat} {a : Expr}
    (h : ∀ j, a.elemIndex? = some j →
      j < d.size ∧ r j < d'.size ∧ (d'.expansion (r j)).beq (d.expansion j) = true) :
    (expandArg (expansions d'.entries) (renameArg r a)).beq
      (expandArg (expansions d.entries) a) = true := by
  cases ha : a.elemIndex? with
  | none =>
    rw [renameArg_of_elemIndex?_none r ha]
    simp only [expandArg, ha]
    exact Expr.beq_self a
  | some j =>
    obtain ⟨hj, hrj, hbeq⟩ := h j ha
    have hre : renameArg r a = Expr.elem (r j) := by simp [renameArg, ha]
    have hold : expandArg (expansions d.entries) a = d.expansion j := by
      simp [expandArg, ha, hwf.expansion_eq hj]
    unfold Fits at hfit'
    rw [hre, hwf'.expandArg_elem hrj (by omega), hold]
    exact hbeq

/-- Renaming a right-hand side and expanding it in `d'` gives what expanding it in `d` gives,
when every entry it refers to expands alike in both tables. -/
theorem expandRhs_renameRhs {d d' : Decomposition} (hwf : d.WellFormed)
    (hwf' : d'.WellFormed) (hfit' : d'.Fits) {r : Nat → Nat} {e : Entry}
    (h : ∀ j ∈ e.refs,
      j < d.size ∧ r j < d'.size ∧ (d'.expansion (r j)).beq (d.expansion j) = true) :
    (expandRhs (expansions d'.entries) (renameRhs r e.rhs)).beq
      (expandRhs (expansions d.entries) e.rhs) = true := by
  cases hrhs : e.rhs with
  | func t op args hh =>
    simp only [renameRhs, Expr.node, expandRhs, List.map_map]
    refine Expr.node_beq_node _ _ _ ?_
    refine List.forall₂_map_left_iff.2 (List.forall₂_map_right_iff.2 (List.forall₂_same.2 ?_))
    intro a ha
    exact expandArg_renameArg hwf hwf' hfit' fun j hj => h j ((mem_refs_iff hrhs).2 ⟨a, ha, hj⟩)
  | _ =>
    rw [renameRhs_of_op?_none r rfl, expandRhs_of_op?_none _ (op?_renameArg r rfl),
      expandRhs_of_op?_none _ rfl]
    exact expandArg_renameArg hwf hwf' hfit' fun j hj =>
      h j (mem_refs_of_elemIndex? (by rw [hrhs]; exact hj))

/-- The table `d'` renumbers the table `d` through `r`. The function entries of `d` that
survive are `keep`; each lands on a function entry of `d'` structurally equal to its
renaming. Each function entry `k` of `d'` is the renaming of a surviving entry that lands on
`k`, hidden dependencies included, and that entry's references land before `k`. The prefix
stays in place and the outputs are renamed in place. -/
structure Renumbering (d d' : Decomposition) (r : Nat → Nat) (keep : Nat → Prop) : Prop where
  varNames_eq : d'.varNames = d.varNames
  params_eq : d'.params = d.params
  nOutputs_eq : d'.nOutputs = d.nOutputs
  size_le : d'.nPrefix + d'.nOutputs ≤ d'.size
  prefix_entry : ∀ i < d.nPrefix, d'.entry i = d.entry i
  prefix_map : ∀ i < d.nPrefix, r i = i
  output_rhs : ∀ m < d.nOutputs,
    (d'.entry (d'.functionsEnd + m)).rhs = renameRhs r (d.entry (d.functionsEnd + m)).rhs
  output_keep : ∀ m < d.nOutputs, ∀ j ∈ (d.entry (d.functionsEnd + m)).refs,
    d.nPrefix ≤ j → keep j
  keep_function : ∀ i, keep i → d.nPrefix ≤ i ∧ i < d.functionsEnd
  keep_map : ∀ i, keep i → d'.nPrefix ≤ r i ∧ r i < d'.functionsEnd
  keep_rhs : ∀ i, keep i → (d'.entry (r i)).rhs.beq (renameRhs r (d.entry i).rhs) = true
  keep_refs : ∀ i, keep i → ∀ j ∈ (d.entry i).refs, d.nPrefix ≤ j → keep j
  keep_hidden : ∀ i, keep i → ∀ h ∈ (d.entry i).hidden, keep h
  source : ∀ k, d'.nPrefix ≤ k → k < d'.functionsEnd → ∃ i, keep i ∧ r i = k ∧
    d'.entry k = { rhs := renameRhs r (d.entry i).rhs, hidden := (d.entry i).hidden.map r } ∧
    ∀ j ∈ (d.entry i).refs, r j < k

namespace Renumbering

variable {d d' : Decomposition} {r : Nat → Nat} {keep : Nat → Prop}

theorem nPrefix_eq (hr : Renumbering d d' r keep) : d'.nPrefix = d.nPrefix := by
  simp only [nPrefix, hr.varNames_eq, hr.params_eq]

theorem size_eq (hr : Renumbering d d' r keep) :
    d'.size = d'.functionsEnd + d'.nOutputs := by
  have := hr.size_le
  simp only [functionsEnd, size] at this ⊢
  omega

/-- A reference of a kept entry, or of an output, lands where the renamed table has it:
in the prefix, or on a function entry. -/
theorem map_lt_functionsEnd (hr : Renumbering d d' r keep) {j : Nat}
    (hj : j < d.nPrefix ∨ keep j) : r j < d'.functionsEnd := by
  rcases hj with hp | hk
  · have := hr.size_le
    have hnp := hr.nPrefix_eq
    rw [hr.prefix_map j hp]
    simp only [functionsEnd, size] at this ⊢
    omega
  · exact (hr.keep_map j hk).2

/-- The renaming of a kept entry matches the renamed node wherever the entry matched a node. -/
theorem rhsIs (hr : Renumbering d d' r keep) {h : Nat} {op : Op} {xs : List Expr}
    (hh : keep h) (his : d.RhsIs h op xs) : d'.RhsIs (r h) op (xs.map (renameArg r)) := by
  have hren := renameRhs_beq r his
  rw [renameRhs_node] at hren
  exact Expr.beq_trans _ _ _ (hr.keep_rhs h hh) hren

/-- An operator entry that a kept operator entry reads is kept too. -/
theorem keep_of_rhsIs_arg (hr : Renumbering d d' r keep) (hwf : d.WellFormed) {h s : Nat}
    {op op' : Op} {xs ys : List Expr} (hh : keep h) (his : d.RhsIs h op xs)
    (hmem : Expr.elem s ∈ xs) (hs : d.RhsIs s op' ys) : keep s := by
  obtain ⟨hlo, hhi⟩ := hr.keep_function h hh
  obtain ⟨t, args, hsh, hrhs, hargs⟩ := his.exists_func
  have hfun := hwf.function_entry h hlo hhi
  rw [hrhs] at hfun
  obtain ⟨a, ha, hab⟩ := hargs.exists_of_mem_right hmem
  -- the matching argument is no literal, so it names an earlier entry, which is `s`
  rcases hfun a ha with ⟨j, hj, -⟩ | ⟨-, hnum⟩
  · have hjs := hj
    rw [Expr.elemIndex?_eq_of_beq hab] at hjs
    obtain ⟨rfl, -⟩ := Expr.eq_of_elemIndex?_elem hjs
    exact hr.keep_refs h hh j ((mem_refs_iff hrhs).2 ⟨a, ha, hj⟩) (hwf.nPrefix_le_of_rhsIs hs)
  · rw [Expr.isNumber_eq_of_beq hab] at hnum
    cases hnum

/-- A kept entry has an elementary name, renamed to that of its new position. -/
theorem renameArg_elem_of_keep (hr : Renumbering d d' r keep) (hfit : d.Fits) {j : Nat}
    (hj : keep j) : renameArg r (Expr.elem j) = Expr.elem (r j) := by
  have := (hr.keep_function j hj).2
  have := WellFormed.functionsEnd_le_size d
  unfold Fits at hfit
  exact renameArg_elem r (by omega)

/-- The hidden dependencies of a kept entry, renamed, have the shape the renamed entry's
recurrence assumes. The auxiliary entries behind `asin`, `acos` and `atan2` are reached
through the references of the hidden one, so they are kept too. -/
theorem hiddenOk (hr : Renumbering d d' r keep) (hwf : d.WellFormed) (hfit : d.Fits)
    {i : Nat} (hi : keep i) {args : List Expr} {op : Op}
    (hok : d.HiddenOk i args op (d.entry i).hidden) :
    d'.HiddenOk (r i) (args.map (renameArg r)) op ((d.entry i).hidden.map r) := by
  have hkh := hr.keep_hidden i hi
  have hget (n : Nat) :
      (args.map (renameArg r)).getD n Expr.zero = renameArg r (args.getD n Expr.zero) := by
    rw [← List.getD_map args Expr.zero (renameArg r)]
    rfl
  generalize (d.entry i).hidden = hs at hok hkh
  cases op <;> simp only [HiddenOk] at hok ⊢
  case sin | cos | sinh | cosh =>
    obtain ⟨h, rfl, his⟩ := hok
    exact ⟨r h, rfl, hr.rhsIs (hkh h (by simp)) his⟩
  case tan | tanh =>
    obtain ⟨h, rfl, his⟩ := hok
    have hsq := hr.rhsIs (hkh h (by simp)) his
    rw [List.map_singleton, hr.renameArg_elem_of_keep hfit hi] at hsq
    exact ⟨r h, rfl, hsq⟩
  case atan =>
    obtain ⟨h, rfl, his⟩ := hok
    have hsq := hr.rhsIs (hkh h (by simp)) his
    rw [List.map_singleton, ← hget] at hsq
    exact ⟨r h, rfl, hsq⟩
  case asin | acos =>
    obtain ⟨root, s, g, q, rfl, hroot, hs, hg, hq⟩ := hok
    have kroot := hkh root (by simp)
    have ks := hr.keep_of_rhsIs_arg hwf kroot hroot (by simp) hs
    have kg := hr.keep_of_rhsIs_arg hwf ks hs (by simp) hg
    have kq := hr.keep_of_rhsIs_arg hwf kg hg (by simp) hq
    refine ⟨r root, r s, r g, r q, rfl, ?_, ?_, ?_, ?_⟩
    · have h' := hr.rhsIs kroot hroot
      rwa [List.map_singleton, hr.renameArg_elem_of_keep hfit ks] at h'
    · have h' := hr.rhsIs ks hs
      rwa [List.map_cons, List.map_singleton, hr.renameArg_elem_of_keep hfit kg,
        renameArg_of_elemIndex?_none r rfl] at h'
    · have h' := hr.rhsIs kg hg
      rwa [List.map_singleton, hr.renameArg_elem_of_keep hfit kq] at h'
    · have h' := hr.rhsIs kq hq
      rwa [List.map_singleton, ← hget] at h'
  case atan2 =>
    obtain ⟨h, a, b, rfl, hsum, ha, hb⟩ := hok
    have kh := hkh h (by simp)
    have ka := hr.keep_of_rhsIs_arg hwf kh hsum (by simp) ha
    have kb := hr.keep_of_rhsIs_arg hwf kh hsum (by simp) hb
    refine ⟨r h, r a, r b, rfl, ?_, ?_, ?_⟩
    · have h' := hr.rhsIs kh hsum
      rwa [List.map_cons, List.map_singleton, hr.renameArg_elem_of_keep hfit ka,
        hr.renameArg_elem_of_keep hfit kb] at h'
    · have h' := hr.rhsIs ka ha
      rwa [List.map_singleton, ← hget] at h'
    · have h' := hr.rhsIs kb hb
      rwa [List.map_singleton, ← hget] at h'
  case kepE =>
    obtain ⟨s, c, rfl, hsin, hcos⟩ := hok
    have hs' := hr.rhsIs (hkh s (by simp)) hsin
    have hc' := hr.rhsIs (hkh c (by simp)) hcos
    rw [List.map_singleton, hr.renameArg_elem_of_keep hfit hi] at hs' hc'
    exact ⟨r s, r c, rfl, hs', hc'⟩
  all_goals
    subst hok
    rfl

/-- Renumbering keeps every hidden dependency in the shape its recurrence assumes. -/
theorem hiddenShape (hr : Renumbering d d' r keep) (hwf : d.WellFormed) (hfit : d.Fits)
    (hshape : d.HiddenShape) : d'.HiddenShape := by
  intro k hlo hhi
  obtain ⟨i, hkeep, hrk, hentry, -⟩ := hr.source k hlo hhi
  obtain ⟨hlo', hhi'⟩ := hr.keep_function i hkeep
  have hsh := hshape i hlo' hhi'
  have hfun := hwf.function_entry i hlo' hhi'
  unfold HiddenShapeAt at hsh ⊢
  rw [hentry]
  -- a function entry is the time, which has no hidden dependency, or an operator node
  cases hrhs : (d.entry i).rhs with
  | time =>
    rw [hrhs] at hsh
    simp [renameRhs, renameArg, Expr.elemIndex?, hsh]
  | func t op args hh =>
    rw [hrhs] at hsh
    have hok := hr.hiddenOk hwf hfit hkeep hsh
    rw [hrk] at hok
    exact hok
  | _ =>
    rw [hrhs] at hfun
    exact hfun.elim

/-- A renumbered table is well formed. Its hidden dependencies avoid their own entry because
they keep their shape, which names entries of other operators. -/
theorem wellFormed (hr : Renumbering d d' r keep) (hwf : d.WellFormed) (hfit : d.Fits)
    (hfit' : d'.Fits) (hshape : d.HiddenShape) : d'.WellFormed := by
  have hnp := hr.nPrefix_eq
  have hsize := hr.size_eq
  have hshape' := hr.hiddenShape hwf hfit hshape
  unfold Fits at hfit'
  refine ⟨hr.size_le, ?_, ?_, ?_, ?_, ?_, ?_⟩
  case refine_1 =>
    rw [hr.varNames_eq]
    exact hwf.plain_names
  case refine_2 =>
    intro k hk
    have hk' : k < d.varNames.length := by rwa [hr.varNames_eq] at hk
    rw [hr.prefix_entry k (by simp only [nPrefix]; omega), hwf.var_entry k hk']
    simp [hr.varNames_eq]
  case refine_3 =>
    intro k hk
    have hk' : k < d.params.length := by rwa [hr.params_eq] at hk
    rw [hr.varNames_eq, hr.prefix_entry _ (by simp only [nPrefix]; omega), hwf.param_entry k hk']
    simp [hr.params_eq]
  case refine_4 =>
    -- the source entry's references land before the new position
    intro k hlo hhi
    obtain ⟨i, hkeep, -, hentry, horder⟩ := hr.source k hlo hhi
    obtain ⟨hlo', hhi'⟩ := hr.keep_function i hkeep
    rw [hentry]
    exact FunctionRhs.rename (hwf.function_entry i hlo' hhi') (by omega) horder
  case refine_5 =>
    intro k hlo hhi h hmem
    have hne := (hshape' k hlo hhi).ne_self h hmem
    obtain ⟨i, hkeep, -, hentry, -⟩ := hr.source k hlo hhi
    rw [hentry] at hmem
    obtain ⟨h₀, hh₀, rfl⟩ := List.mem_map.1 hmem
    obtain ⟨h₁, h₂⟩ := hr.keep_map h₀ (hr.keep_hidden i hkeep h₀ hh₀)
    exact ⟨h₁, h₂, hne⟩
  case refine_6 =>
    -- an output names a prefix entry or a kept one, which land below the function end
    intro i hlo hhi
    obtain ⟨m, rfl⟩ : ∃ m, i = d'.functionsEnd + m := ⟨i - d'.functionsEnd, by omega⟩
    have hm : m < d.nOutputs := by rw [← hr.nOutputs_eq]; omega
    have hout := hwf.output_entry (d.functionsEnd + m) (by omega)
      (by rw [hwf.size_eq]; omega)
    rw [hr.output_rhs m hm, hout.renameRhs_eq]
    refine hout.rename (by omega) fun j hj => hr.map_lt_functionsEnd ?_
    by_cases hp : j < d.nPrefix
    · exact Or.inl hp
    · exact Or.inr (hr.output_keep m hm j (mem_refs_of_elemIndex? hj) (by omega))

/-- The prefix and the kept entries sit inside both tables. -/
theorem lt_size (hr : Renumbering d d' r keep) (hwf : d.WellFormed) {j : Nat}
    (hj : j < d.nPrefix ∨ keep j) : j < d.size ∧ r j < d'.size := by
  have hrj := hr.map_lt_functionsEnd hj
  have := WellFormed.functionsEnd_le_size d
  have := WellFormed.functionsEnd_le_size d'
  have hjf : j < d.functionsEnd := by
    rcases hj with hp | hk
    · exact Nat.lt_of_lt_of_le hp hwf.nPrefix_le_functionsEnd
    · exact (hr.keep_function j hk).2
  omega

/-- The prefix and the kept entries expand, after renumbering, to what they expanded to. -/
theorem expansion_beq (hr : Renumbering d d' r keep) (hwf : d.WellFormed)
    (hwf' : d'.WellFormed) (hfit' : d'.Fits) :
    ∀ i, (i < d.nPrefix ∨ keep i) → (d'.expansion (r i)).beq (d.expansion i) = true := by
  intro i
  induction i using Nat.strongRecOn with
  | ind i ih =>
  rintro (hp | hk)
  · -- a prefix entry stays in place and expands to itself
    have hp' : i < d'.nPrefix := by rw [hr.nPrefix_eq]; exact hp
    rw [hr.prefix_map i hp, hwf'.expansion_prefix hp', hwf.expansion_prefix hp,
      hr.prefix_entry i hp]
    exact Expr.beq_self _
  · -- a kept entry lands on its renaming, whose references expand alike by induction
    obtain ⟨hlo, hhi⟩ := hr.keep_function i hk
    have hbelow := (hwf.function_entry i hlo hhi).refsBelow
    refine Expr.beq_trans _ _ _ (expandRhs_beq _ (hr.keep_rhs i hk)) ?_
    refine expandRhs_renameRhs hwf hwf' hfit' fun j hj => ?_
    have hji : j < i := hbelow.lt_of_mem_refs hj
    have hjk : j < d.nPrefix ∨ keep j := by
      by_cases hp : j < d.nPrefix
      · exact Or.inl hp
      · exact Or.inr (hr.keep_refs i hk j hj (by omega))
    exact ⟨(hr.lt_size hwf hjk).1, (hr.lt_size hwf hjk).2, ih j hji hjk⟩

/-- A renumbered table reconstructs the same expressions. -/
theorem reconstruct (hr : Renumbering d d' r keep) (hwf : d.WellFormed) (hfit : d.Fits)
    (hfit' : d'.Fits) (hshape : d.HiddenShape) : Expr.ArgsEq d'.reconstruct d.reconstruct := by
  have hwf' := hr.wellFormed hwf hfit hfit' hshape
  rw [hwf'.reconstruct_eq_map, hwf.reconstruct_eq_map, hr.nOutputs_eq]
  refine List.forall₂_map_left_iff.2 (List.forall₂_map_right_iff.2 (List.forall₂_same.2 ?_))
  intro m hm
  have hm' : m < d.nOutputs := List.mem_range.1 hm
  have hi : d.functionsEnd + m < d.size := by rw [hwf.size_eq]; omega
  have hbelow := hwf.refsBelow hi
  unfold expansion
  rw [hr.output_rhs m hm']
  -- an output names a prefix entry or a kept one
  refine expandRhs_renameRhs hwf hwf' hfit' fun j hj => ?_
  have hjk : j < d.nPrefix ∨ keep j := by
    by_cases hp : j < d.nPrefix
    · exact Or.inl hp
    · exact Or.inr (hr.output_keep m hm' j hj (by omega))
  exact ⟨(hr.lt_size hwf hjk).1, (hr.lt_size hwf hjk).2, hr.expansion_beq hwf hwf' hfit' j hjk⟩

end Renumbering

end Decomposition

end TaylorOde
