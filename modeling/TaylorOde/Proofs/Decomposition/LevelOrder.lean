import TaylorOde.Proofs.Decomposition.Pipeline
import TaylorOde.Proofs.Expr.Order
/-!
# Reordered tables are sorted by level and by key

`reorder` walks the levels upward and places the function entries of each level sorted by
their keys: the operator rank, then the arguments from the left, a reference by the position
already given to the entry it names and a literal by its bits. Main statement:
`reorder_sorts_levels`, every decomposition built with `reorder` set has levels that never
decrease over its function range, and within a level keys that never decrease, keys read in
the table itself.

* The order of keys is a total preorder (`ArgKey.cmpChain`, `ArgKey.cmpList_chain`), so each
  level's group comes out of the sort sorted (`pairwise_levelGroup`).
* A key reads positions only at references (`reorderKey_congr`). The references of a level sit
  at lower levels, placed before the level is sorted, and placing the level and everything
  after leaves them, so the keys the sort saw are the keys at the end (`keysSorted_outputWalk`).
* The new table gives each function entry the level it had (`ReorderWalk.levelOf_reorder`) and
  the key it was sorted by (`ReorderWalk.entryKey_reorder`).
-/

namespace TaylorOde

namespace Decomposition

variable {d : Decomposition}

/-! ## The order of keys -/

namespace ArgKey

theorem cmp_swap (a b : ArgKey) : b.cmp a = (a.cmp b).swap := by
  cases a <;> cases b <;> first | rfl | exact Std.OrientedOrd.eq_swap

theorem cmpChain (a b c : ArgKey) : CmpChain (a.cmp b) (b.cmp c) (a.cmp c) := by
  cases a <;> cases b <;> cases c
  all_goals first
    | exact CmpChain.of_compare _ _ _
    | exact CmpChain.of_left nofun
    | exact CmpChain.of_right nofun
    | exact CmpChain.of_lt_gt _
    | exact CmpChain.of_gt_lt _

theorem cmpList_cons (a b : ArgKey) (as bs : List ArgKey) :
    cmpList (a :: as) (b :: bs) = (a.cmp b).then (cmpList as bs) := by
  simp only [cmpList]
  cases a.cmp b <;> rfl

theorem cmpList_swap : ∀ as bs : List ArgKey, cmpList bs as = (cmpList as bs).swap
  | [], [] => rfl
  | [], _ :: _ => rfl
  | _ :: _, [] => rfl
  | a :: as, b :: bs => by
    rw [cmpList_cons, cmpList_cons, cmp_swap a b, cmpList_swap as bs, Ordering.swap_then]

/-- Lists of keys compare consistently: a proper prefix comes first, and otherwise the first
keys that differ decide. -/
theorem cmpList_chain : ∀ as bs cs : List ArgKey,
    CmpChain (cmpList as bs) (cmpList bs cs) (cmpList as cs)
  | [], [], [] => ⟨fun _ => rfl, fun _ => rfl, nofun, nofun⟩
  | [], [], _ :: _ => ⟨fun _ => rfl, nofun, nofun, nofun⟩
  | [], _ :: _, [] => CmpChain.of_lt_gt _
  | [], _ :: _, _ :: _ => CmpChain.of_left nofun
  | _ :: _, [], [] => CmpChain.of_left nofun
  | _ :: _, [], _ :: _ => CmpChain.of_gt_lt _
  | _ :: _, _ :: _, [] => CmpChain.of_right nofun
  | a :: as, b :: bs, c :: cs => by
    rw [cmpList_cons, cmpList_cons, cmpList_cons]
    exact (cmpChain a b c).lex fun _ _ => cmpList_chain as bs cs

instance : Std.OrientedCmp cmpList where
  eq_swap {a b} := cmpList_swap b a

instance : Std.TransCmp cmpList where
  isLE_trans {a b c} hab hbc := by
    have h := cmpList_chain a b c
    cases hab' : cmpList a b <;> cases hbc' : cmpList b c <;> simp_all [h.lt, h.eq_left, h.eq_right]

end ArgKey

/-- The order `reorder` sorts the entries of a level by: the operator rank first, then the
argument keys. -/
def KeyLe (k k' : Nat × List ArgKey) : Prop :=
  k.1 < k'.1 ∨ (k.1 = k'.1 ∧ ArgKey.cmpList k.2 k'.2 ≠ .gt)

theorem reorderLe_iff {a b : (Nat × List ArgKey) × Nat} :
    reorderLe a b = true ↔ KeyLe a.1 b.1 := by
  simp [reorderLe, KeyLe]

theorem KeyLe.trans {k₁ k₂ k₃ : Nat × List ArgKey} (h₁ : KeyLe k₁ k₂) (h₂ : KeyLe k₂ k₃) :
    KeyLe k₁ k₃ := by
  rcases h₁ with h₁ | ⟨h₁, h₁'⟩ <;> rcases h₂ with h₂ | ⟨h₂, h₂'⟩
  · exact .inl (Nat.lt_trans h₁ h₂)
  · exact .inl (h₂ ▸ h₁)
  · exact .inl (h₁ ▸ h₂)
  · refine .inr ⟨h₁.trans h₂, Ordering.isLE_iff_ne_gt.1 ?_⟩
    exact Std.TransCmp.isLE_trans (Ordering.isLE_iff_ne_gt.2 h₁') (Ordering.isLE_iff_ne_gt.2 h₂')

theorem KeyLe.total (k k' : Nat × List ArgKey) : KeyLe k k' ∨ KeyLe k' k := by
  rcases Nat.lt_trichotomy k.1 k'.1 with h | h | h
  · exact .inl (.inl h)
  · by_cases hc : ArgKey.cmpList k.2 k'.2 = .gt
    · refine .inr (.inr ⟨h.symm, ?_⟩)
      rw [ArgKey.cmpList_swap k.2 k'.2, hc]
      decide
    · exact .inl (.inr ⟨h, hc⟩)
  · exact .inr (.inl h)

theorem pairwise_mergeSort_reorderLe (l : List ((Nat × List ArgKey) × Nat)) :
    (l.mergeSort reorderLe).Pairwise fun a b => reorderLe a b = true :=
  @List.pairwise_mergeSort _ reorderLe
    (fun _ _ _ hab hbc => reorderLe_iff.2 ((reorderLe_iff.1 hab).trans (reorderLe_iff.1 hbc)))
    (fun a b => by rcases KeyLe.total a.1 b.1 with h | h <;> simp [reorderLe_iff.2 h]) l

/-- Each level's group comes out of the sort in the order of its keys, references read through
the positions it was sorted with. -/
theorem pairwise_levelGroup (d : Decomposition) (remap : Array Nat) (ℓ : Nat) :
    (d.levelGroup remap ℓ).Pairwise fun a b =>
      KeyLe (d.reorderKey remap a) (d.reorderKey remap b) := by
  unfold levelGroup
  -- every keyed entry carries its own key
  have hkey : ∀ p ∈ ((d.functions.filter fun i => d.levels[i]?.getD 0 == ℓ).map fun i =>
      (d.reorderKey remap i, i)).mergeSort reorderLe, p.1 = d.reorderKey remap p.2 := by
    intro p hp
    obtain ⟨i, -, rfl⟩ := List.mem_map.1 (List.mem_mergeSort.1 hp)
    rfl
  refine List.pairwise_map.2 ((pairwise_mergeSort_reorderLe _).imp_of_mem fun hp hq h => ?_)
  rw [← hkey _ hp, ← hkey _ hq]
  exact reorderLe_iff.1 h

/-! ## Keys while the levels are placed -/

/-- A key reads the positions only at the references of the entry. -/
theorem reorderKey_congr {remap remap' : Array Nat} {i : Nat}
    (h : ∀ j ∈ (d.entry i).refs, remap[j]?.getD 0 = remap'[j]?.getD 0) :
    d.reorderKey remap i = d.reorderKey remap' i := by
  cases hrhs : (d.entry i).rhs with
  | func t op args hh =>
    simp only [reorderKey, hrhs]
    congr 1
    refine List.map_congr_left fun a ha => ?_
    cases hj : a.elemIndex? with
    | some j => simp only [h j ((mem_refs_iff hrhs).2 ⟨a, ha, hj⟩)]
    | none => cases a <;> rfl
  | _ => simp only [reorderKey, hrhs]

/-- After some levels: within a level, the function entries placed so far come in the order of
their keys, references read through the positions recorded. -/
def KeysSorted (d : Decomposition) (acc : Array Nat × Array Nat) : Prop :=
  (acc.2.toList.drop d.nPrefix).Pairwise fun a b =>
    d.levelOf a = d.levelOf b → KeyLe (d.reorderKey acc.1 a) (d.reorderKey acc.1 b)

/-- Placing the entries of one level moves no reference of an entry at or below that level:
the references sit lower. -/
theorem not_mem_levelGroup_of_ref (hwf : d.WellFormed) {remap : Array Nat} {ℓ x j : Nat}
    (hlo : d.nPrefix ≤ x) (hhi : x < d.functionsEnd) (hx : d.levelOf x ≤ ℓ)
    (hj : j ∈ (d.entry x).refs) : j ∉ d.levelGroup remap ℓ := by
  intro hG
  have hjl := (mem_levelGroup.1 hG).2.2
  have := levels_lt_of_ref hwf hlo hhi hj
  unfold levelOf at hx hjl
  omega

/-- One level: its group, sorted by keys read through the positions of the lower levels, is
placed after them, and the keys placed before do not change. -/
theorem KeysSorted.step (hwf : d.WellFormed) {ℓ : Nat} {acc : Array Nat × Array Nat}
    {M : List Nat} (hinv : OrderInv d ℓ acc M) (hkeys : KeysSorted d acc) :
    KeysSorted d (d.reorderLevel d.levels acc ℓ) := by
  have hfe := WellFormed.functionsEnd_le_size d
  let G := d.levelGroup acc.1 ℓ
  obtain ⟨horder, -, hother, -⟩ := foldl_place G acc (levelGroup_nodup acc.1 ℓ) fun x hx => by
    rw [hinv.remap_size]
    have := mem_levelGroup.1 hx
    omega
  have hM : acc.2.toList.drop d.nPrefix = M := by
    rw [hinv.order_eq, List.drop_left' (by simp)]
  have hkey : ∀ x, d.nPrefix ≤ x → x < d.functionsEnd → d.levelOf x ≤ ℓ →
      d.reorderKey (G.foldl place acc).1 x = d.reorderKey acc.1 x := fun x hlo hhi hx =>
    reorderKey_congr fun j hj => by rw [hother j (not_mem_levelGroup_of_ref hwf hlo hhi hx hj)]
  unfold KeysSorted at hkeys ⊢
  rw [reorderLevel_eq, horder, List.drop_append_of_le_length (by rw [hinv.order_eq]; simp), hM]
  rw [hM] at hkeys
  refine List.pairwise_append.2 ⟨hkeys.imp_of_mem fun ha hb h heq => ?_,
    (pairwise_levelGroup d acc.1 ℓ).imp_of_mem fun ha hb h _ => ?_, fun a ha b hb heq => ?_⟩
  · -- lower levels: their keys stay
    obtain ⟨ha₁, ha₂, ha₃⟩ := (hinv.mem_iff _).1 ha
    obtain ⟨hb₁, hb₂, hb₃⟩ := (hinv.mem_iff _).1 hb
    rw [hkey _ ha₁ ha₂ (by omega), hkey _ hb₁ hb₂ (by omega)]
    exact h heq
  · -- this level: sorted by the keys it keeps
    obtain ⟨ha₁, ha₂, ha₃⟩ := mem_levelGroup.1 ha
    obtain ⟨hb₁, hb₂, hb₃⟩ := mem_levelGroup.1 hb
    rw [hkey _ ha₁ ha₂ (by omega), hkey _ hb₁ hb₂ (by omega)]
    exact h
  · -- a lower level against this one: no two of one level
    have := ((hinv.mem_iff a).1 ha).2.2
    have := (mem_levelGroup.1 hb).2.2
    omega

theorem keysSorted_levelWalk (hwf : d.WellFormed) : ∀ ℓ, KeysSorted d (d.levelWalk ℓ)
  | 0 => by
    simp only [KeysSorted, levelWalk, List.range_zero, List.foldl_nil, Array.toList_range]
    rw [List.drop_eq_nil_of_le (by simp)]
    exact .nil
  | ℓ + 1 => by
    obtain ⟨M, hM⟩ := orderInv_levelWalk (d := d) ℓ
    rw [levelWalk_succ]
    exact KeysSorted.step hwf hM (keysSorted_levelWalk hwf ℓ)

/-- At the end of the walk the function entries, keys read through their final positions, come
in the order of their keys within each level. -/
theorem keysSorted_outputWalk (hwf : d.WellFormed) {M : List Nat}
    (hM : OrderInv d (d.maxLevel + 1) (d.levelWalk (d.maxLevel + 1)) M) :
    M.Pairwise fun a b => d.levelOf a = d.levelOf b →
      KeyLe (d.reorderKey d.outputWalk.1 a) (d.reorderKey d.outputWalk.1 b) := by
  have hfe := WellFormed.functionsEnd_le_size d
  obtain ⟨-, -, hother, -⟩ := foldl_place ((List.range d.size).drop d.functionsEnd) _
    (List.nodup_range.sublist (List.drop_sublist _ _)) fun x hx => by
      rw [hM.remap_size]
      exact List.mem_range.1 ((List.drop_sublist _ _).subset hx)
  -- the outputs are no references of function entries
  have hkey : ∀ x ∈ M,
      d.reorderKey d.outputWalk.1 x = d.reorderKey (d.levelWalk (d.maxLevel + 1)).1 x :=
    fun x hx => reorderKey_congr fun j hj => by
      obtain ⟨hlo, hhi, -⟩ := (hM.mem_iff x).1 hx
      have hjx := (hwf.refsBelow (show x < d.size by omega)).lt_of_mem_refs hj
      rw [outputWalk, hother j fun h => by have := mem_drop_range.1 h; omega]
  have hkeys := keysSorted_levelWalk hwf (d.maxLevel + 1)
  unfold KeysSorted at hkeys
  rw [hM.order_eq, List.drop_left' (by simp)] at hkeys
  exact hkeys.imp_of_mem fun ha hb h heq => by
    rw [hkey _ ha, hkey _ hb]
    exact h heq

/-! ## The reordered table -/

/-- An entry outside the function range keeps level zero: `levels` sets function entries only. -/
theorem levelOf_of_not_mem_functions {i : Nat} (hi : i ∉ d.functions) : d.levelOf i = 0 := by
  have hset : ∀ (l : List Nat) (lv : Array Nat), i ∉ l →
      (l.foldl (fun lv k => lv.set! k (d.deepestRef lv k + 1)) lv)[i]? = lv[i]? := by
    intro l
    induction l with
    | nil => exact fun _ _ => rfl
    | cons k l ih =>
      intro lv hk
      rw [List.foldl_cons, ih _ fun h => hk (List.mem_cons_of_mem _ h),
        Array.set!_eq_setIfInBounds,
        Array.getElem?_setIfInBounds_ne fun h => hk (by subst h; exact List.mem_cons_self)]
  unfold levelOf levels
  rw [hset _ _ hi, Array.getElem?_replicate]
  split <;> rfl

theorem elemIndex?_renameArg {r : Nat → Nat} {a : Expr}
    (hr : ∀ j, a.elemIndex? = some j → r j ≤ Variable.wordMax) :
    (renameArg r a).elemIndex? = a.elemIndex?.map r := by
  cases hj : a.elemIndex? with
  | none => rw [renameArg_of_elemIndex?_none r hj, hj, Option.map_none]
  | some j => simp [renameArg, hj, Expr.elemIndex?_elem (hr j hj)]

theorem refs_of_op?_none {e : Entry} (h : e.rhs.op? = none) :
    e.refs = e.rhs.elemIndex?.toList := by
  unfold Entry.refs
  split
  · rename_i hrhs
    rw [hrhs] at h
    cases h
  · rfl

/-- The references of a renamed right-hand side are the renamed references, when these stay
elementary indices. -/
theorem refs_renamed {e e' : Entry} {r : Nat → Nat} (he : e'.rhs = renameRhs r e.rhs)
    (hr : ∀ j ∈ e.refs, r j ≤ Variable.wordMax) : e'.refs = e.refs.map r := by
  cases hrhs : e.rhs with
  | func t op args hh =>
    rw [hrhs, renameRhs] at he
    simp only [Entry.refs, he, hrhs, Expr.node, List.filterMap_map, List.map_filterMap]
    exact List.filterMap_congr fun a ha =>
      elemIndex?_renameArg fun j hj => hr j ((mem_refs_iff hrhs).2 ⟨a, ha, hj⟩)
  | _ =>
    have hop : e.rhs.op? = none := by rw [hrhs]; rfl
    rw [renameRhs_of_op?_none r hop] at he
    rw [refs_of_op?_none hop, refs_of_op?_none (by rw [he]; exact op?_renameArg r hop), he,
      elemIndex?_renameArg fun j hj => hr j (mem_refs_of_elemIndex? hj), Option.toList_map]

/-- A reordered table in shape gives every function entry the level it had: by induction on the
new position, as every reference is placed earlier and keeps its level. -/
theorem ReorderWalk.levelOf_reorder {M : List Nat} {remap order : Array Nat}
    (hw : ReorderWalk d M remap order) (hwf : d.WellFormed) (hwf' : d.reorder.WellFormed)
    (hfit : d.Fits) :
    ∀ k (hk : k < M.length), d.reorder.levelOf (d.nPrefix + k) = d.levelOf M[k] := by
  have hnp := hwf.nPrefix_le_functionsEnd
  have hend := hw.functionsEnd_eq hnp
  have hfe := WellFormed.functionsEnd_le_size d
  have hnp' : d.reorder.nPrefix = d.nPrefix := rfl
  have hlen := hw.length_eq
  unfold Fits at hfit
  intro k
  induction k using Nat.strong_induction_on with
  | _ k ih =>
    intro hk
    have hi := (hw.mem_iff _).1 (List.getElem_mem hk)
    have hent := hw.entry_of_order (hw.order_placed hk)
    rw [if_neg (by omega)] at hent
    have hbelow : ∀ j ∈ (d.entry M[k]).refs, j < M[k] :=
      fun j hj => (hwf.refsBelow (show M[k] < d.size by omega)).lt_of_mem_refs hj
    have hrefs : (d.reorder.entry (d.nPrefix + k)).refs = (d.entry M[k]).refs.map (posOf remap) :=
      refs_renamed (by rw [hent]) fun j hj => by
        have := hw.posOf_lt hnp (Nat.lt_trans (hbelow j hj) hi.2)
        omega
    -- a reference keeps its level: the prefix stays at zero, a function entry sits earlier
    have hlev : ∀ j ∈ (d.entry M[k]).refs, d.reorder.levelOf (posOf remap j) = d.levelOf j := by
      intro j hj
      have hjk := hbelow j hj
      by_cases hjp : j < d.nPrefix
      · rw [hw.pos_prefix j hjp,
          levelOf_of_not_mem_functions fun h => by have := mem_functions.1 h; omega,
          levelOf_of_not_mem_functions fun h => by have := mem_functions.1 h; omega]
      · obtain ⟨k', hk', rfl⟩ := List.getElem_of_mem ((hw.mem_iff j).2 ⟨by omega, by omega⟩)
        have hlt := hw.lt_of_levelOf_lt hk' hk (levels_lt_of_ref hwf hi.1 hi.2 hj)
        rw [hw.pos_placed k' hk', ih k' hlt hk']
    unfold levelOf
    rw [levels_eq hwf' (by omega) (by omega), levels_eq hwf hi.1 hi.2, Option.getD_some,
      Option.getD_some, deepestRef, deepestRef, hrefs, List.foldl_map]
    exact congrArg (· + 1) (foldl_max_congr hlev 0)

/-- The key of an entry with its references read as they stand: in a table already in the order
of `reorder`, the key it sorts by. -/
def entryKey (d : Decomposition) (i : Nat) : Nat × List ArgKey :=
  d.reorderKey (Array.range d.size) i

/-- An entry without an operator has rank zero and no argument keys. -/
theorem reorderKey_of_op?_none {remap : Array Nat} {i : Nat} (h : (d.entry i).rhs.op? = none) :
    d.reorderKey remap i = (0, []) := by
  unfold reorderKey
  simp only [Entry.op?, h]
  split
  · rename_i hrhs
    rw [hrhs] at h
    cases h
  · rfl

/-- The key of a renamed right-hand side, references read as they stand, is the key of the
original, references read through the renaming. -/
theorem reorderKey_renamed {d' : Decomposition} {i i' : Nat} {remap : Array Nat}
    (he : (d'.entry i').rhs = renameRhs (posOf remap) (d.entry i).rhs)
    (hr : ∀ j ∈ (d.entry i).refs, posOf remap j ≤ Variable.wordMax ∧ posOf remap j < d'.size) :
    d'.entryKey i' = d.reorderKey remap i := by
  cases hrhs : (d.entry i).rhs with
  | func t op args hh =>
    rw [hrhs, renameRhs] at he
    simp only [entryKey, reorderKey, Entry.op?, he, hrhs, Expr.node, Expr.op?, List.map_map]
    congr 1
    refine List.map_congr_left fun a ha => ?_
    simp only [Function.comp]
    cases hj : a.elemIndex? with
    | none =>
      rw [renameArg_of_elemIndex?_none _ hj, hj]
      cases a <;> rfl
    | some j =>
      obtain ⟨hw, hlt⟩ := hr j ((mem_refs_iff hrhs).2 ⟨a, ha, hj⟩)
      have hren : renameArg (posOf remap) a = Expr.elem (posOf remap j) := by simp [renameArg, hj]
      rw [hren, Expr.elemIndex?_elem hw]
      simp only [Array.getElem?_range, hlt, if_true, Option.getD_some]
      rfl
  | _ =>
    have hop : (d.entry i).rhs.op? = none := by rw [hrhs]; rfl
    rw [renameRhs_of_op?_none _ hop] at he
    rw [entryKey, reorderKey_of_op?_none hop,
      reorderKey_of_op?_none (by rw [he]; exact op?_renameArg _ hop)]

/-- Each function entry of the reordered table has, references read as they stand, the key it
was sorted by. -/
theorem ReorderWalk.entryKey_reorder {M : List Nat} {remap order : Array Nat}
    (hw : ReorderWalk d M remap order) (hwf : d.WellFormed) (hfit : d.Fits) {k : Nat}
    (hk : k < M.length) : d.reorder.entryKey (d.nPrefix + k) = d.reorderKey remap M[k] := by
  have hnp := hwf.nPrefix_le_functionsEnd
  have hfe := WellFormed.functionsEnd_le_size d
  have hi := (hw.mem_iff _).1 (List.getElem_mem hk)
  have hent := hw.entry_of_order (hw.order_placed hk)
  rw [if_neg (by omega)] at hent
  refine reorderKey_renamed (by rw [hent]) fun j hj => ?_
  have hj' := (hwf.refsBelow (show M[k] < d.size by omega)).lt_of_mem_refs hj
  have := hw.posOf_lt hnp (Nat.lt_trans hj' hi.2)
  rw [hw.size_eq hnp]
  unfold Fits at hfit
  omega

/-- A table sorted as `reorder` leaves it: over the function range the levels never decrease,
and within a level the keys, references read as they stand, never decrease. -/
structure LevelsSorted (d : Decomposition) : Prop where
  levels : ∀ i j, d.nPrefix ≤ i → i < j → j < d.functionsEnd → d.levelOf i ≤ d.levelOf j
  keys : ∀ i j, d.nPrefix ≤ i → i < j → j < d.functionsEnd → d.levelOf i = d.levelOf j →
    KeyLe (d.entryKey i) (d.entryKey j)

/-- `reorder` sorts a table that decomposes expressions by level and, within a level, by key. -/
theorem Decomposes.levelsSorted_reorder {names : List String} {prepared : List Expr}
    (h : Decomposes names prepared d) : d.reorder.LevelsSorted := by
  have hwf := h.wellFormed
  have hnp := hwf.nPrefix_le_functionsEnd
  obtain ⟨M, hM⟩ := orderInv_levelWalk (d := d) (d.maxLevel + 1)
  have hw := reorderWalk_outputWalk hnp hM
  have hlev := hw.levelOf_reorder hwf h.reorder.wellFormed h.fits
  have hkeys := keysSorted_outputWalk hwf hM
  have hend := hw.functionsEnd_eq hnp
  have hlen := hw.length_eq
  have hnp' : d.reorder.nPrefix = d.nPrefix := rfl
  -- the function range of the new table is `M`, from its first position
  have hpos : ∀ i, d.reorder.nPrefix ≤ i → i < d.reorder.functionsEnd →
      ∃ k, k < M.length ∧ i = d.nPrefix + k := fun i hlo hhi => ⟨i - d.nPrefix, by omega, by omega⟩
  refine ⟨fun i j hi hij hj => ?_, fun i j hi hij hj heq => ?_⟩
  · obtain ⟨k, hk, rfl⟩ := hpos i hi (by omega)
    obtain ⟨k', hk', rfl⟩ := hpos j (by omega) hj
    rw [hlev k hk, hlev k' hk']
    exact List.pairwise_iff_getElem.1 hw.sorted k k' hk hk' (by omega)
  · obtain ⟨k, hk, rfl⟩ := hpos i hi (by omega)
    obtain ⟨k', hk', rfl⟩ := hpos j (by omega) hj
    rw [hlev k hk, hlev k' hk'] at heq
    rw [hw.entryKey_reorder hwf h.fits hk, hw.entryKey_reorder hwf h.fits hk']
    exact List.pairwise_iff_getElem.1 hkeys k k' hk hk' (by omega) heq

/-! ## Decompositions -/

section Decompositions

open TaylorOde.Expr

/-- A successful build with `reorder` set ends with `reorder` on a table in shape, and so is
sorted. -/
theorem levelsSorted_of_build {names : List String} {outputs : List Expr}
    {opts : DecomposeOptions} {N : List Expr} {d : Decomposition} (hre : opts.reorder = true)
    (h : build names outputs opts = .ok d) (hne : outputs ≠ [])
    (hnames : ∀ v ∈ names, Variable.elementaryIndex? v = none)
    (hvars : ∀ e ∈ outputs, ∀ v, Occurs (.var v) e → v ∈ names) (htag : WellTagged outputs)
    (hN : ∀ e ∈ outputs, ∀ n, Occurs n e → n.op?.isSome → n ∈ N)
    (hroom : names.length + outputs.length * (25 * nodeWeight N + 1) + 2 ^ 33 ≤ 2 ^ 64) :
    d.LevelsSorted := by
  obtain ⟨d₀, -, hbuild, hdec⟩ := build_decomposes (two_le_sumSplit_of_build h hne) hnames
    hvars htag hN hroom
  rw [hbuild, hre, Except.ok.injEq] at h
  subst h
  exact (hdec opts.cse false).levelsSorted_reorder

/-- Every decomposition of an expression, or of the right-hand sides of a validated system
followed by extra expressions, built with `reorder` set, is sorted: over its function range the
levels never decrease, and within a level the keys (operator rank, then the arguments, a
reference by its index and a literal by its bits) never decrease, when the expressions are as
built and their nodes leave room for 64-bit indices. -/
theorem reorder_sorts_levels :
    (∀ (e : Expr) (opts : DecomposeOptions) (N : List Expr) (d : Decomposition),
      opts.reorder = true → WellTagged [e] → (∀ n, Occurs n e → n.op?.isSome → n ∈ N) →
      e.varNames.length + (25 * nodeWeight N + 1) + 2 ^ 33 ≤ 2 ^ 64 →
      ofExpr e opts = .ok d → d.LevelsSorted) ∧
    (∀ (eqs : List (Expr × Expr)) (sys : OdeSystem) (extra : List Expr)
      (opts : DecomposeOptions) (N : List Expr) (d : Decomposition), opts.reorder = true →
      OdeSystem.ofEquations eqs = .ok sys → WellTagged (sys.rhs ++ extra) →
      (∀ e ∈ sys.rhs ++ extra, ∀ n, Occurs n e → n.op?.isSome → n ∈ N) →
      sys.state.length + (sys.rhs ++ extra).length * (25 * nodeWeight N + 1) + 2 ^ 33 ≤
        2 ^ 64 →
      ofSystem sys extra opts = .ok d → d.LevelsSorted) := by
  constructor
  · intro e opts N d hre htag hN hroom h
    obtain ⟨hnames, hbuild⟩ := ofExpr_ok h
    exact levelsSorted_of_build hre hbuild (List.cons_ne_nil e []) hnames (vars_singleton e) htag
      (fun f hf => List.mem_singleton.1 hf ▸ hN) (by simpa using hroom)
  · intro eqs sys extra opts N d hre hsys htag hN hroom h
    obtain ⟨hextra, hbuild⟩ := ofSystem_ok h
    obtain ⟨hplain, hrhs, hsome⟩ := ofEquations_valid hsys
    have hne : sys.rhs ++ extra ≠ [] := fun hnil => hsome (List.append_eq_nil_iff.1 hnil).1
    refine levelsSorted_of_build hre hbuild hne hplain (fun f hf => ?_) htag hN hroom
    rcases List.mem_append.1 hf with hf | hf
    · exact hrhs f hf
    · exact hextra f hf

/-- `sin x * sin x` decomposes under the default options, alone and as the right-hand side of
`x' = sin x * sin x`, to one table. -/
theorem sinSquared_builds :
    ∃ d, ofExpr sinSquared {} = .ok d ∧ ofSystem ⟨["x"], [sinSquared]⟩ [] {} = .ok d := by
  have hN : ∀ e ∈ [sinSquared], ∀ n, Occurs n e → n.op?.isSome → n ∈ [sinSquared, sinX] :=
    fun e he => List.mem_singleton.1 he ▸ nodes_sinSquared
  have hroom : ["x"].length + [sinSquared].length * (25 * nodeWeight [sinSquared, sinX] + 1) +
      2 ^ 33 ≤ 2 ^ 64 := by
    have := room_sinSquared
    rw [varNames_sinSquared] at this
    simpa using this
  have hvars : ∀ f ∈ [sinSquared], ∀ v, Occurs (.var v) f → v ∈ ["x"] :=
    varNames_sinSquared ▸ vars_singleton sinSquared
  obtain ⟨d₀, -, hbuild, -⟩ := build_decomposes (show 2 ≤ ({} : DecomposeOptions).sumSplit by decide)
    (varNames_sinSquared ▸ plain_sinSquared) hvars wellTagged_sinSquared hN hroom
  exact ⟨_, (ofExpr_eq plain_sinSquared).trans (varNames_sinSquared ▸ hbuild),
    (ofSystem_eq (by simp)).trans hbuild⟩

/-- The decompositions of `sin x * sin x`, alone and as the right-hand side of
`x' = sin x * sin x`, under the default options, are sorted by level and by key. -/
theorem sinSquared_levels_sorted :
    ∃ d, ({} : DecomposeOptions).reorder = true ∧ WellTagged [sinSquared] ∧
      (∀ n, Occurs n sinSquared → n.op?.isSome → n ∈ [sinSquared, sinX]) ∧
      sinSquared.varNames.length + (25 * nodeWeight [sinSquared, sinX] + 1) + 2 ^ 33 ≤ 2 ^ 64 ∧
      ofExpr sinSquared {} = .ok d ∧ d.LevelsSorted ∧
      OdeSystem.ofEquations [(.var "x", sinSquared)] = .ok ⟨["x"], [sinSquared]⟩ ∧
      ofSystem ⟨["x"], [sinSquared]⟩ [] {} = .ok d ∧ d.LevelsSorted := by
  obtain ⟨d, hexpr, hsys⟩ := sinSquared_builds
  have hN : ∀ e ∈ [sinSquared] ++ [], ∀ n, Occurs n e → n.op?.isSome → n ∈ [sinSquared, sinX] :=
    fun e he => (List.mem_singleton.1 (by simpa using he)) ▸ nodes_sinSquared
  have hroom : ["x"].length + ([sinSquared] ++ []).length *
      (25 * nodeWeight [sinSquared, sinX] + 1) + 2 ^ 33 ≤ 2 ^ 64 := by
    have := room_sinSquared
    rw [varNames_sinSquared] at this
    simpa using this
  exact ⟨d, rfl, wellTagged_sinSquared, nodes_sinSquared, room_sinSquared, hexpr,
    reorder_sorts_levels.1 sinSquared {} _ d rfl wellTagged_sinSquared nodes_sinSquared
      room_sinSquared hexpr, ofEquations_sinSquared, hsys,
    reorder_sorts_levels.2 _ _ [] {} [sinSquared, sinX] d rfl ofEquations_sinSquared
      (by simpa using wellTagged_sinSquared) hN hroom hsys⟩

end Decompositions

end Decomposition

end TaylorOde
