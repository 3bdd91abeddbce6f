import TaylorOde.Proofs.Decomposition.Dce
/-!
# Ordering entries by level

`levels` gives each function entry one more than the deepest level among its references,
walking the entries in order; as references point backward, every level is final when it
is read, and a reference of a function entry has a strictly lower level
(`levels_lt_of_ref`).

`reorder` appends, level after level, the function entries of that level in some sorted
order, and then the outputs, recording for each entry its position (`place`). Only two facts
about the sort matter: each level's group is a permutation of the level's entries, and the
groups come by increasing level. So the order is the prefix, then every function entry once,
sorted by level (`OrderInv`), then the outputs; a reference lands before the entry reading it,
and `reorder` is a `Renumbering` keeping every function entry (`reorder_renumbering`).
-/

namespace TaylorOde

namespace Decomposition

variable {d : Decomposition}

/-! ## Levels -/

/-- A maximum over a list bounds its start and every element. -/
theorem le_foldl_max (f : Nat → Nat) :
    ∀ (l : List Nat) (init : Nat), init ≤ l.foldl (fun m j => Nat.max m (f j)) init ∧
      ∀ j ∈ l, f j ≤ l.foldl (fun m j => Nat.max m (f j)) init
  | [], init => ⟨Nat.le_refl _, by simp⟩
  | x :: l, init => by
    obtain ⟨h₁, h₂⟩ := le_foldl_max f l (Nat.max init (f x))
    refine ⟨Nat.le_trans (Nat.le_max_left _ _) h₁, ?_⟩
    intro j hj
    rcases List.mem_cons.1 hj with rfl | hj
    · exact Nat.le_trans (Nat.le_max_right _ _) h₁
    · exact h₂ j hj

theorem foldl_max_congr {f g : Nat → Nat} :
    ∀ {l : List Nat}, (∀ j ∈ l, f j = g j) → ∀ init,
      l.foldl (fun m j => Nat.max m (f j)) init = l.foldl (fun m j => Nat.max m (g j)) init
  | [], _, _ => rfl
  | x :: l, h, init => by
    rw [List.foldl_cons, List.foldl_cons, h x List.mem_cons_self]
    exact foldl_max_congr (fun j hj => h j (List.mem_cons_of_mem _ hj)) _

/-- The deepest reference of an entry reads no level set at or after it. -/
theorem deepestRef_set (hwf : d.WellFormed) {lv : Array Nat} {i k v : Nat} (hk : k < d.size)
    (hki : k ≤ i) : d.deepestRef (lv.set! i v) k = d.deepestRef lv k := by
  unfold deepestRef
  refine foldl_max_congr (fun j hj => ?_) 0
  have : j < k := (hwf.refsBelow hk).lt_of_mem_refs hj
  rw [Array.set!_eq_setIfInBounds, Array.getElem?_setIfInBounds_ne (by omega)]

/-- After the function entries below `d.nPrefix + m`, each has the level one above its
deepest reference. -/
structure LevelInv (d : Decomposition) (m : Nat) (lv : Array Nat) : Prop where
  size_eq : lv.size = d.size
  level_eq : ∀ i, d.nPrefix ≤ i → i < d.nPrefix + m → lv[i]? = some (d.deepestRef lv i + 1)

theorem LevelInv.step (hwf : d.WellFormed) {m : Nat} {lv : Array Nat} (hinv : LevelInv d m lv)
    (hm : m < d.functionsEnd - d.nPrefix) :
    LevelInv d (m + 1) (lv.set! (d.nPrefix + m) (d.deepestRef lv (d.nPrefix + m) + 1)) := by
  have hfe := WellFormed.functionsEnd_le_size d
  have hi : d.nPrefix + m < lv.size := by rw [hinv.size_eq]; omega
  refine ⟨by simp [hinv.size_eq], fun i hlo hhi => ?_⟩
  rw [deepestRef_set hwf (by omega) (by omega)]
  by_cases him : i = d.nPrefix + m
  · subst him
    rw [Array.set!_eq_setIfInBounds, Array.getElem?_setIfInBounds_self_of_lt hi]
  · rw [Array.set!_eq_setIfInBounds, Array.getElem?_setIfInBounds_ne (Ne.symm him)]
    exact hinv.level_eq i hlo (by omega)

/-- Every function entry has the level one above its deepest reference. -/
theorem levels_eq (hwf : d.WellFormed) {i : Nat} (hlo : d.nPrefix ≤ i) (hhi : i < d.functionsEnd) :
    d.levels[i]? = some (d.deepestRef d.levels i + 1) := by
  have hfun : d.functions = (List.range (d.functionsEnd - d.nPrefix)).map (d.nPrefix + ·) := by
    unfold functions
    exact List.map_congr_left fun k _ => Nat.add_comm k d.nPrefix
  have hinv : LevelInv d (d.functionsEnd - d.nPrefix) d.levels := by
    unfold levels
    rw [hfun]
    exact foldl_range_induction _ d.nPrefix _ (LevelInv d)
      ⟨by simp [size], fun i hlo hhi => by omega⟩ fun m lv hm h => h.step hwf hm
  exact hinv.level_eq i hlo (by omega)

/-- A reference of a function entry, past the prefix, has a strictly lower level. -/
theorem levels_lt_of_ref (hwf : d.WellFormed) {i j : Nat} (hlo : d.nPrefix ≤ i)
    (hhi : i < d.functionsEnd) (hj : j ∈ (d.entry i).refs) :
    d.levels[j]?.getD 0 < d.levels[i]?.getD 0 := by
  rw [levels_eq hwf hlo hhi, Option.getD_some]
  have := (le_foldl_max (fun j => d.levels[j]?.getD 0) (d.entry i).refs 0).2 j hj
  unfold deepestRef
  omega

/-! ## Placing entries -/

/-- Placing a list of distinct entries appends them to the order, each at its position
there, and leaves the positions of the others. -/
theorem foldl_place (l : List Nat) (acc : Array Nat × Array Nat) (hnd : l.Nodup)
    (hlt : ∀ x ∈ l, x < acc.1.size) :
    (l.foldl place acc).2.toList = acc.2.toList ++ l ∧
      (l.foldl place acc).1.size = acc.1.size ∧
      (∀ x, x ∉ l → (l.foldl place acc).1[x]? = acc.1[x]?) ∧
      ∀ k (hk : k < l.length), (l.foldl place acc).1[l[k]]? = some (acc.2.size + k) := by
  induction l generalizing acc with
  | nil => simp
  | cons y l ih =>
    obtain ⟨hy, hnd'⟩ := List.nodup_cons.1 hnd
    have hy' : y < acc.1.size := hlt y List.mem_cons_self
    obtain ⟨horder, hsize, hother, hat⟩ := ih (place acc y) hnd' fun x hx => by
      simp only [place, Array.size_set!]
      exact hlt x (List.mem_cons_of_mem _ hx)
    rw [List.foldl_cons]
    have hp1 : (place acc y).1 = acc.1.set! y acc.2.size := rfl
    have hp2 : (place acc y).2 = acc.2.push y := rfl
    rw [hp2, Array.toList_push] at horder
    rw [hp1, Array.size_set!] at hsize
    rw [hp1] at hother
    simp only [hp2, Array.size_push] at hat
    refine ⟨by rw [horder]; simp, hsize, fun x hx => ?_, fun k hk => ?_⟩
    · have hyx : y ≠ x := by
        rintro rfl
        exact hx List.mem_cons_self
      rw [hother x fun h => hx (List.mem_cons_of_mem _ h), Array.set!_eq_setIfInBounds,
        Array.getElem?_setIfInBounds_ne hyx]
    · cases k with
      | zero =>
        -- the entry itself is placed now and never again
        rw [List.getElem_cons_zero, hother y hy, Array.set!_eq_setIfInBounds,
          Array.getElem?_setIfInBounds_self_of_lt hy', Nat.add_zero]
      | succ k =>
        rw [List.getElem_cons_succ, hat k (by simp at hk; omega)]
        congr 1
        omega

/-! ## The order, level by level -/

/-- The level of an entry. -/
def levelOf (d : Decomposition) (i : Nat) : Nat := d.levels[i]?.getD 0

theorem functions_nodup (d : Decomposition) : d.functions.Nodup :=
  List.nodup_range.map fun a b h => by simpa using h

/-- Sorting keyed entries permutes them. -/
theorem mergeSort_keyed_perm {α : Type} (l : List Nat) (key : Nat → α)
    (le : α × Nat → α × Nat → Bool) :
    (((l.map fun i => (key i, i)).mergeSort le).map Prod.snd).Perm l := by
  have := (List.mergeSort_perm (l.map fun i => (key i, i)) le).map Prod.snd
  simpa [List.map_map, Function.comp_def] using this

/-- The function entries of level `ℓ` in the order `reorder` places them: sorted by their
keys, references read through `remap`. -/
def levelGroup (d : Decomposition) (remap : Array Nat) (ℓ : Nat) : List Nat :=
  (((d.functions.filter fun i => d.levels[i]?.getD 0 == ℓ).map fun i =>
    (d.reorderKey remap i, i)).mergeSort reorderLe).map Prod.snd

theorem reorderLevel_eq (acc : Array Nat × Array Nat) (ℓ : Nat) :
    d.reorderLevel d.levels acc ℓ = (d.levelGroup acc.1 ℓ).foldl place acc := rfl

theorem levelGroup_nodup (remap : Array Nat) (ℓ : Nat) : (d.levelGroup remap ℓ).Nodup :=
  (mergeSort_keyed_perm _ _ _).nodup_iff.2 ((functions_nodup d).filter _)

theorem mem_levelGroup {remap : Array Nat} {ℓ x : Nat} :
    x ∈ d.levelGroup remap ℓ ↔ d.nPrefix ≤ x ∧ x < d.functionsEnd ∧ d.levelOf x = ℓ := by
  rw [levelGroup, (mergeSort_keyed_perm _ _ _).mem_iff, List.mem_filter, mem_functions,
    beq_iff_eq]
  unfold levelOf
  tauto

/-- After the levels below `ℓ`: the order is the prefix followed by `M`, the function entries
of those levels, once each and by level; a placed entry sits at its position in the order, any
other at its own index. -/
structure OrderInv (d : Decomposition) (ℓ : Nat) (acc : Array Nat × Array Nat) (M : List Nat) :
    Prop where
  order_eq : acc.2.toList = List.range d.nPrefix ++ M
  nodup : M.Nodup
  mem_iff : ∀ x, x ∈ M ↔ d.nPrefix ≤ x ∧ x < d.functionsEnd ∧ d.levelOf x < ℓ
  sorted : M.Pairwise fun a b => d.levelOf a ≤ d.levelOf b
  remap_size : acc.1.size = d.size
  placed : ∀ k (hk : k < M.length), acc.1[M[k]]? = some (d.nPrefix + k)
  unplaced : ∀ x < d.size, x ∉ M → acc.1[x]? = some x

namespace OrderInv

theorem init (d : Decomposition) :
    OrderInv d 0 (Array.range d.size, Array.range d.nPrefix) [] where
  order_eq := by simp
  nodup := List.nodup_nil
  mem_iff := by simp
  sorted := List.Pairwise.nil
  remap_size := by simp [size]
  placed := by simp
  unplaced := fun x hx _ => by simp [hx]

/-- One level: its entries, in whatever order the sort gives, are placed after the lower
levels. -/
theorem step (hinv : OrderInv d ℓ acc M) :
    ∃ M', OrderInv d (ℓ + 1) (d.reorderLevel d.levels acc ℓ) M' := by
  let G := d.levelGroup acc.1 ℓ
  have hGnodup : G.Nodup := levelGroup_nodup acc.1 ℓ
  have hGmem : ∀ x, x ∈ G ↔ d.nPrefix ≤ x ∧ x < d.functionsEnd ∧ d.levelOf x = ℓ :=
    fun _ => mem_levelGroup
  have hfe := WellFormed.functionsEnd_le_size d
  obtain ⟨horder, hsize, hother, hat⟩ := foldl_place G acc hGnodup fun x hx => by
    rw [hinv.remap_size]
    have := (hGmem x).1 hx
    omega
  have hlen : acc.2.size = d.nPrefix + M.length := by
    rw [← Array.length_toList, hinv.order_eq]
    simp
  -- entries of lower levels are not in this level's group
  have hdisj : ∀ x ∈ M, x ∉ G := fun x hx hxG => by
    have := ((hinv.mem_iff x).1 hx).2.2
    have := ((hGmem x).1 hxG).2.2
    omega
  refine ⟨M ++ G, ⟨?_, ?_, ?_, ?_, ?_, ?_, ?_⟩⟩
  · show (G.foldl place acc).2.toList = _
    rw [horder, hinv.order_eq, List.append_assoc]
  · exact List.nodup_append.2 ⟨hinv.nodup, hGnodup, fun a ha b hb hab => hdisj a ha (hab ▸ hb)⟩
  · intro x
    rw [List.mem_append, hinv.mem_iff, hGmem]
    omega
  · refine List.pairwise_append.2 ⟨hinv.sorted, ?_, fun a ha b hb => ?_⟩
    · -- one level's group: all of the same level
      refine (List.pairwise_of_forall fun _ _ => trivial).imp_of_mem fun ha hb _ => ?_
      rw [((hGmem _).1 ha).2.2, ((hGmem _).1 hb).2.2]
    · have := ((hinv.mem_iff a).1 ha).2.2
      have := ((hGmem b).1 hb).2.2
      omega
  · exact hsize.trans hinv.remap_size
  · intro k hk
    show (G.foldl place acc).1[(M ++ G)[k]]? = _
    by_cases hkM : k < M.length
    · rw [List.getElem_append_left hkM, hother _ (hdisj _ (List.getElem_mem hkM))]
      exact hinv.placed k hkM
    · rw [List.length_append] at hk
      rw [List.getElem_append_right (by omega), hat _ (by omega), hlen]
      congr 1
      omega
  · intro x hx hxM
    rw [List.mem_append, not_or] at hxM
    show (G.foldl place acc).1[x]? = _
    rw [hother x hxM.2]
    exact hinv.unplaced x hx hxM.1

end OrderInv

/-! ## The end of the walk -/

/-- The end of the walk of `reorder`: the order lists the prefix, the function entries `M` as
the levels placed them, and the outputs, and `remap` gives every entry its place in it. -/
structure ReorderWalk (d : Decomposition) (M : List Nat) (remap order : Array Nat) : Prop where
  sorted : M.Pairwise fun a b => d.levelOf a ≤ d.levelOf b
  mem_iff : ∀ x, x ∈ M ↔ d.nPrefix ≤ x ∧ x < d.functionsEnd
  length_eq : M.length = d.functionsEnd - d.nPrefix
  order_eq : order.toList = List.range d.nPrefix ++ M ++ (List.range d.size).drop d.functionsEnd
  reorder_eq : d.reorder = { d with
    entries := order.map fun old => if old < d.nPrefix then d.entry old else
      { rhs := renameRhs (posOf remap) (d.entry old).rhs,
        hidden := (d.entry old).hidden.map (posOf remap) } }
  pos_prefix : ∀ x < d.nPrefix, posOf remap x = x
  pos_placed : ∀ k (hk : k < M.length), posOf remap M[k] = d.nPrefix + k

/-- The deepest level of a function entry. -/
def maxLevel (d : Decomposition) : Nat :=
  d.functions.foldl (fun m i => Nat.max m (d.levels[i]?.getD 0)) 0

/-- The walk of `reorder` through the levels below `ℓ`. -/
def levelWalk (d : Decomposition) (ℓ : Nat) : Array Nat × Array Nat :=
  (List.range ℓ).foldl (d.reorderLevel d.levels) (Array.range d.size, Array.range d.nPrefix)

/-- The walk of `reorder` through every level and then the outputs. -/
def outputWalk (d : Decomposition) : Array Nat × Array Nat :=
  ((List.range d.size).drop d.functionsEnd).foldl place (d.levelWalk (d.maxLevel + 1))

theorem levelWalk_succ (ℓ : Nat) :
    d.levelWalk (ℓ + 1) = d.reorderLevel d.levels (d.levelWalk ℓ) ℓ := by
  rw [levelWalk, levelWalk, List.range_succ, List.foldl_append]
  rfl

theorem orderInv_levelWalk (ℓ : Nat) : ∃ M, OrderInv d ℓ (d.levelWalk ℓ) M := by
  induction ℓ with
  | zero => exact ⟨[], OrderInv.init d⟩
  | succ ℓ ih =>
    obtain ⟨M, hM⟩ := ih
    rw [levelWalk_succ]
    exact hM.step

/-- The walk of `reorder` over a table whose prefix comes before its outputs places every
function entry: every level up to the deepest one is walked. -/
theorem reorderWalk_outputWalk (hnp : d.nPrefix ≤ d.functionsEnd) {M : List Nat}
    (hM : OrderInv d (d.maxLevel + 1) (d.levelWalk (d.maxLevel + 1)) M) :
    ReorderWalk d M d.outputWalk.1 d.outputWalk.2 := by
  have hfe := WellFormed.functionsEnd_le_size d
  have hMmem : ∀ x, x ∈ M ↔ d.nPrefix ≤ x ∧ x < d.functionsEnd := fun x => by
    rw [hM.mem_iff]
    constructor
    · exact fun h => ⟨h.1, h.2.1⟩
    · rintro ⟨h₁, h₂⟩
      refine ⟨h₁, h₂, Nat.lt_succ_of_le ?_⟩
      exact (le_foldl_max (fun i => d.levels[i]?.getD 0) d.functions 0).2 x
        (mem_functions.2 ⟨h₁, h₂⟩)
  have hMlen : M.length = d.functionsEnd - d.nPrefix := by
    have hperm : M.Perm d.functions := (List.perm_ext_iff_of_nodup hM.nodup
      (functions_nodup d)).2 fun x => by rw [hMmem, mem_functions]
    rw [hperm.length_eq]
    simp [functions]
  -- then the outputs, in order
  let outs := (List.range d.size).drop d.functionsEnd
  have houtsnd : outs.Nodup := List.nodup_range.sublist (List.drop_sublist _ _)
  obtain ⟨horder, -, hother, -⟩ := foldl_place outs _ houtsnd fun x hx => by
    rw [hM.remap_size]
    exact List.mem_range.1 ((List.drop_sublist _ _).subset hx)
  refine ⟨hM.sorted, hMmem, hMlen, ?_, ?_, fun x hx => ?_, fun k hk => ?_⟩
  · rw [outputWalk, horder, hM.order_eq]
  · simp only [reorder, remapRhs_eq]
    rfl
  · have hnot : x ∉ outs := fun h => by have := mem_drop_range.1 h; omega
    have hnotM : x ∉ M := fun h => by have := (hMmem x).1 h; omega
    exact posOf_of_getElem? (by rw [outputWalk, hother _ hnot]; exact hM.unplaced x (by omega) hnotM)
  · have hnot : M[k] ∉ outs := fun h => by
      have := (hMmem _).1 (List.getElem_mem hk)
      have := mem_drop_range.1 h
      omega
    exact posOf_of_getElem? (by rw [outputWalk, hother _ hnot]; exact hM.placed k hk)

/-- The walk of `reorder` over a table whose prefix comes before its outputs places every
function entry. -/
theorem reorder_walk (hnp : d.nPrefix ≤ d.functionsEnd) :
    ∃ M remap order, ReorderWalk d M remap order := by
  obtain ⟨M, hM⟩ := orderInv_levelWalk (d := d) (d.maxLevel + 1)
  exact ⟨M, _, _, reorderWalk_outputWalk hnp hM⟩

namespace ReorderWalk

variable {M : List Nat} {remap order : Array Nat}

theorem order_size (hw : ReorderWalk d M remap order) (hnp : d.nPrefix ≤ d.functionsEnd) :
    order.size = d.size := by
  have hfe := WellFormed.functionsEnd_le_size d
  rw [← Array.length_toList, hw.order_eq]
  simp only [List.length_append, List.length_range, List.length_drop, hw.length_eq]
  omega

/-- `reorder` keeps the size of a table whose prefix comes before its outputs. -/
theorem size_eq (hw : ReorderWalk d M remap order) (hnp : d.nPrefix ≤ d.functionsEnd) :
    d.reorder.size = d.size := by
  rw [hw.reorder_eq]
  exact (Array.size_map ..).trans (hw.order_size hnp)

theorem functionsEnd_eq (hw : ReorderWalk d M remap order) (hnp : d.nPrefix ≤ d.functionsEnd) :
    d.reorder.functionsEnd = d.functionsEnd := by
  have h := hw.size_eq hnp
  have : d.reorder.nOutputs = d.nOutputs := rfl
  show d.reorder.entries.size - d.reorder.nOutputs = d.entries.size - d.nOutputs
  unfold size at h
  omega

theorem order_prefix (hw : ReorderWalk d M remap order) {k : Nat} (hk : k < d.nPrefix) :
    order[k]? = some k := by
  rw [← Array.getElem?_toList, hw.order_eq, List.append_assoc,
    List.getElem?_append_left (by simpa using hk)]
  simp [hk]

theorem order_placed (hw : ReorderWalk d M remap order) {k : Nat} (hk : k < M.length) :
    order[d.nPrefix + k]? = some M[k] := by
  rw [← Array.getElem?_toList, hw.order_eq, List.getElem?_append_left (by simp; omega),
    List.getElem?_append_right (by simp)]
  simp [hk]

theorem order_output (hw : ReorderWalk d M remap order) (hnp : d.nPrefix ≤ d.functionsEnd)
    {m : Nat} (hm : d.functionsEnd + m < d.size) :
    order[d.functionsEnd + m]? = some (d.functionsEnd + m) := by
  rw [← Array.getElem?_toList, hw.order_eq, List.getElem?_append_right (by simp [hw.length_eq]; omega)]
  simp only [List.length_append, List.length_range, hw.length_eq]
  rw [List.getElem?_drop, List.getElem?_range (by omega)]
  congr 1
  omega

/-- The entry at a place of the order: a prefix entry as it was, any other renamed. -/
theorem entry_of_order (hw : ReorderWalk d M remap order) {k old : Nat}
    (h : order[k]? = some old) : d.reorder.entry k =
      if old < d.nPrefix then d.entry old else
        { rhs := renameRhs (posOf remap) (d.entry old).rhs,
          hidden := (d.entry old).hidden.map (posOf remap) } := by
  rw [hw.reorder_eq]
  exact entry_of_getElem? (by rw [Array.getElem?_map, h]; rfl)

/-- A lower level comes earlier in the order. -/
theorem lt_of_levelOf_lt (hw : ReorderWalk d M remap order) {k k' : Nat} (hk : k < M.length)
    (hk' : k' < M.length) (h : d.levelOf M[k] < d.levelOf M[k']) : k < k' := by
  by_contra hge
  have hne : k ≠ k' := fun he => by subst he; omega
  have := List.pairwise_iff_getElem.1 hw.sorted k' k hk' hk (by omega)
  omega

/-- The function range is placed within itself, after the prefix. -/
theorem posOf_lt (hw : ReorderWalk d M remap order) (hnp : d.nPrefix ≤ d.functionsEnd)
    {j : Nat} (hj : j < d.functionsEnd) : posOf remap j < d.functionsEnd := by
  by_cases hjp : j < d.nPrefix
  · rw [hw.pos_prefix j hjp]
    omega
  · obtain ⟨k, hk, rfl⟩ := List.getElem_of_mem ((hw.mem_iff j).2 ⟨by omega, hj⟩)
    rw [hw.pos_placed k hk]
    have := hw.length_eq
    omega

end ReorderWalk

/-- `reorder` renumbers a well-formed table through the positions its walk gives, keeping every
function entry and its size. -/
theorem ReorderWalk.renumbering {M : List Nat} {remap order : Array Nat}
    (hw : ReorderWalk d M remap order) (hwf : d.WellFormed) :
    Renumbering d d.reorder (posOf remap) (fun i => d.nPrefix ≤ i ∧ i < d.functionsEnd) ∧
      d.reorder.size = d.size := by
  have hsize := hwf.size_eq
  have hnp := hwf.nPrefix_le_functionsEnd
  have hdsize := hw.size_eq hnp
  have hend := hw.functionsEnd_eq hnp
  have hnp' : d.reorder.nPrefix = d.nPrefix := rfl
  have hMmem := hw.mem_iff
  have hMlen := hw.length_eq
  have hposM := hw.pos_placed
  have hkeep : ∀ i, d.nPrefix ≤ i → i < d.functionsEnd →
      ∃ k, ∃ hk : k < M.length, M[k] = i := fun i hlo hhi =>
    List.getElem_of_mem ((hMmem i).2 ⟨hlo, hhi⟩)
  refine ⟨⟨?_, ?_, ?_, ?_, ?_, ?_, ?_, ?_, ?_, ?_, ?_, ?_, ?_, ?_⟩, hdsize⟩
  case refine_1 => rfl
  case refine_2 => rfl
  case refine_3 => rfl
  case refine_4 =>
    rw [hnp', hdsize, hsize]
    have : d.reorder.nOutputs = d.nOutputs := rfl
    omega
  case refine_5 => exact fun i hi => by rw [hw.entry_of_order (hw.order_prefix hi), if_pos hi]
  case refine_6 => exact hw.pos_prefix
  case refine_7 =>
    intro m hm
    rw [hend, hw.entry_of_order (hw.order_output hnp (by omega)), if_neg (by omega)]
  case refine_8 =>
    intro m hm j hj hjp
    exact ⟨hjp, hwf.output_refs_lt hm j hj⟩
  case refine_9 => exact fun i hi => hi
  case refine_10 =>
    intro i ⟨hlo, hhi⟩
    obtain ⟨k, hk, rfl⟩ := hkeep i hlo hhi
    rw [hposM k hk, hnp', hend]
    omega
  case refine_11 =>
    intro i ⟨hlo, hhi⟩
    obtain ⟨k, hk, rfl⟩ := hkeep i hlo hhi
    rw [hposM k hk, hw.entry_of_order (hw.order_placed hk), if_neg (by omega)]
    exact Expr.beq_self _
  case refine_12 =>
    intro i ⟨hlo, hhi⟩ j hj hjp
    have := (hwf.refsBelow (show i < d.size by omega)).lt_of_mem_refs hj
    exact ⟨hjp, by omega⟩
  case refine_13 =>
    intro i ⟨hlo, hhi⟩ h hh
    obtain ⟨h₁, h₂, -⟩ := hwf.hidden_entry i hlo hhi h hh
    exact ⟨h₁, h₂⟩
  case refine_14 =>
    -- the function entry at `k` is the one placed there; its references come at lower levels
    intro k hlo hhi
    rw [hnp'] at hlo
    rw [hend] at hhi
    have hk : k - d.nPrefix < M.length := by omega
    have hi := (hMmem _).1 (List.getElem_mem hk)
    refine ⟨M[k - d.nPrefix], hi, by rw [hposM _ hk]; omega, ?_, ?_⟩
    · have hord := hw.order_placed hk
      rw [show d.nPrefix + (k - d.nPrefix) = k by omega] at hord
      rw [hw.entry_of_order hord, if_neg (by omega)]
    · intro j hj
      have hji := (hwf.refsBelow (show M[k - d.nPrefix] < d.size by omega)).lt_of_mem_refs hj
      by_cases hjp : j < d.nPrefix
      · rw [hw.pos_prefix j hjp]
        omega
      · obtain ⟨k', hk', rfl⟩ := hkeep j (by omega) (by omega)
        have hlt := levels_lt_of_ref hwf hi.1 hi.2 hj
        rw [hposM k' hk']
        have := hw.lt_of_levelOf_lt hk' hk hlt
        omega

/-- `reorder` renumbers a well-formed table, keeping every function entry and its size. -/
theorem reorder_renumbering (hwf : d.WellFormed) :
    ∃ r, Renumbering d d.reorder r (fun i => d.nPrefix ≤ i ∧ i < d.functionsEnd) ∧
      d.reorder.size = d.size := by
  obtain ⟨M, remap, order, hw⟩ := reorder_walk hwf.nPrefix_le_functionsEnd
  exact ⟨_, hw.renumbering hwf⟩

end Decomposition

end TaylorOde
