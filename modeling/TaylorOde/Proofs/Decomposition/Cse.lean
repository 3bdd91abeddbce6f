import TaylorOde.Proofs.Decomposition.Renumbering
import Mathlib
/-!
# Merging common subexpressions

`cse` walks the entries in order. Each right-hand side is renamed through the positions given
so far; a function entry whose renamed right-hand side is structurally equal to one already
kept is merged into it, and is kept otherwise. Over the prefix and the function entries the
walk keeps `CseInv`:

* every entry walked has a position, and the entry there has an equal right-hand side;
* every kept entry is the renaming of an entry walked, which lands on it and whose
  references land before it;
* the table of right-hand sides seen points at kept entries with those right-hand sides.

The outputs are then renamed and kept last (`CseOutInv`). Read at the end, the two make `cse`
a `Renumbering` that keeps every function entry (`cse_renumbering`).
-/

namespace TaylorOde

namespace Decomposition

variable {d : Decomposition}

theorem getElem?_push_of_getElem? {α : Type} {xs : Array α} {i : Nat} {a x : α}
    (h : xs[i]? = some a) : (xs.push x)[i]? = some a := by
  have hi : i < xs.size := by
    by_contra hi
    rw [Array.getElem?_eq_none (by omega)] at h
    cases h
  rw [Array.getElem?_push, if_neg (by omega), h]

theorem getElem?_push_size {α : Type} {xs : Array α} {x : α} : (xs.push x)[xs.size]? = some x := by
  simp

/-- Renaming a walked entry ignores positions set from it on: its references lie below it. -/
theorem renameRhs_set_of_le (hwf : d.WellFormed) {remap : Array Nat} {i m v : Nat}
    (hi : i < d.size) (him : i ≤ m) :
    renameRhs (posOf (remap.set! m v)) (d.entry i).rhs = renameRhs (posOf remap) (d.entry i).rhs :=
  renameRhs_congr fun j hj =>
    posOf_set_of_ne (by have := (hwf.refsBelow hi).lt_of_mem_refs hj; omega)

/-- What `cse` knows after walking the entries below `m` of the prefix and function range. -/
structure CseInv (d : Decomposition) (m : Nat) (s : CseState) : Prop where
  remap_size : s.1.size = d.size
  out_size_ge : min m d.nPrefix ≤ s.2.1.size
  out_size_le : s.2.1.size ≤ m
  prefix_remap : ∀ j < m, j < d.nPrefix → s.1[j]? = some j
  prefix_out : ∀ k < m, k < d.nPrefix → s.2.1[k]? = some (d.entry k)
  merged : ∀ j < m, d.nPrefix ≤ j → ∃ k e, s.1[j]? = some k ∧ d.nPrefix ≤ k ∧
    s.2.1[k]? = some e ∧ e.rhs.beq (renameRhs (posOf s.1) (d.entry j).rhs) = true
  kept : ∀ k, d.nPrefix ≤ k → k < s.2.1.size → ∃ i, d.nPrefix ≤ i ∧ i < m ∧ s.1[i]? = some k ∧
    s.2.1[k]? = some { rhs := renameRhs (posOf s.1) (d.entry i).rhs,
                        hidden := (d.entry i).hidden } ∧
    ∀ j ∈ (d.entry i).refs, posOf s.1 j < k
  seen : ∀ x v, s.2.2[NodeKey.shape x]? = some v →
    d.nPrefix ≤ v ∧ ∃ e, s.2.1[v]? = some e ∧ e.rhs.beq x = true

namespace CseInv

theorem init (d : Decomposition) : CseInv d 0 (Array.replicate d.size 0, #[], {}) where
  remap_size := by simp [size]
  out_size_ge := by simp
  out_size_le := by simp
  prefix_remap := by simp
  prefix_out := by simp
  merged := by simp
  kept := by simp
  seen := by simp

/-- A prefix entry keeps its position and is copied. -/
theorem step_prefix (hwf : d.WellFormed) {m : Nat} {s : CseState} (hinv : CseInv d m s)
    (hm : m < d.nPrefix) : CseInv d (m + 1) (d.cseStep s m) := by
  obtain ⟨remap, out, seen⟩ := s
  have hge := hinv.out_size_ge
  have hle := hinv.out_size_le
  dsimp only at hge hle
  have hsize : out.size = m := by rw [Nat.min_eq_left (Nat.le_of_lt hm)] at hge; omega
  have hmn : m < remap.size := by
    rw [hinv.remap_size]
    have := hwf.nPrefix_le_functionsEnd
    have := WellFormed.functionsEnd_le_size d
    omega
  have hstep : d.cseStep (remap, out, seen) m = (remap.set! m m, out.push (d.entry m), seen) := by
    simp [cseStep, hm]
  rw [hstep]
  refine ⟨?_, ?_, ?_, ?_, ?_, ?_, ?_, ?_⟩ <;> dsimp only
  case refine_1 => simp [hinv.remap_size]
  case refine_2 => simp; omega
  case refine_3 => simp; omega
  case refine_4 =>
    intro j hj hjp
    by_cases hjm : j = m
    · subst hjm
      rw [Array.set!_eq_setIfInBounds, Array.getElem?_setIfInBounds_self_of_lt hmn]
    · rw [Array.set!_eq_setIfInBounds, Array.getElem?_setIfInBounds_ne (Ne.symm hjm)]
      exact hinv.prefix_remap j (by omega) hjp
  case refine_5 =>
    intro k hk hkp
    by_cases hkm : k = m
    · subst hkm
      rw [← hsize]
      exact getElem?_push_size
    · exact getElem?_push_of_getElem? (hinv.prefix_out k (by omega) hkp)
  case refine_6 =>
    intro j hj hjp
    omega
  case refine_7 =>
    intro k hk hks
    simp only [Array.size_push] at hks
    omega
  case refine_8 =>
    intro x v hv
    obtain ⟨hv₁, e, he, hbeq⟩ := hinv.seen x v hv
    exact ⟨hv₁, e, getElem?_push_of_getElem? he, hbeq⟩

/-- Every entry walked has a position among the entries kept. -/
theorem posOf_lt {m : Nat} {s : CseState} (hinv : CseInv d m s) {j : Nat} (hj : j < m) :
    posOf s.1 j < s.2.1.size := by
  by_cases hjp : j < d.nPrefix
  · have := hinv.out_size_ge
    rw [posOf_of_getElem? (hinv.prefix_remap j hj hjp)]
    omega
  · obtain ⟨k, e, hk, -, he, -⟩ := hinv.merged j hj (by omega)
    rw [posOf_of_getElem? hk]
    exact (Array.getElem?_eq_some_iff.1 he).1

theorem cseStep_merge {remap : Array Nat} {out : Array Entry} {seen : Std.HashMap NodeKey Nat}
    {m k : Nat} (hlo : d.nPrefix ≤ m) (hhi : m < d.functionsEnd)
    (hk : seen[NodeKey.shape (remapRhs remap (d.entry m).rhs)]? = some k) :
    d.cseStep (remap, out, seen) m = (remap.set! m k, out, seen) := by
  simp [cseStep, Nat.not_lt.2 hlo, Nat.not_le.2 hhi, Std.HashMap.get?_eq_getElem?, hk]

theorem cseStep_keep {remap : Array Nat} {out : Array Entry} {seen : Std.HashMap NodeKey Nat}
    {m : Nat} (hlo : d.nPrefix ≤ m) (hhi : m < d.functionsEnd)
    (hk : seen[NodeKey.shape (remapRhs remap (d.entry m).rhs)]? = none) :
    d.cseStep (remap, out, seen) m =
      (remap.set! m out.size,
        out.push { rhs := remapRhs remap (d.entry m).rhs, hidden := (d.entry m).hidden },
        seen.insert (.shape (remapRhs remap (d.entry m).rhs)) out.size) := by
  simp [cseStep, Nat.not_lt.2 hlo, Nat.not_le.2 hhi, Std.HashMap.get?_eq_getElem?, hk]

/-- A function entry whose renaming was seen is merged into the entry kept for it. -/
theorem step_merge (hwf : d.WellFormed) {m : Nat} {remap : Array Nat} {out : Array Entry}
    {seen : Std.HashMap NodeKey Nat} (hinv : CseInv d m (remap, out, seen))
    (hlo : d.nPrefix ≤ m) (hhi : m < d.functionsEnd) {k : Nat}
    (hk : seen[NodeKey.shape (remapRhs remap (d.entry m).rhs)]? = some k) :
    CseInv d (m + 1) (remap.set! m k, out, seen) := by
  have hmn : m < d.size := Nat.lt_of_lt_of_le hhi (WellFormed.functionsEnd_le_size d)
  have hmr : m < remap.size := by rw [hinv.remap_size]; exact hmn
  -- renaming a walked entry reads no position set at `m` or later
  have hstable : ∀ i ≤ m, i < d.size → renameRhs (posOf (remap.set! m k)) (d.entry i).rhs =
      renameRhs (posOf remap) (d.entry i).rhs := fun i him hi => renameRhs_set_of_le hwf hi him
  have hother : ∀ j, j ≠ m → (remap.set! m k)[j]? = remap[j]? := fun j hj => by
    rw [Array.set!_eq_setIfInBounds, Array.getElem?_setIfInBounds_ne (Ne.symm hj)]
  refine ⟨?_, ?_, ?_, ?_, ?_, ?_, ?_, ?_⟩ <;> dsimp only
  case refine_1 => simp [hinv.remap_size]
  case refine_2 =>
    have := hinv.out_size_ge
    simp only at this
    omega
  case refine_3 => have := hinv.out_size_le; simp only at this; omega
  case refine_4 =>
    intro j hj hjp
    rw [hother j (by omega)]
    exact hinv.prefix_remap j (by omega) hjp
  case refine_5 => exact fun k' hk' hkp => hinv.prefix_out k' (by omega) hkp
  case refine_6 =>
    intro j hj hjp
    by_cases hjm : j = m
    · -- the merged entry points at the kept one, whose right-hand side is equal
      subst hjm
      obtain ⟨hkp, e, he, hbeq⟩ := hinv.seen _ k hk
      refine ⟨k, e, ?_, hkp, he, ?_⟩
      · rw [Array.set!_eq_setIfInBounds, Array.getElem?_setIfInBounds_self_of_lt hmr]
      · rw [hstable j (Nat.le_refl j) hmn, ← remapRhs_eq]
        exact hbeq
    · obtain ⟨k', e, hk', hkp, he, hbeq⟩ := hinv.merged j (by omega) hjp
      refine ⟨k', e, by rw [hother j hjm]; exact hk', hkp, he, ?_⟩
      rw [hstable j (by omega) (by omega)]
      exact hbeq
  case refine_7 =>
    intro k' hkp hks
    obtain ⟨i, hip, him, hik, hout, hrefs⟩ := hinv.kept k' hkp hks
    refine ⟨i, hip, by omega, by rw [hother i (by omega)]; exact hik, ?_, ?_⟩
    · rw [hstable i (by omega) (by omega)]
      exact hout
    · intro j hj
      have hji : j < i := (hwf.refsBelow (by omega)).lt_of_mem_refs hj
      rw [posOf_set_of_ne (by omega)]
      exact hrefs j hj
  case refine_8 => exact hinv.seen

/-- A function entry whose renaming was not seen is kept, as the first of its kind. -/
theorem step_keep (hwf : d.WellFormed) {m : Nat} {remap : Array Nat} {out : Array Entry}
    {seen : Std.HashMap NodeKey Nat} (hinv : CseInv d m (remap, out, seen))
    (hlo : d.nPrefix ≤ m) (hhi : m < d.functionsEnd) :
    CseInv d (m + 1) (remap.set! m out.size,
      out.push { rhs := remapRhs remap (d.entry m).rhs, hidden := (d.entry m).hidden },
      seen.insert (.shape (remapRhs remap (d.entry m).rhs)) out.size) := by
  have hmn : m < d.size := Nat.lt_of_lt_of_le hhi (WellFormed.functionsEnd_le_size d)
  have hmr : m < remap.size := by rw [hinv.remap_size]; exact hmn
  have hge := hinv.out_size_ge
  have hle := hinv.out_size_le
  dsimp only at hge hle
  have hnp : d.nPrefix ≤ out.size := by rw [Nat.min_eq_right hlo] at hge; exact hge
  have hstable : ∀ i ≤ m, i < d.size → renameRhs (posOf (remap.set! m out.size)) (d.entry i).rhs =
      renameRhs (posOf remap) (d.entry i).rhs := fun i him hi => renameRhs_set_of_le hwf hi him
  have hother : ∀ j, j ≠ m → (remap.set! m out.size)[j]? = remap[j]? := fun j hj => by
    rw [Array.set!_eq_setIfInBounds, Array.getElem?_setIfInBounds_ne (Ne.symm hj)]
  have hself : (remap.set! m out.size)[m]? = some out.size := by
    rw [Array.set!_eq_setIfInBounds, Array.getElem?_setIfInBounds_self_of_lt hmr]
  refine ⟨?_, ?_, ?_, ?_, ?_, ?_, ?_, ?_⟩ <;> dsimp only
  case refine_1 => simp [hinv.remap_size]
  case refine_2 => simp only [Array.size_push]; omega
  case refine_3 => simp only [Array.size_push]; omega
  case refine_4 =>
    intro j hj hjp
    rw [hother j (by omega)]
    exact hinv.prefix_remap j (by omega) hjp
  case refine_5 =>
    exact fun k hk hkp => getElem?_push_of_getElem? (hinv.prefix_out k (by omega) hkp)
  case refine_6 =>
    intro j hj hjp
    by_cases hjm : j = m
    · subst hjm
      refine ⟨out.size, _, hself, hnp, getElem?_push_size, ?_⟩
      rw [hstable j (Nat.le_refl j) hmn, ← remapRhs_eq]
      exact Expr.beq_self _
    · obtain ⟨k', e, hk', hkp, he, hbeq⟩ := hinv.merged j (by omega) hjp
      refine ⟨k', e, by rw [hother j hjm]; exact hk', hkp, getElem?_push_of_getElem? he, ?_⟩
      rw [hstable j (by omega) (by omega)]
      exact hbeq
  case refine_7 =>
    intro k hkp hks
    simp only [Array.size_push] at hks
    by_cases hkm : k = out.size
    · -- the new entry is the renaming of `m`, whose references were walked before it
      subst hkm
      refine ⟨m, hlo, by omega, hself, ?_, ?_⟩
      · rw [hstable m (Nat.le_refl m) hmn, ← remapRhs_eq]
        exact getElem?_push_size
      · intro j hj
        have hjm : j < m := (hwf.refsBelow hmn).lt_of_mem_refs hj
        rw [posOf_set_of_ne (by omega)]
        exact hinv.posOf_lt hjm
    · obtain ⟨i, hip, him, hik, hout, hrefs⟩ := hinv.kept k hkp (show k < out.size by omega)
      refine ⟨i, hip, by omega, by rw [hother i (by omega)]; exact hik, ?_, ?_⟩
      · rw [hstable i (by omega) (by omega)]
        exact getElem?_push_of_getElem? hout
      · intro j hj
        have hji : j < i := (hwf.refsBelow (by omega)).lt_of_mem_refs hj
        rw [posOf_set_of_ne (by omega)]
        exact hrefs j hj
  case refine_8 =>
    intro x v hv
    rw [Std.HashMap.getElem?_insert] at hv
    by_cases hx : (NodeKey.shape (remapRhs remap (d.entry m).rhs) == NodeKey.shape x) = true
    · -- the key just inserted: the new entry carries that right-hand side
      rw [if_pos hx] at hv
      cases hv
      rw [NodeKey.shape_beq_shape] at hx
      exact ⟨hnp, _, getElem?_push_size, hx⟩
    · rw [if_neg hx] at hv
      obtain ⟨hv₁, e, he, hbeq⟩ := hinv.seen x v hv
      exact ⟨hv₁, e, getElem?_push_of_getElem? he, hbeq⟩

/-- One step of the walk over the prefix and the function entries. -/
theorem step (hwf : d.WellFormed) {m : Nat} {s : CseState} (hinv : CseInv d m s)
    (hm : m < d.functionsEnd) : CseInv d (m + 1) (d.cseStep s m) := by
  by_cases hp : m < d.nPrefix
  · exact hinv.step_prefix hwf hp
  · obtain ⟨remap, out, seen⟩ := s
    cases hk : seen[NodeKey.shape (remapRhs remap (d.entry m).rhs)]? with
    | some k =>
      rw [cseStep_merge (by omega) hm hk]
      exact hinv.step_merge hwf (by omega) hm hk
    | none =>
      rw [cseStep_keep (by omega) hm hk]
      exact hinv.step_keep hwf (by omega) hm

end CseInv

/-- What `cse` knows after walking `m` outputs, from the state `s₂` reached at the end of the
function entries: the positions and entries of before stay, and each output is renamed and
kept last. -/
structure CseOutInv (d : Decomposition) (s₂ : CseState) (m : Nat) (s : CseState) : Prop where
  remap_size : s.1.size = d.size
  remap_below : ∀ j < d.functionsEnd, s.1[j]? = s₂.1[j]?
  out_size : s.2.1.size = s₂.2.1.size + m
  out_below : ∀ k < s₂.2.1.size, s.2.1[k]? = s₂.2.1[k]?
  outputs : ∀ m' < m, s.1[d.functionsEnd + m']? = some (s₂.2.1.size + m') ∧
    s.2.1[s₂.2.1.size + m']? =
      some { rhs := renameRhs (posOf s.1) (d.entry (d.functionsEnd + m')).rhs }

namespace CseOutInv

theorem init {s₂ : CseState} (h : s₂.1.size = d.size) : CseOutInv d s₂ 0 s₂ where
  remap_size := h
  remap_below := fun _ _ => rfl
  out_size := rfl
  out_below := fun _ _ => rfl
  outputs := fun _ h => absurd h (Nat.not_lt_zero _)

/-- One output: renamed and kept after everything else. -/
theorem step (hwf : d.WellFormed) {s₂ s : CseState} {m : Nat} (hinv : CseOutInv d s₂ m s)
    (hm : m < d.nOutputs) : CseOutInv d s₂ (m + 1) (d.cseStep s (d.functionsEnd + m)) := by
  obtain ⟨remap, out, seen⟩ := s
  have hsize := hwf.size_eq
  have hnp := hwf.nPrefix_le_functionsEnd
  have hi : d.functionsEnd + m < remap.size := by rw [hinv.remap_size]; omega
  have hstep : d.cseStep (remap, out, seen) (d.functionsEnd + m) =
      (remap.set! (d.functionsEnd + m) out.size,
        out.push { rhs := remapRhs remap (d.entry (d.functionsEnd + m)).rhs }, seen) := by
    simp [cseStep, Nat.not_lt.2 (Nat.le_trans hnp (Nat.le_add_right _ m))]
  have hout := hinv.out_size
  dsimp only at hout
  rw [hstep]
  have hother : ∀ j, j ≠ d.functionsEnd + m →
      (remap.set! (d.functionsEnd + m) out.size)[j]? = remap[j]? := fun j hj => by
    rw [Array.set!_eq_setIfInBounds, Array.getElem?_setIfInBounds_ne (Ne.symm hj)]
  refine ⟨?_, ?_, ?_, ?_, ?_⟩ <;> dsimp only
  case refine_1 => simp [hinv.remap_size]
  case refine_2 =>
    intro j hj
    rw [hother j (by omega)]
    exact hinv.remap_below j hj
  case refine_3 => simp only [Array.size_push]; omega
  case refine_4 =>
    intro k hk
    rw [← hinv.out_below k hk]
    rcases h : out[k]? with _ | e
    · rw [Array.getElem?_eq_none_iff] at h
      omega
    · exact getElem?_push_of_getElem? h
  case refine_5 =>
    intro m' hm'
    have hstable : renameRhs (posOf (remap.set! (d.functionsEnd + m) out.size))
        (d.entry (d.functionsEnd + m')).rhs =
          renameRhs (posOf remap) (d.entry (d.functionsEnd + m')).rhs :=
      renameRhs_set_of_le hwf (by omega) (by omega)
    rw [hstable]
    by_cases hmm : m' = m
    · subst hmm
      refine ⟨?_, ?_⟩
      · rw [Array.set!_eq_setIfInBounds, Array.getElem?_setIfInBounds_self_of_lt hi, hout]
      · rw [← hout, ← remapRhs_eq]
        exact getElem?_push_size
    · obtain ⟨hr, ho⟩ := hinv.outputs m' (by omega)
      exact ⟨by rw [hother _ (by omega)]; exact hr, getElem?_push_of_getElem? ho⟩

end CseOutInv

/-- The final state of the walk, read through its two phases; the first phase ends at the
walk over the prefix and the function entries. -/
theorem cse_walk (hwf : d.WellFormed) :
    ∃ s₂ s₃, CseInv d d.functionsEnd s₂ ∧ CseOutInv d s₂ d.nOutputs s₃ ∧
      cse d = { d with entries := s₃.2.1.mapIdx fun k e =>
        if k < d.nPrefix then e else { e with hidden := e.hidden.map (posOf s₃.1) } } ∧
      s₂ = (List.range d.functionsEnd).foldl d.cseStep (Array.replicate d.size 0, #[], {}) := by
  let init : CseState := (Array.replicate d.size 0, #[], {})
  let s₂ := (List.range d.functionsEnd).foldl d.cseStep init
  let s₃ := ((List.range d.nOutputs).map (d.functionsEnd + ·)).foldl d.cseStep s₂
  have h₂ : CseInv d d.functionsEnd s₂ := by
    have := foldl_range_induction d.cseStep 0 d.functionsEnd (CseInv d) (CseInv.init d)
      fun m t hm ht => by rw [Nat.zero_add]; exact ht.step hwf hm
    simpa using this
  have h₃ : CseOutInv d s₂ d.nOutputs s₃ :=
    foldl_range_induction d.cseStep d.functionsEnd d.nOutputs (CseOutInv d s₂)
      (CseOutInv.init h₂.remap_size) fun m t hm ht => ht.step hwf hm
  -- the walk over all entries is the walk over the function range, then over the outputs
  have hsplit : (List.range d.size).foldl d.cseStep init = s₃ := by
    rw [hwf.size_eq, List.range_add, List.foldl_append]
  refine ⟨s₂, s₃, h₂, h₃, ?_, rfl⟩
  rw [← hsplit]
  rfl

/-- `cse` renumbers a well-formed table, keeping every function entry: merged entries land on
the first entry of their kind, and the table does not grow. -/
theorem cse_renumbering (hwf : d.WellFormed) :
    ∃ r, Renumbering d (cse d) r (fun i => d.nPrefix ≤ i ∧ i < d.functionsEnd) ∧
      (cse d).size ≤ d.size := by
  obtain ⟨s₂, s₃, h₂, h₃, hcse, -⟩ := cse_walk hwf
  have hsize := hwf.size_eq
  have hnp := hwf.nPrefix_le_functionsEnd
  have hge := h₂.out_size_ge
  have hle := h₂.out_size_le
  rw [Nat.min_eq_right hnp] at hge
  -- positions below the outputs were fixed by the first phase
  have hpos : ∀ j < d.functionsEnd, posOf s₃.1 j = posOf s₂.1 j := fun j hj => by
    simp only [posOf, h₃.remap_below j hj]
  have hren : ∀ i < d.functionsEnd, renameRhs (posOf s₃.1) (d.entry i).rhs =
      renameRhs (posOf s₂.1) (d.entry i).rhs := fun i hi => renameRhs_congr fun j hj =>
    hpos j (by have := (hwf.refsBelow (by omega)).lt_of_mem_refs hj; omega)
  have hentry : ∀ k e, s₃.2.1[k]? = some e → (cse d).entry k =
      if k < d.nPrefix then e else { e with hidden := e.hidden.map (posOf s₃.1) } :=
    fun k e he => by
      rw [hcse]
      exact entry_of_getElem? (by rw [Array.getElem?_mapIdx, he]; rfl)
  have hsize' : (cse d).size = s₂.2.1.size + d.nOutputs := by
    rw [hcse, ← h₃.out_size]
    simp [size]
  have hend : (cse d).functionsEnd = s₂.2.1.size := by
    have hout : (cse d).nOutputs = d.nOutputs := by rw [hcse]
    unfold functionsEnd
    unfold size at hsize'
    omega
  have hkeep : ∀ i, d.nPrefix ≤ i → i < d.functionsEnd →
      ∃ k e, posOf s₃.1 i = k ∧ d.nPrefix ≤ k ∧ k < s₂.2.1.size ∧ s₂.2.1[k]? = some e ∧
        e.rhs.beq (renameRhs (posOf s₃.1) (d.entry i).rhs) = true := fun i hlo hhi => by
    obtain ⟨k, e, hk, hkp, he, hbeq⟩ := h₂.merged i hhi hlo
    refine ⟨k, e, by rw [hpos i hhi, posOf_of_getElem? hk], hkp,
      (Array.getElem?_eq_some_iff.1 he).1, he, ?_⟩
    rw [hren i hhi]
    exact hbeq
  refine ⟨posOf s₃.1, ⟨?_, ?_, ?_, ?_, ?_, ?_, ?_, ?_, ?_, ?_, ?_, ?_, ?_, ?_⟩, ?_⟩
  case refine_1 => rw [hcse]
  case refine_2 => rw [hcse]
  case refine_3 => rw [hcse]
  case refine_4 =>
    have : (cse d).nPrefix + (cse d).nOutputs = d.nPrefix + d.nOutputs := by rw [hcse]; rfl
    rw [this, hsize']
    omega
  case refine_5 =>
    -- the prefix is copied
    intro i hi
    rw [hentry i _ (by rw [h₃.out_below i (by omega)]; exact h₂.prefix_out i (by omega) hi),
      if_pos hi]
  case refine_6 =>
    intro i hi
    rw [hpos i (by omega)]
    exact posOf_of_getElem? (h₂.prefix_remap i (by omega) hi)
  case refine_7 =>
    intro m hm
    obtain ⟨-, ho⟩ := h₃.outputs m hm
    rw [hend, hentry _ _ ho, if_neg (by omega)]
  case refine_8 =>
    intro m hm j hj hjp
    exact ⟨hjp, hwf.output_refs_lt hm j hj⟩
  case refine_9 => exact fun i hi => hi
  case refine_10 =>
    rintro i ⟨hlo, hhi⟩
    obtain ⟨k, e, rfl, hkp, hk, -, -⟩ := hkeep i hlo hhi
    have : (cse d).nPrefix = d.nPrefix := by rw [hcse]; rfl
    rw [this, hend]
    exact ⟨hkp, hk⟩
  case refine_11 =>
    -- a merged entry lands on the first kept entry of its kind
    rintro i ⟨hlo, hhi⟩
    obtain ⟨k, e, rfl, hkp, hk, he, hbeq⟩ := hkeep i hlo hhi
    rw [hentry _ e (by rw [h₃.out_below _ hk]; exact he), if_neg (by omega)]
    exact hbeq
  case refine_12 =>
    rintro i ⟨hlo, hhi⟩ j hj hjp
    have := (hwf.refsBelow (by omega)).lt_of_mem_refs hj
    exact ⟨hjp, by omega⟩
  case refine_13 =>
    rintro i ⟨hlo, hhi⟩ h hh
    obtain ⟨h₁, h₂, -⟩ := hwf.hidden_entry i hlo hhi h hh
    exact ⟨h₁, h₂⟩
  case refine_14 =>
    -- every kept entry is the renaming of the entry that created it
    intro k hlo hhi
    have hnp' : (cse d).nPrefix = d.nPrefix := by rw [hcse]; rfl
    rw [hnp'] at hlo
    rw [hend] at hhi
    obtain ⟨i, hip, hif, hik, hout, hrefs⟩ := h₂.kept k hlo hhi
    refine ⟨i, ⟨hip, hif⟩, by rw [hpos i hif, posOf_of_getElem? hik], ?_, ?_⟩
    · rw [hentry k _ (by rw [h₃.out_below k hhi]; exact hout), if_neg (by omega), hren i hif]
    · intro j hj
      have := (hwf.refsBelow (by omega)).lt_of_mem_refs hj
      rw [hpos j (by omega)]
      exact hrefs j hj
  case refine_15 =>
    rw [hsize', hsize]
    omega

end Decomposition

end TaylorOde
