import TaylorOde.Proofs.Decomposition.Sizes
/-!
# Where the outputs point

The coefficients of an output are read on the tape at the position of the entry it names, in
every order, and the tape holds the entries before the outputs only. So every output must be a
literal or name an entry of the prefix or of the function range (`OutputsBelow`).

Like room, this asks nothing of the expressions. Lowering hands out references to entries it
has laid out only (`Builder.Bounded`), so the raw table has it (`ofPrepared_outputsBelow`);
every pass renames an output's reference through its table of new positions, and each pass
sends the entries below the outputs to new positions below the outputs (`cse_outputsBelow`,
`dce_outputsBelow`, `reorder_outputsBelow`). Read on the output references of emitted code:
every reference of a decomposition of a system names a position below the outputs
(`ofSystem_outputRefs_below`).
-/

namespace TaylorOde

namespace Decomposition

open TaylorOde.Expr

/-- An expression refers to no entry at or past `n`: it is no elementary variable, or it names
an earlier entry. -/
def RefersBelow (n : Nat) (x : Expr) : Prop := ∀ j, x.elemIndex? = some j → j < n

/-- Every output of a table is a literal or refers to an entry before the outputs. -/
def OutputsBelow (d : Decomposition) : Prop :=
  ∀ i, d.functionsEnd ≤ i → i < d.size → RefersBelow d.functionsEnd (d.entry i).rhs

variable {d : Decomposition} {n m : Nat} {x : Expr}

theorem RefersBelow.mono (h : RefersBelow n x) (hn : n ≤ m) : RefersBelow m x :=
  fun j hj => Nat.lt_of_lt_of_le (h j hj) hn

theorem refersBelow_elem {j : Nat} (hj : j < n) : RefersBelow n (elem j) := fun k hk => by
  rw [(eq_of_elemIndex?_elem hk).1]
  exact hj

theorem refersBelow_num (l : Literal) : RefersBelow n (.num l) := fun _ hj => by
  cases hj

theorem refersBelow_renameArg {r : Nat → Nat} (hr : ∀ j, x.elemIndex? = some j → r j < n) :
    RefersBelow n (renameArg r x) := by
  unfold renameArg
  cases hx : x.elemIndex? with
  | some j => exact refersBelow_elem (hr j hx)
  | none => exact fun k hk => by rw [hx] at hk; cases hk

/-- A renamed right-hand side refers below `n` when the renaming sends what it referred to
below `n`: a node refers to nothing, an elementary variable to its new position. -/
theorem refersBelow_renameRhs {r : Nat → Nat} (hr : ∀ j, x.elemIndex? = some j → r j < n) :
    RefersBelow n (renameRhs r x) := by
  cases x with
  | func t op args hh => exact fun _ hj => by cases hj
  | _ => exact refersBelow_renameArg hr

/-! ## The raw table -/

namespace Builder

/-- Everything a builder hands out refers to one of its entries. -/
structure Bounded (b : Builder) : Prop where
  var : ∀ (v : String) (i : Nat), b.varIndex[v]? = some i → i < b.entries.size
  par : ∀ (p : UInt32) (i : Nat), b.parIndex[p]? = some i → i < b.entries.size
  time : ∀ x, b.time = some x → RefersBelow b.entries.size x
  memo : ∀ (k : NodeKey) x, b.memo[k]? = some x → RefersBelow b.entries.size x

variable {b b' : Builder}

theorem Bounded.start (names : List String) (params : List UInt32) :
    (start names params).Bounded where
  var v i h := by
    have := (List.getElem?_eq_some_iff.1 (start_varIndex h)).1
    rw [start_size]
    omega
  par p i h := by
    obtain ⟨-, hp⟩ := start_parIndex h
    have := (List.getElem?_eq_some_iff.1 hp).1
    rw [start_size]
    omega
  time x h := by simp [Builder.start] at h
  memo k x h := by simp [Builder.start] at h

/-- Lowering the arguments of a node one after another, each as `lower` does. -/
theorem lowerArgs_bounded {args : List Expr}
    (ih : ∀ a ∈ args, ∀ (b b' : Builder) (x : Expr), b.Bounded → (lower a).run b = .ok (x, b') →
      b'.Bounded ∧ RefersBelow b'.entries.size x) :
    ∀ (b b' : Builder) (xs : List Expr), b.Bounded → (args.mapM lower).run b = .ok (xs, b') →
      b'.Bounded ∧ ∀ x ∈ xs, RefersBelow b'.entries.size x := by
  induction args with
  | nil =>
    intro b b' xs hb h
    obtain ⟨rfl, rfl⟩ := run_mapM_nil.1 h
    exact ⟨hb, by simp⟩
  | cons a args iha =>
    intro b b' xs hb h
    obtain ⟨x, b₁, xs', ha, hrest, rfl⟩ := run_mapM_cons.1 h
    obtain ⟨hb₁, hx⟩ := ih a List.mem_cons_self b b₁ x hb ha
    obtain ⟨hb', hxs⟩ := iha (fun a' ha' => ih a' (List.mem_cons_of_mem _ ha')) b₁ b' xs' hb₁ hrest
    have hext := lowerArgs_extends (fun a' _ => lower_extends a') b₁ b' xs' hrest
    refine ⟨hb', fun y hy => ?_⟩
    rcases List.mem_cons.1 hy with rfl | hy
    · exact hx.mono hext.1
    · exact hxs y hy

/-- Laying out the entry of the time keeps what a builder hands out bounded. -/
theorem Bounded.pushTime (hb : b.Bounded) :
    Bounded { b with entries := b.entries.push { rhs := .time }
                     time := some (elem b.entries.size) } where
  var v i h := Nat.lt_of_lt_of_le (hb.var v i h) (by simp)
  par p i h := Nat.lt_of_lt_of_le (hb.par p i h) (by simp)
  time x h := by
    obtain rfl : x = elem b.entries.size := (Option.some.inj h).symm
    exact refersBelow_elem (by simp)
  memo k x h := (hb.memo k x h).mono (by simp)

/-- Appending the entries of a node and memoizing it keeps what a builder hands out bounded. -/
theorem Bounded.appendMemo (hb : b.Bounded) (op : Op) (xs : List Expr) (k : NodeKey) :
    Bounded { (b.append op xs).1 with
      memo := (b.append op xs).1.memo.insert k (elem (b.append op xs).2) } := by
  have hgrow : b.entries.size ≤ (b.append op xs).1.entries.size := extends_append.1
  have hidx : (b.append op xs).2 < (b.append op xs).1.entries.size := by
    have hlay : (layout b.entries.size op xs).2 < (layout b.entries.size op xs).1.size ∧ _ :=
      layout_size
    simp only [append_index, append_entries, Array.size_append]
    omega
  refine ⟨fun v i h => ?_, fun p i h => ?_, fun x h => ?_, fun k' x h => ?_⟩
  · exact Nat.lt_of_lt_of_le (hb.var v i h) hgrow
  · exact Nat.lt_of_lt_of_le (hb.par p i h) hgrow
  · exact (hb.time x h).mono hgrow
  · simp only [append_memo] at h
    rw [Std.HashMap.getElem?_insert] at h
    split at h
    · obtain rfl := (Option.some.inj h).symm
      exact refersBelow_elem hidx
    · exact (hb.memo k' x h).mono hgrow

/-- Lowering keeps what a builder hands out bounded, and returns a literal or a reference to
one of its entries, whatever the expression. -/
theorem lower_bounded (e : Expr) : ∀ (b b' : Builder) (x : Expr), b.Bounded →
    (lower e).run b = .ok (x, b') → b'.Bounded ∧ RefersBelow b'.entries.size x := by
  induction e using Expr.recArgs with
  | num l =>
    intro b b' x hb h
    obtain ⟨rfl, rfl⟩ := lower_num_run.1 h
    exact ⟨hb, refersBelow_num l⟩
  | var v =>
    intro b b' x hb h
    obtain ⟨i, hi, rfl, rfl⟩ := lower_var_run.1 h
    exact ⟨hb, refersBelow_elem (hb.var v i hi)⟩
  | param p =>
    intro b b' x hb h
    obtain ⟨i, hi, rfl, rfl⟩ := lower_param_run.1 h
    exact ⟨hb, refersBelow_elem (hb.par p i hi)⟩
  | time =>
    intro b b' x hb h
    rcases lower_time_run.1 h with ⟨ht, rfl⟩ | ⟨-, rfl, rfl⟩
    · exact ⟨hb, hb.time x ht⟩
    · exact ⟨hb.pushTime, refersBelow_elem (by simp)⟩
  | func t op args hh ih =>
    intro b b' x hb h
    rcases lower_func_run.1 h with ⟨hm, rfl⟩ | ⟨-, xs, b₁, hargs, rfl, rfl⟩
    · exact ⟨hb, hb.memo _ x hm⟩
    · obtain ⟨hb₁, -⟩ := lowerArgs_bounded ih b b₁ xs hb hargs
      have hB := hb₁.appendMemo op xs (Expr.func t op args hh).key
      exact ⟨hB, hB.memo _ _ Std.HashMap.getElem?_insert_self⟩

end Builder

open Decomposition.Builder in
/-- Every output of the raw table is a literal or refers to an entry laid out before it. -/
theorem ofPrepared_outputsBelow {names : List String} {prepared : List Expr}
    (h : ofPrepared names prepared = .ok d) : d.OutputsBelow := by
  obtain ⟨refs, b, hrun, rfl⟩ := ofPrepared_eq_ok.1 h
  have hrefs := (lowerArgs_bounded (fun a _ => lower_bounded a) _ _ _
    (Bounded.start names (paramsOf prepared)) hrun).2
  have hlen := run_mapM_length hrun
  have hend : Decomposition.functionsEnd
      { entries := b.entries ++ (refs.map fun r => ({ rhs := r } : Entry)).toArray
        varNames := names, params := paramsOf prepared, nOutputs := prepared.length } =
      b.entries.size := by
    simp [Decomposition.functionsEnd, hlen]
  intro i hlo hhi
  rw [hend] at hlo ⊢
  simp only [size, Array.size_append, List.size_toArray, List.length_map] at hhi
  -- the output at `i` is the reference lowering returned for expression `i - b.entries.size`
  have hget : (b.entries ++ (refs.map fun r => ({ rhs := r } : Entry)).toArray)[i]? =
      some { rhs := refs[i - b.entries.size] } := by
    rw [Array.getElem?_append_right hlo]
    simp [List.getElem?_eq_getElem (show i - b.entries.size < refs.length by omega)]
  rw [entry_of_getElem? hget]
  exact hrefs _ (List.getElem_mem _)

/-! ## Merging common subexpressions -/

/-- What `cse` keeps of positions, whatever the entries look like: every entry walked and
every right-hand side seen has a position among the entries kept. -/
structure CsePositions (d : Decomposition) (m : Nat) (s : CseState) : Prop where
  remap_size : s.1.size = d.size
  prefix_le : min m d.nPrefix ≤ s.2.1.size
  remap_lt : ∀ j < m, posOf s.1 j < s.2.1.size
  seen_lt : ∀ (k : NodeKey) v, s.2.2[k]? = some v → v < s.2.1.size

namespace CsePositions

theorem init (d : Decomposition) : CsePositions d 0 (Array.replicate d.size 0, #[], {}) where
  remap_size := by simp [size]
  prefix_le := by simp
  remap_lt := by simp
  seen_lt := by simp

/-- An entry of the prefix or the function range gets a position among the entries kept: its
own, the next one, or that of the entry it is merged into. -/
theorem step {m : Nat} {s : CseState} (hinv : CsePositions d m s) (hm : m < d.functionsEnd) :
    CsePositions d (m + 1) (d.cseStep s m) := by
  obtain ⟨remap, out, seen⟩ := s
  have hmn : m < remap.size := by
    have := WellFormed.functionsEnd_le_size d
    rw [hinv.remap_size]
    omega
  have hbefore : ∀ v, ∀ j < m, posOf (remap.set! m v) j = posOf remap j :=
    fun v j hj => posOf_set_of_ne (by omega)
  have hge := hinv.prefix_le
  have hlt := hinv.remap_lt
  have hseen := hinv.seen_lt
  dsimp only at hge hlt hseen
  by_cases hp : m < d.nPrefix
  · have hstep : d.cseStep (remap, out, seen) m = (remap.set! m m, out.push (d.entry m), seen) := by
      simp [cseStep, hp]
    rw [hstep]
    refine ⟨by simp [hinv.remap_size], by simp; omega, fun j hj => ?_, fun k v hv => ?_⟩
    · simp only [Array.size_push]
      by_cases hjm : j = m
      · subst hjm
        rw [posOf_set_self hmn]
        omega
      · rw [hbefore m j (by omega)]
        have := hlt j (by omega)
        omega
    · have := hseen k v hv
      simp only [Array.size_push]
      omega
  cases hk : seen[NodeKey.shape (remapRhs remap (d.entry m).rhs)]? with
  | some k =>
    rw [CseInv.cseStep_merge (by omega) hm hk]
    refine ⟨by simp [hinv.remap_size], by dsimp only; omega, fun j hj => ?_, hseen⟩
    by_cases hjm : j = m
    · subst hjm
      rw [posOf_set_self hmn]
      exact hseen _ k hk
    · rw [hbefore k j (by omega)]
      exact hlt j (by omega)
  | none =>
    rw [CseInv.cseStep_keep (by omega) hm hk]
    refine ⟨by simp [hinv.remap_size], by simp; omega, fun j hj => ?_, fun k v hv => ?_⟩
    · simp only [Array.size_push]
      by_cases hjm : j = m
      · subst hjm
        rw [posOf_set_self hmn]
        omega
      · rw [hbefore _ j (by omega)]
        have := hlt j (by omega)
        omega
    · simp only [Array.size_push]
      rw [Std.HashMap.getElem?_insert] at hv
      split at hv
      · cases hv
        omega
      · have := hseen k v hv
        omega

end CsePositions

/-- `cse` at an output: renamed and kept last. -/
theorem cseStep_output {remap : Array Nat} {out : Array Entry} {seen : Std.HashMap NodeKey Nat}
    {i : Nat} (hp : d.nPrefix ≤ i) (hf : d.functionsEnd ≤ i) :
    d.cseStep (remap, out, seen) i =
      (remap.set! i out.size, out.push { rhs := remapRhs remap (d.entry i).rhs }, seen) := by
  simp [cseStep, Nat.not_lt.2 hp, hf]

/-- `cse` renames every output through the position of an entry before the outputs, so its
outputs still refer below them. -/
theorem cse_outputsBelow (hroom : d.Roomy) (h : d.OutputsBelow) : (cse d).OutputsBelow := by
  obtain ⟨hnp, hfe⟩ := hroom.bounds
  let init : CseState := (Array.replicate d.size 0, #[], {})
  let s₂ := (List.range d.functionsEnd).foldl d.cseStep init
  have h₂ : CsePositions d d.functionsEnd s₂ := by
    have := foldl_range_induction d.cseStep 0 d.functionsEnd (CsePositions d)
      (CsePositions.init d) fun m t hm ht => by rw [Nat.zero_add]; exact ht.step hm
    simpa using this
  -- over the outputs: positions before them stay, and each output is kept after the entries
  -- of `s₂`, referring below them
  let I : Nat → CseState → Prop := fun m s => s.1.size = d.size ∧
    (∀ j < d.functionsEnd, posOf s.1 j = posOf s₂.1 j) ∧ s.2.1.size = s₂.2.1.size + m ∧
    ∀ q, s₂.2.1.size ≤ q → q < s.2.1.size → RefersBelow s₂.2.1.size (s.2.1[q]?.getD default).rhs
  let s₃ := ((List.range d.nOutputs).map (d.functionsEnd + ·)).foldl d.cseStep s₂
  have h₃ : I d.nOutputs s₃ := by
    refine foldl_range_induction d.cseStep d.functionsEnd d.nOutputs I
      ⟨h₂.remap_size, fun _ _ => rfl, rfl, fun q hlo hhi => absurd hhi (by omega)⟩ ?_
    rintro m ⟨remap, out, seen⟩ hm ⟨hsize, hbelow, hout, hrefs⟩
    dsimp only at hsize hbelow hout hrefs
    rw [cseStep_output (by omega) (by omega)]
    refine ⟨by simp [hsize], fun j hj => ?_, by simp [hout]; omega, fun q hlo hhi => ?_⟩
    · rw [posOf_set_of_ne (by omega)]
      exact hbelow j hj
    · simp only [Array.size_push] at hhi
      by_cases hq : q = out.size
      · subst hq
        rw [Array.getElem?_push_size, Option.getD_some, remapRhs_eq]
        refine refersBelow_renameRhs fun j hj => ?_
        have hj' := h _ (by omega) (by omega) j hj
        rw [hbelow j hj']
        exact h₂.remap_lt j hj'
      · rw [Array.getElem?_push, if_neg hq]
        exact hrefs q hlo (by omega)
  obtain ⟨-, -, hout, hrefs⟩ := h₃
  have hsplit : (List.range d.size).foldl d.cseStep init = s₃ := by
    rw [← hfe, List.range_add, List.foldl_append]
  have hcse : cse d = { d with entries := s₃.2.1.mapIdx fun k e =>
      if k < d.nPrefix then e else { e with hidden := e.hidden.map fun h => s₃.1[h]?.getD 0 } } := by
    rw [← hsplit]
    rfl
  -- renaming the hidden dependencies leaves the right-hand sides
  have hrhs : ∀ q, ((cse d).entry q).rhs = (s₃.2.1[q]?.getD default).rhs := fun q => by
    rw [hcse]
    unfold entry
    simp only [Array.getElem?_mapIdx]
    cases s₃.2.1[q]? with
    | none => rfl
    | some e =>
      dsimp only [Option.map_some, Option.getD_some]
      split <;> rfl
  have hend : (cse d).functionsEnd = s₂.2.1.size := by
    have hn : (cse d).nOutputs = d.nOutputs := by rw [hcse]
    unfold Decomposition.functionsEnd
    rw [hn, hcse]
    simp only [Array.size_mapIdx]
    omega
  intro q hlo hhi
  rw [hend] at hlo ⊢
  rw [hrhs]
  have : (cse d).size = s₃.2.1.size := by rw [hcse]; simp [size]
  exact hrefs q hlo (by omega)

/-! ## Removing dead entries -/

/-- `dce` keeps the outputs last and renames each through the position of a live entry before
them, so its outputs still refer below them. -/
theorem dce_outputsBelow (hroom : d.Roomy) (h : d.OutputsBelow) : d.dce.OutputsBelow := by
  obtain ⟨hnp, hfe⟩ := hroom.bounds
  have hL := liveSet_inv hnp
  let q : Nat → Bool := fun j => d.liveSet[j]?.getD false
  have hq : ∀ j, d.liveSet[j]? = some true → q j = true := fun j hj => by simp [q, hj]
  have hdsize : d.dce.size = (List.range d.functionsEnd).countP q + d.nOutputs := by
    rw [dce_size, ← List.countP_eq_length_filter, ← hfe]
    exact countP_range_add_of_all fun j hlo hhi => hq j (hL.output_live j hlo (by omega))
  have hend : d.dce.functionsEnd = (List.range d.functionsEnd).countP q := by
    have : d.dce.nOutputs = d.nOutputs := rfl
    show d.dce.entries.size - d.dce.nOutputs = _
    unfold size at hdsize
    omega
  intro k hlo hhi
  rw [hend] at hlo ⊢
  -- position `k` holds a live entry `i`; past the live function entries, it is an output
  have hk : k < ((List.range d.size).filter q).length := by rw [← dce_size]; exact hhi
  obtain ⟨hi, hqi, hcount⟩ := filter_range_getElem hk
  have hget : ((List.range d.size).filter q)[k]? = some ((List.range d.size).filter q)[k] :=
    List.getElem?_eq_getElem hk
  generalize ((List.range d.size).filter q)[k] = i at hi hqi hcount hget
  have hif : d.functionsEnd ≤ i := Nat.not_lt.1 fun hlt => by
    have := countP_range_lt hlt hqi
    omega
  rw [dce_entry hget, if_neg (by omega)]
  refine refersBelow_renameRhs fun j hj => ?_
  have hjfe := h i hif hi j hj
  -- what a live entry refers to is live
  have hlive : d.liveSet[j]? = some true := by
    have hdep := (hL.closed i (hL.output_live i hif hi) (by omega)).1 j (mem_refs_of_elemIndex? hj)
    simp only [List.not_mem_nil, or_false] at hdep
    have hjl : j < d.liveSet.size := by rw [hL.size_eq]; omega
    rw [Array.getElem?_eq_getElem hjl] at hdep ⊢
    simpa using hdep
  rw [posOf_of_getElem? (liveRemap_getElem? hlive)]
  exact countP_range_lt hjfe (hq j hlive)

/-! ## Ordering by level -/

/-- `reorder` keeps the outputs last and in place, and sends every entry before them to a
place before them, so its outputs still refer below them. -/
theorem reorder_outputsBelow (hroom : d.Roomy) (h : d.OutputsBelow) :
    d.reorder.OutputsBelow := by
  obtain ⟨hnp, -⟩ := hroom.bounds
  obtain ⟨M, remap, order, hw⟩ := reorder_walk hnp
  have hend := hw.functionsEnd_eq hnp
  have hsize := hw.size_eq hnp
  have hpos : ∀ j < d.functionsEnd, posOf remap j < d.functionsEnd := fun j hj => by
    by_cases hjp : j < d.nPrefix
    · rw [hw.pos_prefix j hjp]
      exact hj
    · obtain ⟨k, hk, rfl⟩ := List.getElem_of_mem ((hw.mem_iff j).2 ⟨by omega, hj⟩)
      rw [hw.pos_placed k hk]
      have := hw.length_eq
      omega
  intro i hlo hhi
  rw [hend] at hlo ⊢
  rw [hsize] at hhi
  obtain ⟨m, rfl⟩ : ∃ m, i = d.functionsEnd + m := ⟨i - d.functionsEnd, by omega⟩
  rw [hw.entry_of_order (hw.order_output hnp hhi), if_neg (by omega)]
  exact refersBelow_renameRhs fun j hj => hpos j (h _ hlo hhi j hj)

/-! ## Builds -/

/-- Every combination of passes keeps the outputs referring below them. -/
theorem runPasses_outputsBelow (hroom : d.Roomy) (h : d.OutputsBelow) (merge order : Bool) :
    (runPasses merge order d).OutputsBelow := by
  cases merge <;> cases order
  · exact h
  · exact reorder_outputsBelow hroom h
  · exact dce_outputsBelow (cse_roomy hroom) (cse_outputsBelow hroom h)
  · exact reorder_outputsBelow (dce_roomy (cse_roomy hroom))
      (dce_outputsBelow (cse_roomy hroom) (cse_outputsBelow hroom h))

/-- Every output of a build with sums of at least two terms is a literal or refers to an entry
before the outputs. -/
theorem build_outputsBelow {names : List String} {outputs : List Expr} {opts : DecomposeOptions}
    (hsplit : 2 ≤ opts.sumSplit) (h : build names outputs opts = .ok d) : d.OutputsBelow := by
  rw [build_eq hsplit] at h
  cases hraw : ofPrepared names (preparedOf opts.sumSplit outputs) with
  | error e =>
    rw [hraw] at h
    cases h
  | ok d₀ =>
    rw [hraw] at h
    cases h
    exact runPasses_outputsBelow (ofPrepared_roomy hraw).2.2 (ofPrepared_outputsBelow hraw)
      opts.cse opts.reorder

/-- The output references of a decomposition whose outputs refer below them name positions
before the outputs. -/
theorem OutputsBelow.outputRefs (h : d.OutputsBelow) {j i : Nat}
    (hj : d.outputRefs[j]? = some (.entry i)) : i < d.functionsEnd := by
  simp only [Decomposition.outputRefs, List.getElem?_map] at hj
  cases ho : d.outputs[j]? with
  | none =>
    rw [ho] at hj
    cases hj
  | some o =>
    rw [ho] at hj
    simp only [Option.map_some, Option.some.injEq] at hj
    have hget : d.entries[d.functionsEnd + j]? = some o := by
      rw [← outputs_getElem?]
      exact ho
    have hlt := (Array.getElem?_eq_some_iff.1 hget).1
    have hrefs := h (d.functionsEnd + j) (by omega) hlt
    rw [entry_of_getElem? hget] at hrefs
    revert hj
    split
    · rename_i k hk
      intro hj
      cases hj
      exact hrefs _ hk
    · intro hj
      cases hj
    · intro hj
      cases hj

/-- Every output reference of a decomposition of a system with extra expressions, with sums of
at least two terms, names a position before the outputs. -/
theorem ofSystem_outputRefs_below {sys : OdeSystem} {extra : List Expr} {opts : DecomposeOptions}
    (hsplit : 2 ≤ opts.sumSplit) (h : ofSystem sys extra opts = .ok d) {j i : Nat}
    (hj : d.outputRefs[j]? = some (.entry i)) : i < d.functionsEnd :=
  (build_outputsBelow hsplit (ofSystem_ok h).2).outputRefs hj

end Decomposition

end TaylorOde
