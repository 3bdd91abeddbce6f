import TaylorOde.Proofs.Decomposition.Pipeline
/-!
# Merged tables are minimal

When a build merges common subexpressions (`cse`, then `dce`), the table it returns holds no
function entry twice and none in vain:

* no two function entries have structurally equal right-hand sides (`DistinctRhs`);
* every function entry is reached from an output through the references and hidden
  dependencies of function entries (`Reaches`, `AllReached`).

Shape of the proof:

* `cse` keeps an entry only when its renamed right-hand side is missing from the table of
  right-hand sides seen, and enters the right-hand side of every entry it keeps there
  (`CseSeen`), so the entries it keeps are distinct (`cse_distinctRhs`).
* `liveSet` marks an entry only when it pops it from a stack holding reached entries
  (`LiveSound`), so `dce` keeps reached entries only (`dce_allReached`).
* Both facts survive `dce` and `reorder`: these renumber through positions that are one to one
  on what they keep (`Renumbering.distinctRhs`, `Renumbering.allReached`), and every pass writes
  right-hand sides whose arguments are elementary names and literals (`Rebuilt`), on which
  renaming one to one keeps structural equality exact.

Main statement: `merged_decomposition_minimal`.
-/

namespace TaylorOde

namespace Decomposition

open TaylorOde.Expr

/-! ## Distinct and reached entries -/

/-- No two function entries of the table have structurally equal right-hand sides. -/
def DistinctRhs (d : Decomposition) : Prop :=
  ∀ i j, d.nPrefix ≤ i → i < d.functionsEnd → d.nPrefix ≤ j → j < d.functionsEnd → i ≠ j →
    (d.entry i).rhs.beq (d.entry j).rhs = false

/-- Entry `j` is reached from an output of the table through the references and hidden
dependencies of function entries. -/
inductive Reaches (d : Decomposition) : Nat → Prop
  | output {m j : Nat} : m < d.nOutputs → j ∈ (d.entry (d.functionsEnd + m)).refs →
      Reaches d j
  | ref {i j : Nat} : Reaches d i → d.nPrefix ≤ i → i < d.functionsEnd →
      j ∈ (d.entry i).refs → Reaches d j
  | hidden {i h : Nat} : Reaches d i → d.nPrefix ≤ i → i < d.functionsEnd →
      h ∈ (d.entry i).hidden → Reaches d h

/-- Every function entry of the table is reached from an output. -/
def AllReached (d : Decomposition) : Prop :=
  ∀ i, d.nPrefix ≤ i → i < d.functionsEnd → d.Reaches i

/-! ## Right-hand sides as the passes write them -/

/-- An argument as a pass writes it: an elementary name of a 64-bit index, or a literal. -/
def RebuiltArg (a : Expr) : Prop :=
  (∃ j ≤ Variable.wordMax, a = elem j) ∨ ∃ n, a = .num n

/-- A right-hand side as a pass writes it: the time, or a fresh node of its operator over
arguments written by the pass. -/
def Rebuilt (e : Expr) : Prop :=
  e = .time ∨ ∃ op args, e = node .anon op args ∧ ∀ a ∈ args, RebuiltArg a

/-- Every function entry of the table has a right-hand side written by a pass. -/
def AllRebuilt (d : Decomposition) : Prop :=
  ∀ i, d.nPrefix ≤ i → i < d.functionsEnd → Rebuilt (d.entry i).rhs

theorem elem_beq_elem {x y : Nat} (h : (elem x).beq (elem y) = true) : x = y := by
  simp only [elem, Expr.beq, beq_iff_eq] at h
  exact Variable.elementary_inj h

/-- An argument written by a pass is renamed to the name of its new position. -/
theorem RebuiltArg.rename (r : Nat → Nat) {a : Expr} (ha : RebuiltArg a) :
    (∃ j ≤ Variable.wordMax, a = elem j ∧ renameArg r a = elem (r j)) ∨
      ∃ n, a = .num n ∧ renameArg r a = a := by
  rcases ha with ⟨j, hj, rfl⟩ | ⟨n, rfl⟩
  · exact .inl ⟨j, hj, rfl, renameArg_elem r hj⟩
  · exact .inr ⟨n, rfl, rfl⟩

/-- Renaming through a map one to one on their names keeps two arguments written by a pass
apart unless they were equal. -/
theorem RebuiltArg.beq_of_rename {r : Nat → Nat} {a b : Expr} (ha : RebuiltArg a)
    (hb : RebuiltArg b) (hinj : ∀ j j', a = elem j → b = elem j' → r j = r j' → j = j')
    (h : (renameArg r a).beq (renameArg r b) = true) : a.beq b = true := by
  rcases ha.rename r with ⟨j, -, rfl, hra⟩ | ⟨n, rfl, hra⟩ <;>
    rcases hb.rename r with ⟨j', -, rfl, hrb⟩ | ⟨n', rfl, hrb⟩ <;>
    rw [hra, hrb] at h
  · rw [hinj j j' rfl rfl (elem_beq_elem h)]
    exact beq_self _
  · simp [elem, Expr.beq] at h
  · simp [elem, Expr.beq] at h
  · exact h

/-- Renaming through a map one to one on their references keeps two right-hand sides written
by a pass apart unless they were equal. -/
theorem Rebuilt.beq_of_rename {r : Nat → Nat} {a b : Expr} (ha : Rebuilt a) (hb : Rebuilt b)
    (hinj : ∀ j j', elem j ∈ a.args → elem j' ∈ b.args → r j = r j' → j = j')
    (h : (renameRhs r a).beq (renameRhs r b) = true) : a.beq b = true := by
  rcases ha with rfl | ⟨op, xs, rfl, hxs⟩ <;> rcases hb with rfl | ⟨op', ys, rfl, hys⟩
  · rfl
  · simp [renameRhs, renameArg, node, Expr.elemIndex?, Expr.beq] at h
  · simp [renameRhs, renameArg, node, Expr.elemIndex?, Expr.beq] at h
  · rw [renameRhs_node, renameRhs_node] at h
    obtain ⟨-, rfl, hargs⟩ := func_beq_func.1 h
    refine node_beq_node _ _ _ ?_
    -- the arguments pair up, and each pair was equal before the renaming
    have hpairs := List.forall₂_map_left_iff.1 (List.forall₂_map_right_iff.1 hargs)
    clear h hargs
    induction hpairs with
    | nil => exact .nil
    | @cons x y xs' ys' hxy _ ih =>
      refine .cons ?_ (ih (fun a ha => hxs a (List.mem_cons_of_mem _ ha))
        (fun a ha => hys a (List.mem_cons_of_mem _ ha)) fun j j' hj hj' =>
          hinj j j' (by simp [node, Expr.args] at hj ⊢; exact .inr hj)
            (by simp [node, Expr.args] at hj' ⊢; exact .inr hj'))
      refine (hxs x (List.mem_cons_self ..)).beq_of_rename (hys y (List.mem_cons_self ..))
        (fun j j' hx hy hjj => hinj j j' ?_ ?_ hjj) hxy
      · simp [node, Expr.args, ← hx]
      · simp [node, Expr.args, ← hy]

/-! ## Renumberings one to one on what they keep -/

section Renumber

variable {d d' : Decomposition} {r : Nat → Nat} {keep : Nat → Prop}

/-- `r` sends distinct entries of the prefix or of `keep` to distinct positions. -/
def InjOnKept (d : Decomposition) (r : Nat → Nat) (keep : Nat → Prop) : Prop :=
  ∀ i j, (i < d.nPrefix ∨ keep i) → (j < d.nPrefix ∨ keep j) → r i = r j → i = j

/-- A renamed right-hand side refers to the new position of every old reference that has an
elementary name. -/
theorem mem_refs_of_renameRhs {e e' : Entry} (he : e'.rhs = renameRhs r e.rhs) {j : Nat}
    (hj : j ∈ e.refs) (hw : r j ≤ Variable.wordMax) : r j ∈ e'.refs := by
  cases hrhs : e.rhs with
  | func t op args hh =>
    obtain ⟨a, ha, hja⟩ := (mem_refs_iff hrhs).1 hj
    rw [hrhs, renameRhs] at he
    refine (mem_refs_iff he).2 ⟨renameArg r a, List.mem_map_of_mem ha, ?_⟩
    simp [renameArg, hja, elemIndex?_elem hw]
  | _ =>
    -- an atom refers to its own elementary index, renamed to that of its new position
    have hji : e.rhs.elemIndex? = some j := by
      unfold Entry.refs at hj
      rw [hrhs] at hj ⊢
      simpa using hj
    rw [hrhs] at hji
    refine mem_refs_of_elemIndex? ?_
    rw [he, hrhs]
    simp only [renameRhs, renameArg, hji]
    exact elemIndex?_elem hw

/-- Where the renaming is one to one, the entry a kept entry lands on is its renaming. -/
theorem Renumbering.entry_of_keep (hr : Renumbering d d' r keep) (hinj : InjOnKept d r keep)
    {i : Nat} (hi : keep i) :
    d'.entry (r i) = { rhs := renameRhs r (d.entry i).rhs, hidden := (d.entry i).hidden.map r } := by
  obtain ⟨hlo, hhi⟩ := hr.keep_map i hi
  obtain ⟨i', hi', hri', he, -⟩ := hr.source (r i) hlo hhi
  rw [he, hinj i' i (.inr hi') (.inr hi) hri']

/-- A renumbering writes every function entry of the new table by a pass. -/
theorem Renumbering.allRebuilt (hr : Renumbering d d' r keep) (hwf : d.WellFormed)
    (hfit' : d'.Fits) : d'.AllRebuilt := by
  intro k hlo hhi
  obtain ⟨i, hi, rfl, he, hrefs⟩ := hr.source k hlo hhi
  obtain ⟨hilo, hihi⟩ := hr.keep_function i hi
  have hfun := hwf.function_entry i hilo hihi
  have hsize := WellFormed.functionsEnd_le_size d'
  unfold Fits at hfit'
  rw [he]
  cases hrhs : (d.entry i).rhs with
  | time => exact .inl rfl
  | func t op args hh =>
    rw [hrhs] at hfun
    refine .inr ⟨op, args.map (renameArg r), rfl, ?_⟩
    simp only [List.mem_map]
    rintro _ ⟨a, ha, rfl⟩
    rcases hfun a ha with ⟨j, hj, -⟩ | ⟨hnone, hnum⟩
    · -- a reference lands before the entry, so its new position has an elementary name
      have hlt := hrefs j ((mem_refs_iff hrhs).2 ⟨a, ha, hj⟩)
      exact .inl ⟨r j, by omega, by simp [renameArg, hj]⟩
    · rw [renameArg_of_elemIndex?_none r hnone]
      cases a <;> simp_all [Expr.isNumber, RebuiltArg]
  | _ =>
    rw [hrhs] at hfun
    exact hfun.elim

/-- A reference of a kept entry written by a pass is in the prefix or kept. -/
theorem Renumbering.kept_of_mem_args (hr : Renumbering d d' r keep) (hreb : d.AllRebuilt)
    {i j : Nat} (hi : keep i) (hj : elem j ∈ (d.entry i).rhs.args) : j < d.nPrefix ∨ keep j := by
  obtain ⟨hilo, hihi⟩ := hr.keep_function i hi
  rcases hreb i hilo hihi with hrhs | ⟨op, args, hrhs, hargs⟩
  · rw [hrhs] at hj
    cases hj
  rw [hrhs] at hj
  rcases hargs _ hj with ⟨j', hj', heq⟩ | ⟨n, heq⟩
  · have hjj : j = j' := elem_beq_elem (by rw [heq]; exact beq_self _)
    subst hjj
    have href : j ∈ (d.entry i).refs :=
      (mem_refs_iff (hrhs.trans rfl)).2 ⟨elem j, hj, elemIndex?_elem hj'⟩
    by_cases hp : j < d.nPrefix
    · exact .inl hp
    · exact .inr (hr.keep_refs i hi j href (by omega))
  · simp [elem] at heq

/-- A renumbering one to one on what it keeps keeps the right-hand sides of a table written by a
pass distinct. -/
theorem Renumbering.distinctRhs (hr : Renumbering d d' r keep) (hreb : d.AllRebuilt)
    (hinj : InjOnKept d r keep) (hd : d.DistinctRhs) : d'.DistinctRhs := by
  intro k k' hk hkf hk' hkf' hne
  obtain ⟨i, hi, rfl, hei, -⟩ := hr.source k hk hkf
  obtain ⟨i', hi', rfl, hei', -⟩ := hr.source k' hk' hkf'
  obtain ⟨hilo, hihi⟩ := hr.keep_function i hi
  obtain ⟨hilo', hihi'⟩ := hr.keep_function i' hi'
  have hii : i ≠ i' := fun h => hne (h ▸ rfl)
  rw [hei, hei']
  cases hb : (renameRhs r (d.entry i).rhs).beq (renameRhs r (d.entry i').rhs) with
  | false => rfl
  | true =>
    -- equal renamings come from equal right-hand sides, which `d` has not
    have hbeq := (hreb i hilo hihi).beq_of_rename (hreb i' hilo' hihi')
      (fun j j' hj hj' hjj => hinj j j' (hr.kept_of_mem_args hreb hi hj)
        (hr.kept_of_mem_args hreb hi' hj') hjj) hb
    rw [hd i i' hilo hihi hilo' hihi' hii] at hbeq
    cases hbeq

/-- A renumbering one to one on what it keeps carries every reached function entry to a kept
entry reached in the new table. -/
theorem Renumbering.reaches (hr : Renumbering d d' r keep) (hinj : InjOnKept d r keep)
    (hfit' : d'.Fits) {j : Nat} (hj : d.Reaches j) :
    d.nPrefix ≤ j → j < d.functionsEnd → keep j ∧ d'.Reaches (r j) := by
  have hsize := WellFormed.functionsEnd_le_size d'
  unfold Fits at hfit'
  have hw : ∀ x, keep x → r x ≤ Variable.wordMax := fun x hx => by
    have := (hr.keep_map x hx).2
    omega
  induction hj with
  | @output m j hm hjm =>
    intro hlo _
    have hk := hr.output_keep m hm j hjm hlo
    refine ⟨hk, .output (m := m) (by rw [hr.nOutputs_eq]; exact hm) ?_⟩
    exact mem_refs_of_renameRhs (hr.output_rhs m hm) hjm (hw j hk)
  | @ref i j _ hilo hihi hji ih =>
    intro hlo _
    obtain ⟨hki, hri⟩ := ih hilo hihi
    have hk := hr.keep_refs i hki j hji hlo
    obtain ⟨hrlo, hrhi⟩ := hr.keep_map i hki
    refine ⟨hk, .ref hri hrlo hrhi ?_⟩
    exact mem_refs_of_renameRhs (by rw [hr.entry_of_keep hinj hki]) hji (hw j hk)
  | @hidden i h _ hilo hihi hhi ih =>
    intro _ _
    obtain ⟨hki, hri⟩ := ih hilo hihi
    have hk := hr.keep_hidden i hki h hhi
    obtain ⟨hrlo, hrhi⟩ := hr.keep_map i hki
    refine ⟨hk, .hidden hri hrlo hrhi ?_⟩
    rw [hr.entry_of_keep hinj hki]
    exact List.mem_map_of_mem hhi

/-- A renumbering one to one on what it keeps, from a table whose function entries are all
reached, gives a table whose function entries are all reached. -/
theorem Renumbering.allReached (hr : Renumbering d d' r keep) (hinj : InjOnKept d r keep)
    (hfit' : d'.Fits) (hd : ∀ i, keep i → d.Reaches i) : d'.AllReached := by
  intro k hlo hhi
  obtain ⟨i, hi, rfl, -, -⟩ := hr.source k hlo hhi
  obtain ⟨hilo, hihi⟩ := hr.keep_function i hi
  exact (hr.reaches hinj hfit' (hd i hi) hilo hihi).2

end Renumber

/-! ## `cse` keeps distinct right-hand sides -/

section Cse

variable {d : Decomposition}

/-- What `cse` knows of the entries it has kept: the right-hand side of every kept function
entry is a key of the table seen, and no two kept function entries are structurally equal. -/
structure CseSeen (d : Decomposition) (s : CseState) : Prop where
  seen : ∀ k e, d.nPrefix ≤ k → s.2.1[k]? = some e → (s.2.2[NodeKey.shape e.rhs]?).isSome
  distinct : ∀ k k' e e', d.nPrefix ≤ k → d.nPrefix ≤ k' → k ≠ k' → s.2.1[k]? = some e →
    s.2.1[k']? = some e' → e.rhs.beq e'.rhs = false

namespace CseSeen

theorem init (d : Decomposition) : CseSeen d (Array.replicate d.size 0, #[], {}) where
  seen := by simp
  distinct := by simp

/-- A right-hand side missing from the table seen differs from every one kept. -/
theorem fresh {remap : Array Nat} {out : Array Entry} {seen : Std.HashMap NodeKey Nat}
    (hs : CseSeen d (remap, out, seen)) {x : Expr} (hx : seen[NodeKey.shape x]? = none)
    {k : Nat} {e : Entry} (hk : d.nPrefix ≤ k) (he : out[k]? = some e) : e.rhs.beq x = false := by
  cases hb : e.rhs.beq x with
  | false => rfl
  | true =>
    have hsome := hs.seen k e hk he
    rw [Std.HashMap.getElem?_congr (show (NodeKey.shape e.rhs == NodeKey.shape x) = true from hb),
      hx] at hsome
    cases hsome

/-- One step of the walk over the prefix and the function entries. -/
theorem step {m : Nat} {s : CseState} (hinv : CseInv d m s)
    (hs : CseSeen d s) (hm : m < d.functionsEnd) : CseSeen d (d.cseStep s m) := by
  obtain ⟨remap, out, seen⟩ := s
  by_cases hp : m < d.nPrefix
  · -- a prefix entry lands below the function range
    have hge := hinv.out_size_ge
    have hle := hinv.out_size_le
    dsimp only at hge hle
    have hsize : out.size = m := by rw [Nat.min_eq_left (Nat.le_of_lt hp)] at hge; omega
    have hstep : d.cseStep (remap, out, seen) m = (remap.set! m m, out.push (d.entry m), seen) := by
      simp [cseStep, hp]
    have hbelow : ∀ k, d.nPrefix ≤ k → (out.push (d.entry m))[k]? = out[k]? := fun k hk => by
      rw [Array.getElem?_push, if_neg (by omega)]
    rw [hstep]
    exact ⟨fun k e hk he => hs.seen k e hk (by rwa [hbelow k hk] at he),
      fun k k' e e' hk hk' hne he he' =>
        hs.distinct k k' e e' hk hk' hne (by rwa [hbelow k hk] at he) (by rwa [hbelow k' hk'] at he')⟩
  cases hk : seen[NodeKey.shape (remapRhs remap (d.entry m).rhs)]? with
  | some k =>
    rw [CseInv.cseStep_merge (by omega) hm hk]
    exact ⟨hs.seen, hs.distinct⟩
  | none =>
    -- a kept entry: its right-hand side was not seen, and is entered now
    rw [CseInv.cseStep_keep (by omega) hm hk]
    set x := remapRhs remap (d.entry m).rhs
    have hnew : ∀ k e, d.nPrefix ≤ k → out[k]? = some e → e.rhs.beq x = false :=
      fun k e hk' he => hs.fresh hk hk' he
    have hpush : ∀ k e, (out.push { rhs := x, hidden := (d.entry m).hidden })[k]? = some e →
        (k = out.size ∧ e = { rhs := x, hidden := (d.entry m).hidden }) ∨
          (k ≠ out.size ∧ out[k]? = some e) := fun k e he => by
      rw [Array.getElem?_push] at he
      split at he
      · exact .inl ⟨‹_›, (Option.some.inj he).symm⟩
      · exact .inr ⟨‹_›, he⟩
    constructor
    · intro k e hk' he
      rw [Std.HashMap.getElem?_insert]
      rcases hpush k e he with ⟨-, rfl⟩ | ⟨-, he⟩
      · simp
      · split
        · rfl
        · exact hs.seen k e hk' he
    · intro k k' e e' hk₁ hk₂ hne he he'
      rcases hpush k e he with ⟨rfl, rfl⟩ | ⟨hk₃, he⟩ <;>
        rcases hpush k' e' he' with ⟨rfl, rfl⟩ | ⟨hk₄, he'⟩
      · exact absurd rfl hne
      · -- the new entry against an old one
        cases hb : x.beq e'.rhs with
        | false => rfl
        | true =>
          have := hnew k' e' hk₂ he'
          rw [beq_symm _ _ hb] at this
          cases this
      · exact hnew k e hk₁ he
      · exact hs.distinct k k' e e' hk₁ hk₂ hne he he'

end CseSeen

/-- After the prefix and the function entries, `cse` has kept distinct right-hand sides. -/
theorem cseSeen_walk (hwf : d.WellFormed) :
    CseSeen d ((List.range d.functionsEnd).foldl d.cseStep (Array.replicate d.size 0, #[], {})) := by
  have := foldl_range_induction d.cseStep 0 d.functionsEnd
    (fun m s => CseInv d m s ∧ CseSeen d s) ⟨CseInv.init d, CseSeen.init d⟩
    fun m t hm ⟨hi, hs⟩ => by
      rw [Nat.zero_add]
      exact ⟨hi.step hwf hm, hs.step hi hm⟩
  simpa using this.2

/-- `cse` leaves no two function entries with structurally equal right-hand sides. -/
theorem cse_distinctRhs (hwf : d.WellFormed) : (cse d).DistinctRhs := by
  obtain ⟨s₂, s₃, h₂, h₃, hcse, hs₂⟩ := cse_walk hwf
  have hseen : CseSeen d s₂ := hs₂ ▸ cseSeen_walk hwf
  have hsize' : (cse d).size = s₂.2.1.size + d.nOutputs := by
    rw [hcse, ← h₃.out_size]
    simp [size]
  -- the function range of `cse d` is what the first phase kept
  have hend : (cse d).functionsEnd = s₂.2.1.size := by
    have hout : (cse d).nOutputs = d.nOutputs := by rw [hcse]
    unfold functionsEnd
    unfold size at hsize'
    omega
  have hrhs : ∀ k e, s₂.2.1[k]? = some e → ((cse d).entry k).rhs = e.rhs := fun k e he => by
    have hk : k < s₂.2.1.size := (Array.getElem?_eq_some_iff.1 he).1
    rw [hcse, entry_of_getElem? (by rw [Array.getElem?_mapIdx, h₃.out_below k hk, he]; rfl)]
    split <;> rfl
  intro i j hi hif hj hjf hij
  rw [hend] at hif hjf
  have hnp : (cse d).nPrefix = d.nPrefix := by rw [hcse]; rfl
  rw [hnp] at hi hj
  rw [hrhs i _ (Array.getElem?_eq_getElem hif), hrhs j _ (Array.getElem?_eq_getElem hjf)]
  exact hseen.distinct i j _ _ hi hj hij (Array.getElem?_eq_getElem hif)
    (Array.getElem?_eq_getElem hjf)

end Cse

/-! ## `dce` keeps reached entries -/

section Live

variable {d : Decomposition}

/-- What `liveSet` knows of what it marks: every entry waiting on the stack is reached, and so
is every function entry marked live. -/
structure LiveSound (d : Decomposition) (live : Array Bool) (stack : List Nat) : Prop where
  stack_reached : ∀ j ∈ stack, d.Reaches j
  live_reached : ∀ i, live[i]? = some true → d.nPrefix ≤ i → i < d.functionsEnd → d.Reaches i

/-- An entry the marking loop finds unmarked is a function entry: the prefix and the outputs
are marked from the start. -/
theorem LiveInv.function_of_dead {live : Array Bool} {stack : List Nat}
    (hinv : LiveInv d live stack) {j : Nat} (hj : live[j]? = some false) :
    d.nPrefix ≤ j ∧ j < d.functionsEnd := by
  have hjs : j < d.size := hinv.size_eq ▸ (Array.getElem?_eq_some_iff.1 hj).1
  refine ⟨Nat.not_lt.1 fun hp => ?_, Nat.not_le.1 fun hf => ?_⟩
  · rw [hinv.prefix_live j hp] at hj
    cases hj
  · rw [hinv.output_live j hf hjs] at hj
    cases hj

/-- The marking loop marks reached entries only: an entry is marked when popped, and what it
pushes is reached through it. -/
theorem LiveSound.go {live : Array Bool} {stack : List Nat} {fuel : Nat}
    (hinv : LiveInv d live stack) (hs : LiveSound d live stack) :
    LiveSound d (liveSet.go d live stack fuel) [] := by
  have hdone : LiveSound d live [] := ⟨by simp, hs.live_reached⟩
  induction fuel generalizing live stack with
  | zero => cases stack <;> simpa [liveSet.go] using hdone
  | succ fuel ih =>
    cases stack with
    | nil => simpa [liveSet.go] using hdone
    | cons j stack =>
      have hj : d.Reaches j := hs.stack_reached j List.mem_cons_self
      have hrest : ∀ x ∈ stack, d.Reaches x := fun x hx =>
        hs.stack_reached x (List.mem_cons_of_mem _ hx)
      rw [liveSet.go]
      split
      · exact ih (hinv.pop_live ‹_›) ⟨hrest, hs.live_reached⟩ ⟨by simp, hs.live_reached⟩
      · have hj' := getElem?_false_of_getD ‹_›
        obtain ⟨hlo, hhi⟩ := hinv.function_of_dead hj'
        have hs' : LiveSound d (live.set! j true)
            (((d.entry j).hidden.reverse ++ (d.entry j).refs.reverse) ++ stack) := by
          refine ⟨fun x hx => ?_, fun i hi hilo hihi => ?_⟩
          · simp only [List.mem_append, List.mem_reverse] at hx
            rcases hx with (hx | hx) | hx
            · exact .hidden hj hlo hhi hx
            · exact .ref hj hlo hhi hx
            · exact hrest x hx
          · by_cases hij : i = j
            · exact hij ▸ hj
            · rw [Array.set!_eq_setIfInBounds, Array.getElem?_setIfInBounds_ne (Ne.symm hij)] at hi
              exact hs.live_reached i hi hilo hihi
        exact ih (hinv.pop_dead hj') hs' ⟨by simp, hs'.live_reached⟩

/-- The marking loop starts sound: the stack holds the references of the outputs, and no
function entry is marked. -/
theorem liveSound_start (hwf : d.WellFormed) :
    let outs := (List.range d.size).drop d.functionsEnd
    let live := outs.foldl (fun l i => l.set! i true)
      ((Array.replicate d.size false).mapIdx fun i _ => decide (i < d.nPrefix))
    LiveSound d live (outs.flatMap fun i => (d.entry i).refs) := by
  intro outs live
  have hsize := hwf.size_eq
  refine ⟨fun j hj => ?_, fun i hi hlo hhi => ?_⟩
  · obtain ⟨i, hi, hj⟩ := List.mem_flatMap.1 hj
    obtain ⟨hfe, his⟩ := mem_drop_range.1 hi
    exact .output (m := i - d.functionsEnd) (by omega)
      (by rwa [Nat.add_sub_cancel' hfe])
  · rw [liveStart_getElem?, if_pos (by omega)] at hi
    simp only [Option.some.injEq, Bool.or_eq_true, decide_eq_true_eq] at hi
    omega

/-- Every function entry `liveSet` marks is reached from an output. -/
theorem liveSet_reached (hwf : d.WellFormed) {i : Nat} (hi : d.liveSet[i]? = some true)
    (hlo : d.nPrefix ≤ i) (hhi : i < d.functionsEnd) : d.Reaches i :=
  have h : LiveSound d d.liveSet [] :=
    LiveSound.go (liveSet_start hwf.nPrefix_le_functionsEnd) (liveSound_start hwf)
  h.live_reached i hi hlo hhi

/-- `dce` moves the entries it keeps to distinct places: a live entry moves to the number of
live entries before it. -/
theorem liveRemap_injOnKept (hnp : d.nPrefix ≤ d.functionsEnd) :
    InjOnKept d (posOf (liveRemap d.liveSet))
      (fun i => d.liveSet[i]? = some true ∧ d.nPrefix ≤ i ∧ i < d.functionsEnd) := by
  have hL := liveSet_inv hnp
  let q : Nat → Bool := fun j => d.liveSet[j]?.getD false
  have hat : ∀ i, (i < d.nPrefix ∨ d.liveSet[i]? = some true ∧ d.nPrefix ≤ i ∧
      i < d.functionsEnd) → q i = true ∧ posOf (liveRemap d.liveSet) i = (List.range i).countP q :=
    fun i hi => by
      have hlive : d.liveSet[i]? = some true := hi.elim (hL.prefix_live i) And.left
      exact ⟨by simp [q, hlive], posOf_of_getElem? (liveRemap_getElem? hlive)⟩
  intro i j hi hj hij
  obtain ⟨hqi, hri⟩ := hat i hi
  obtain ⟨hqj, hrj⟩ := hat j hj
  rw [hri, hrj] at hij
  rcases Nat.lt_trichotomy i j with h | h | h
  · exact absurd hij (countP_range_lt (q := q) h hqi).ne
  · exact h
  · exact absurd hij (countP_range_lt (q := q) h hqj).ne'

end Live

/-! ## Reordering and the whole build -/

/-- `reorder` moves the function entries to distinct places past the prefix, which stays. -/
theorem ReorderWalk.injOnKept {M : List Nat} {remap order : Array Nat}
    (hw : ReorderWalk d M remap order) :
    InjOnKept d (posOf remap) (fun i => d.nPrefix ≤ i ∧ i < d.functionsEnd) := by
  have hpos : ∀ i, (i < d.nPrefix ∨ d.nPrefix ≤ i ∧ i < d.functionsEnd) →
      (i < d.nPrefix ∧ posOf remap i = i) ∨
        ∃ k, ∃ hk : k < M.length, M[k] = i ∧ posOf remap i = d.nPrefix + k := by
    rintro i (hi | hi)
    · exact .inl ⟨hi, hw.pos_prefix i hi⟩
    · obtain ⟨k, hk, rfl⟩ := List.mem_iff_getElem.1 ((hw.mem_iff i).2 hi)
      exact .inr ⟨k, hk, rfl, hw.pos_placed k hk⟩
  intro i j hi hj hij
  rcases hpos i hi with ⟨hi, hri⟩ | ⟨k, hk, rfl, hri⟩ <;>
    rcases hpos j hj with ⟨hj, hrj⟩ | ⟨k', hk', rfl, hrj⟩ <;> rw [hri, hrj] at hij
  · exact hij
  · omega
  · omega
  · obtain rfl : k = k' := by omega
    rfl

namespace Decomposes

variable {names : List String} {prepared : List Expr}

/-- Reordering a table with distinct, reached function entries keeps them distinct and
reached. -/
theorem reorder_minimal (h : Decomposes names prepared d) (hreb : d.AllRebuilt)
    (hd : d.DistinctRhs) (ha : d.AllReached) : d.reorder.DistinctRhs ∧ d.reorder.AllReached := by
  obtain ⟨M, remap, order, hw⟩ := reorder_walk h.wellFormed.nPrefix_le_functionsEnd
  have hr := (hw.renumbering h.wellFormed).1
  have hinj := hw.injOnKept
  exact ⟨hr.distinctRhs hreb hinj hd, hr.allReached hinj h.reorder.fits fun i hi => ha i hi.1 hi.2⟩

/-- After `cse` and `dce`, the function entries are rebuilt, distinct and reached. -/
theorem merged_minimal (h : Decomposes names prepared d) :
    (cse d).dce.AllRebuilt ∧ (cse d).dce.DistinctRhs ∧ (cse d).dce.AllReached := by
  obtain ⟨r, hr, hsize⟩ := cse_renumbering h.wellFormed
  have hc := h.renumber hr hsize
  obtain ⟨hr', -⟩ := dce_renumbering_liveRemap hc.wellFormed
  have hinj := liveRemap_injOnKept hc.wellFormed.nPrefix_le_functionsEnd
  have hfit := h.cse_dce.fits
  -- `cse` writes rebuilt, distinct entries; `dce` renames them one to one
  have hreb := hr.allRebuilt h.wellFormed hc.fits
  exact ⟨hr'.allRebuilt hc.wellFormed hfit, hr'.distinctRhs hreb hinj (cse_distinctRhs h.wellFormed),
    hr'.allReached hinj hfit fun i hi => liveSet_reached hc.wellFormed hi.1 hi.2.1 hi.2.2⟩

/-- The passes of a build that merges leave distinct, reached function entries, reordered or
not. -/
theorem runPasses_minimal (h : Decomposes names prepared d) (order : Bool) :
    (Decomposition.runPasses true order d).DistinctRhs ∧
      (Decomposition.runPasses true order d).AllReached := by
  obtain ⟨hreb, hd, ha⟩ := h.merged_minimal
  cases order
  · exact ⟨hd, ha⟩
  · exact h.cse_dce.reorder_minimal hreb hd ha

end Decomposes

/-- A build that merges returns distinct, reached function entries. -/
theorem build_minimal {names : List String} {outputs : List Expr} {opts : DecomposeOptions}
    {N : List Expr} (hcse : opts.cse = true) (h : build names outputs opts = .ok d)
    (hne : outputs ≠ []) (hnames : ∀ v ∈ names, Variable.elementaryIndex? v = none)
    (hvars : ∀ e ∈ outputs, ∀ v, Occurs (.var v) e → v ∈ names) (htag : WellTagged outputs)
    (hN : ∀ e ∈ outputs, ∀ n, Occurs n e → n.op?.isSome → n ∈ N)
    (hroom : names.length + outputs.length * (25 * nodeWeight N + 1) + 2 ^ 33 ≤ 2 ^ 64) :
    d.DistinctRhs ∧ d.AllReached := by
  obtain ⟨d₀, -, hbuild, hdec⟩ := build_decomposes (two_le_sumSplit_of_build h hne) hnames
    hvars htag hN hroom
  rw [hbuild, Except.ok.injEq] at h
  subst h
  have h₀ : Decomposes names (preparedOf opts.sumSplit outputs) d₀ := hdec false false
  rw [hcse]
  exact h₀.runPasses_minimal opts.reorder

/-- Every decomposition of an expression, or of the right-hand sides of a validated system
followed by extra expressions, under options that merge common subexpressions, has function
entries with pairwise distinct right-hand sides, each reached from an output through
references and hidden dependencies, when the expressions are as built and their nodes leave
room for 64-bit indices. -/
theorem merged_decomposition_minimal :
    (∀ (e : Expr) (opts : DecomposeOptions) (N : List Expr) (d : Decomposition),
      opts.cse = true → WellTagged [e] → (∀ n, Occurs n e → n.op?.isSome → n ∈ N) →
      e.varNames.length + (25 * nodeWeight N + 1) + 2 ^ 33 ≤ 2 ^ 64 →
      ofExpr e opts = .ok d → d.DistinctRhs ∧ d.AllReached) ∧
    (∀ (eqs : List (Expr × Expr)) (sys : OdeSystem) (extra : List Expr)
      (opts : DecomposeOptions) (N : List Expr) (d : Decomposition), opts.cse = true →
      OdeSystem.ofEquations eqs = .ok sys → WellTagged (sys.rhs ++ extra) →
      (∀ e ∈ sys.rhs ++ extra, ∀ n, Occurs n e → n.op?.isSome → n ∈ N) →
      sys.state.length + (sys.rhs ++ extra).length * (25 * nodeWeight N + 1) + 2 ^ 33 ≤
        2 ^ 64 →
      ofSystem sys extra opts = .ok d → d.DistinctRhs ∧ d.AllReached) := by
  constructor
  · intro e opts N d hcse htag hN hroom h
    obtain ⟨hnames, hbuild⟩ := ofExpr_ok h
    exact build_minimal hcse hbuild (List.cons_ne_nil e []) hnames (vars_singleton e) htag
      (fun f hf => List.mem_singleton.1 hf ▸ hN) (by simpa using hroom)
  · intro eqs sys extra opts N d hcse hsys htag hN hroom h
    obtain ⟨hextra, hbuild⟩ := ofSystem_ok h
    obtain ⟨hplain, hrhs, hsome⟩ := ofEquations_valid hsys
    have hne : sys.rhs ++ extra ≠ [] := fun hnil => hsome (List.append_eq_nil_iff.1 hnil).1
    refine build_minimal hcse hbuild hne hplain (fun f hf => ?_) htag hN hroom
    rcases List.mem_append.1 hf with hf | hf
    · exact hrhs f hf
    · exact hextra f hf

/-- The decompositions of `sin x * sin x`, alone and as the right-hand side of
`x' = sin x * sin x`, under the default options, have distinct, reached function entries. -/
theorem sinSquared_minimal :
    (∃ d, ofExpr sinSquared {} = .ok d ∧ d.DistinctRhs ∧ d.AllReached) ∧
    (∃ d, ofSystem ⟨["x"], [sinSquared]⟩ [] {} = .ok d ∧ d.DistinctRhs ∧ d.AllReached) := by
  have hN : ∀ e ∈ [sinSquared], ∀ n, Occurs n e → n.op?.isSome → n ∈ [sinSquared, sinX] :=
    fun e he => List.mem_singleton.1 he ▸ nodes_sinSquared
  have hroom : ["x"].length + [sinSquared].length * (25 * nodeWeight [sinSquared, sinX] + 1) +
      2 ^ 33 ≤ 2 ^ 64 := by
    have := room_sinSquared
    rw [varNames_sinSquared] at this
    simpa using this
  have hvars : ∀ f ∈ [sinSquared], ∀ v, Occurs (.var v) f → v ∈ ["x"] :=
    varNames_sinSquared ▸ vars_singleton sinSquared
  obtain ⟨d₀, -, hbuild, -⟩ := build_decomposes (show 2 ≤ ({} : DecomposeOptions).sumSplit by decide)
    (varNames_sinSquared ▸ plain_sinSquared) hvars wellTagged_sinSquared hN hroom
  have hexpr : ofExpr sinSquared {} = .ok (runPasses true true d₀) :=
    (ofExpr_eq plain_sinSquared).trans (varNames_sinSquared ▸ hbuild)
  have hsys : ofSystem ⟨["x"], [sinSquared]⟩ [] {} = .ok (runPasses true true d₀) :=
    (ofSystem_eq (by simp)).trans hbuild
  exact ⟨⟨_, hexpr, merged_decomposition_minimal.1 sinSquared {} _ _ rfl wellTagged_sinSquared
      nodes_sinSquared room_sinSquared hexpr⟩,
    ⟨_, hsys, merged_decomposition_minimal.2 _ _ [] {} [sinSquared, sinX] _ rfl
      ofEquations_sinSquared wellTagged_sinSquared hN hroom hsys⟩⟩

end Decomposition

end TaylorOde
