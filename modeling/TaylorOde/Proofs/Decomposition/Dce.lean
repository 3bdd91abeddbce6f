import TaylorOde.Proofs.Decomposition.Cse
import Mathlib.Algebra.Order.BigOperators.Group.Finset
/-!
# Removing dead entries

`liveSet` marks live the prefix, the outputs, and then, from a work stack seeded with the
outputs' references, every entry reached through references and hidden dependencies. Its
loop carries fuel. The fuel never runs out: the stack length plus the pushes still owed by
the entries not yet live (`livePotential`) drops by one at every turn, and the fuel starts
above it. The loop keeps `LiveInv` — every live entry past the prefix has its dependencies
live or on the stack — so the final set, with an empty stack, is closed (`liveSet_inv`).

`dce` keeps the live entries in order, each at the position counting the live entries before
it. Read through `liveSet_inv`, it is a `Renumbering` keeping the live function entries
(`dce_renumbering`).
-/

namespace TaylorOde

namespace Decomposition

variable {d : Decomposition}

/-- The entries an entry pushes when it is marked live. -/
def pushWeight (e : Entry) : Nat := e.refs.length + e.hidden.length

/-- What the marking loop has still to do: the stack, and the pushes of the entries not yet
live. -/
def livePotential (d : Decomposition) (live : Array Bool) (stack : List Nat) : Nat :=
  stack.length +
    ∑ i ∈ Finset.range d.size, if live[i]?.getD true then 0 else pushWeight (d.entry i)

/-- The invariant of the marking loop: the prefix and the outputs are live, and every live
entry past the prefix has its references, and a function entry its hidden dependencies, live
or on the stack. -/
structure LiveInv (d : Decomposition) (live : Array Bool) (stack : List Nat) : Prop where
  size_eq : live.size = d.size
  prefix_live : ∀ i < d.nPrefix, live[i]? = some true
  output_live : ∀ i, d.functionsEnd ≤ i → i < d.size → live[i]? = some true
  closed : ∀ i, live[i]? = some true → d.nPrefix ≤ i →
    (∀ j ∈ (d.entry i).refs, live[j]?.getD true = true ∨ j ∈ stack) ∧
    (i < d.functionsEnd → ∀ h ∈ (d.entry i).hidden, live[h]?.getD true = true ∨ h ∈ stack)

/-- Marking one more entry live removes its pushes from what is owed. -/
theorem livePotential_set {live : Array Bool} {j : Nat} (hj : live[j]? = some false)
    (stack : List Nat) (hsize : live.size = d.size) :
    d.livePotential (live.set! j true) stack + pushWeight (d.entry j) =
      d.livePotential live stack := by
  have hjn : j < d.size := by
    rw [← hsize]
    exact (Array.getElem?_eq_some_iff.1 hj).1
  have hmem : j ∈ Finset.range d.size := Finset.mem_range.2 hjn
  unfold livePotential
  rw [← Finset.add_sum_erase _ _ hmem, ← Finset.add_sum_erase _ _ hmem]
  have hrest : ∑ i ∈ (Finset.range d.size).erase j,
      (if (live.set! j true)[i]?.getD true then 0 else pushWeight (d.entry i)) =
      ∑ i ∈ (Finset.range d.size).erase j,
        (if live[i]?.getD true then 0 else pushWeight (d.entry i)) := by
    refine Finset.sum_congr rfl fun i hi => ?_
    rw [Array.set!_eq_setIfInBounds,
      Array.getElem?_setIfInBounds_ne (Ne.symm (Finset.mem_erase.1 hi).1)]
  have hjlt : j < live.size := by rw [hsize]; exact hjn
  rw [hrest, Array.set!_eq_setIfInBounds, Array.getElem?_setIfInBounds_self_of_lt hjlt, hj]
  simp only [Option.getD_some, if_true, Bool.false_eq_true, if_false]
  omega

/-- A live entry stays live when another is marked. -/
theorem getD_set_true {live : Array Bool} {j x : Nat} (h : live[x]?.getD true = true) :
    (live.set! j true)[x]?.getD true = true := by
  rw [Array.set!_eq_setIfInBounds, Array.getElem?_setIfInBounds]
  split
  · split <;> rfl
  · exact h

theorem getElem?_set_true {live : Array Bool} {j x : Nat} (h : live[x]? = some true) :
    (live.set! j true)[x]? = some true := by
  rw [Array.set!_eq_setIfInBounds, Array.getElem?_setIfInBounds]
  split
  · rename_i hjx
    subst hjx
    rw [if_pos (Array.getElem?_eq_some_iff.1 h).1]
  · exact h

namespace LiveInv

/-- Popping an entry already live keeps the invariant. -/
theorem pop_live {live : Array Bool} {j : Nat} {stack : List Nat}
    (hinv : LiveInv d live (j :: stack)) (hj : live[j]?.getD true = true) :
    LiveInv d live stack := by
  refine ⟨hinv.size_eq, hinv.prefix_live, hinv.output_live, fun i hi hip => ?_⟩
  -- a dependency waiting as `j` is live already
  have hok : ∀ x, (live[x]?.getD true = true ∨ x ∈ j :: stack) →
      live[x]?.getD true = true ∨ x ∈ stack := by
    rintro x (hx | hx)
    · exact Or.inl hx
    · rcases List.mem_cons.1 hx with rfl | hx
      · exact Or.inl hj
      · exact Or.inr hx
  obtain ⟨hrefs, hhidden⟩ := hinv.closed i hi hip
  exact ⟨fun x hx => hok x (hrefs x hx), fun hf x hx => hok x (hhidden hf x hx)⟩

/-- Popping an entry not yet live marks it and pushes its dependencies. -/
theorem pop_dead {live : Array Bool} {j : Nat} {stack : List Nat}
    (hinv : LiveInv d live (j :: stack)) (hj : live[j]? = some false) :
    LiveInv d (live.set! j true)
      (((d.entry j).hidden.reverse ++ (d.entry j).refs.reverse) ++ stack) := by
  refine ⟨by simp [hinv.size_eq], fun i hi => getElem?_set_true (hinv.prefix_live i hi),
    fun i hlo hhi => getElem?_set_true (hinv.output_live i hlo hhi), ?_⟩
  intro i hi hip
  by_cases hij : i = j
  · -- the entry just marked: its dependencies are on the stack
    subst hij
    refine ⟨fun x hx => Or.inr ?_, fun _ x hx => Or.inr ?_⟩
    · simp [hx]
    · simp [hx]
  · have hi' : live[i]? = some true := by
      rw [Array.set!_eq_setIfInBounds, Array.getElem?_setIfInBounds_ne (Ne.symm hij)] at hi
      exact hi
    have hok : ∀ x, (live[x]?.getD true = true ∨ x ∈ j :: stack) →
        (live.set! j true)[x]?.getD true = true ∨
          x ∈ ((d.entry j).hidden.reverse ++ (d.entry j).refs.reverse) ++ stack := by
      rintro x (hx | hx)
      · exact Or.inl (getD_set_true hx)
      · rcases List.mem_cons.1 hx with rfl | hx
        · left
          have hjlt : x < live.size := (Array.getElem?_eq_some_iff.1 hj).1
          rw [Array.set!_eq_setIfInBounds, Array.getElem?_setIfInBounds_self_of_lt hjlt]
          rfl
        · exact Or.inr (List.mem_append_right _ hx)
    obtain ⟨hrefs, hhidden⟩ := hinv.closed i hi' hip
    exact ⟨fun x hx => hok x (hrefs x hx), fun hf x hx => hok x (hhidden hf x hx)⟩

end LiveInv

/-- An entry the loop does not find live is in range and not yet marked. -/
theorem getElem?_false_of_getD {live : Array Bool} {j : Nat} (hj : ¬live[j]?.getD true = true) :
    live[j]? = some false := by
  cases h : live[j]? with
  | none => rw [h] at hj; exact absurd rfl hj
  | some b =>
    rw [h] at hj
    cases b
    · rfl
    · exact absurd rfl hj

/-- The marking loop, given more fuel than it owes, ends with the invariant and an empty
stack. -/
theorem go_inv {live : Array Bool} {stack : List Nat} {fuel : Nat}
    (hinv : LiveInv d live stack) (hfuel : d.livePotential live stack < fuel) :
    LiveInv d (liveSet.go d live stack fuel) [] := by
  induction fuel generalizing live stack with
  | zero => exact absurd hfuel (Nat.not_lt_zero _)
  | succ fuel ih =>
    cases stack with
    | nil => simpa [liveSet.go] using hinv
    | cons j stack =>
      rw [liveSet.go]
      by_cases hj : live[j]?.getD true = true
      · -- already live: pop it
        rw [if_pos hj]
        refine ih (hinv.pop_live hj) ?_
        unfold livePotential at hfuel ⊢
        simp only [List.length_cons] at hfuel
        omega
      · -- not yet live: mark it, and push what it depends on
        rw [if_neg hj]
        have hj' := getElem?_false_of_getD hj
        refine ih (hinv.pop_dead hj') ?_
        have hset := livePotential_set hj' (j :: stack) hinv.size_eq
        have hw : pushWeight (d.entry j) = (d.entry j).refs.length + (d.entry j).hidden.length :=
          rfl
        unfold livePotential at hfuel hset ⊢
        simp only [List.length_cons, List.length_append, List.length_reverse] at hfuel hset ⊢
        omega

/-- The total the marking loop budgets for pushes is the sum of all push weights. -/
theorem foldl_pushWeight (l : List Entry) (s : Nat) :
    l.foldl (fun s e => s + e.refs.length + e.hidden.length) s =
      s + ∑ i ∈ Finset.range l.length, pushWeight (l[i]?.getD default) := by
  induction l generalizing s with
  | nil => rfl
  | cons e l ih =>
    rw [List.foldl_cons, ih, List.length_cons, Finset.sum_range_succ']
    simp only [List.getElem?_cons_succ, List.getElem?_cons_zero, Option.getD_some]
    unfold pushWeight
    omega

/-- Marking a list of entries live. -/
theorem foldl_set_true_getElem? (l : List Nat) (live : Array Bool) (x : Nat) :
    (l.foldl (fun a i => a.set! i true) live)[x]? =
      if x ∈ l ∧ x < live.size then some true else live[x]? := by
  induction l generalizing live with
  | nil => simp
  | cons i l ih =>
    rw [List.foldl_cons, ih, Array.size_set!, Array.set!_eq_setIfInBounds,
      Array.getElem?_setIfInBounds]
    by_cases hx : x ∈ l ∧ x < live.size
    · simp [hx]
    · by_cases hix : i = x
      · subst hix
        by_cases hlt : i < live.size <;> simp [hlt]
      · simp [hx, hix, Ne.symm hix]

theorem foldl_set_true_size (l : List Nat) (live : Array Bool) :
    (l.foldl (fun a i => a.set! i true) live).size = live.size := by
  induction l generalizing live with
  | nil => rfl
  | cons i l ih => rw [List.foldl_cons, ih, Array.size_set!]

/-- The marking loop starts with the prefix and the outputs live, and nothing else. -/
theorem liveStart_getElem? (x : Nat) :
    (((List.range d.size).drop d.functionsEnd).foldl (fun l i => l.set! i true)
      ((Array.replicate d.size false).mapIdx fun i _ => decide (i < d.nPrefix)))[x]? =
      if x < d.size then some (decide (x < d.nPrefix) || decide (d.functionsEnd ≤ x))
      else none := by
  simp only [foldl_set_true_getElem?, mem_drop_range, Array.size_mapIdx, Array.size_replicate,
    Array.getElem?_mapIdx, Array.getElem?_replicate]
  by_cases hx : x < d.size
  · by_cases hf : d.functionsEnd ≤ x <;> simp [hx, hf]
  · simp [hx]

/-- The marking loop starts with the invariant: only the prefix and the outputs are live,
and the outputs' references are on the stack. -/
theorem liveSet_start (hnp : d.nPrefix ≤ d.functionsEnd) :
    let outs := (List.range d.size).drop d.functionsEnd
    let live := outs.foldl (fun l i => l.set! i true)
      ((Array.replicate d.size false).mapIdx fun i _ => decide (i < d.nPrefix))
    LiveInv d live (outs.flatMap fun i => (d.entry i).refs) := by
  intro outs live
  have hfe := WellFormed.functionsEnd_le_size d
  have hmem : ∀ x, x ∈ outs ↔ d.functionsEnd ≤ x ∧ x < d.size := fun x => mem_drop_range
  have hget : ∀ x, live[x]? = if x < d.size then some (decide (x < d.nPrefix) ||
      decide (d.functionsEnd ≤ x)) else none := liveStart_getElem?
  refine ⟨?_, ?_, ?_, ?_⟩
  · simp only [live]
    rw [foldl_set_true_size]
    simp [size]
  · intro i hi
    rw [hget, if_pos (by omega)]
    simp [hi]
  · intro i hlo hhi
    rw [hget, if_pos hhi]
    simp [hlo]
  · -- a live entry past the prefix is an output, whose references start on the stack
    intro i hi hip
    rw [hget] at hi
    have hout : d.functionsEnd ≤ i ∧ i < d.size := by
      split at hi
      · simp only [Option.some.injEq, Bool.or_eq_true, decide_eq_true_eq] at hi
        omega
      · cases hi
    refine ⟨fun j hj => Or.inr (List.mem_flatMap.2 ⟨i, (hmem i).2 hout, hj⟩), ?_⟩
    intro hf
    omega

/-- What the loop owes is at most the stack and every push weight. -/
theorem livePotential_le (live : Array Bool) (stack : List Nat) :
    d.livePotential live stack ≤
      stack.length + ∑ i ∈ Finset.range d.size, pushWeight (d.entry i) := by
  have hsum : (∑ i ∈ Finset.range d.size,
      if live[i]?.getD true then 0 else pushWeight (d.entry i)) ≤
      ∑ i ∈ Finset.range d.size, pushWeight (d.entry i) :=
    Finset.sum_le_sum fun i _ => by split <;> omega
  unfold livePotential
  omega

/-- The fuel budget of the loop counts every push weight. -/
theorem pushes_eq (d : Decomposition) :
    d.entries.foldl (fun s e => s + e.refs.length + e.hidden.length) 0 =
      ∑ i ∈ Finset.range d.size, pushWeight (d.entry i) := by
  rw [← Array.foldl_toList, foldl_pushWeight, Nat.zero_add, Array.length_toList]
  simp only [Array.getElem?_toList]
  rfl

/-- `liveSet` ends with the invariant and an empty stack: the prefix and the outputs are
live, and the live entries are closed under references and hidden dependencies. -/
theorem liveSet_inv (hnp : d.nPrefix ≤ d.functionsEnd) : LiveInv d d.liveSet [] := by
  refine go_inv (liveSet_start hnp) (Nat.lt_succ_of_le ?_)
  rw [pushes_eq]
  exact livePotential_le _ _

/-! ## Positions after removal

A kept entry moves to the number of kept entries before it. Over the indices below `n`, the
kept ones in order are `(List.range n).filter q`; the entry `i` sits there at
`(List.range i).countP q`.
-/

section Positions

variable {q : Nat → Bool}

theorem countP_range_succ (i : Nat) :
    (List.range (i + 1)).countP q = (List.range i).countP q + if q i then 1 else 0 := by
  rw [List.range_succ, List.countP_append]
  simp

theorem countP_range_mono {i k : Nat} (h : i ≤ k) :
    (List.range i).countP q ≤ (List.range k).countP q := by
  obtain ⟨m, rfl⟩ : ∃ m, k = i + m := ⟨k - i, by omega⟩
  rw [List.range_add, List.countP_append]
  omega

/-- Kept entries move apart: a kept entry before another gets a smaller position. -/
theorem countP_range_lt {j i : Nat} (hji : j < i) (hq : q j = true) :
    (List.range j).countP q < (List.range i).countP q := by
  have := countP_range_mono (q := q) (show j + 1 ≤ i by omega)
  rw [countP_range_succ, if_pos hq] at this
  omega

/-- Below an index where everything is kept, nothing moves. -/
theorem countP_range_of_all {i : Nat} (h : ∀ j < i, q j = true) :
    (List.range i).countP q = i := by
  rw [List.countP_eq_length.2 fun j hj => h j (List.mem_range.1 hj), List.length_range]

/-- A run of kept entries after `i` moves by as much as `i`. -/
theorem countP_range_add_of_all {i m : Nat} (h : ∀ j, i ≤ j → j < i + m → q j = true) :
    (List.range (i + m)).countP q = (List.range i).countP q + m := by
  rw [List.range_add, List.countP_append]
  congr 1
  rw [List.countP_eq_length.2, List.length_map, List.length_range]
  intro j hj
  obtain ⟨k, hk, rfl⟩ := List.mem_map.1 hj
  exact h _ (by omega) (by have := List.mem_range.1 hk; omega)

/-- The kept entry `i` sits at the number of kept entries before it. -/
theorem filter_range_getElem? {n i : Nat} (hi : i < n) (hq : q i = true) :
    ((List.range n).filter q)[(List.range i).countP q]? = some i := by
  obtain ⟨m, rfl⟩ : ∃ m, n = i + (m + 1) := ⟨n - i - 1, by omega⟩
  rw [List.range_add, List.filter_append, List.getElem?_append_right
    (by rw [List.countP_eq_length_filter]), List.countP_eq_length_filter, Nat.sub_self,
    List.range_succ_eq_map, List.map_cons, List.filter_cons, Nat.add_zero, if_pos hq]
  rfl

/-- Every kept position holds a kept entry below `n`, at the count of those before it. -/
theorem filter_range_getElem {n k : Nat} (hk : k < ((List.range n).filter q).length) :
    let i := ((List.range n).filter q)[k]
    i < n ∧ q i = true ∧ (List.range i).countP q = k := by
  intro i
  have hmem : i ∈ (List.range n).filter q := List.getElem_mem hk
  obtain ⟨hin, hq⟩ := List.mem_filter.1 hmem
  have hin' := List.mem_range.1 hin
  refine ⟨hin', hq, ?_⟩
  -- positions in a list without repeats are determined by the element
  have hpos := filter_range_getElem? hin' hq
  obtain ⟨hlt, heq⟩ := List.getElem?_eq_some_iff.1 hpos
  exact ((List.nodup_range.filter q).getElem_inj_iff).1 heq

end Positions

/-- `liveRemap` only appends: positions already given stay. -/
theorem foldl_liveRemapStep_prefix (l : List Bool) (r : Array Nat) (c k : Nat)
    (hk : k < r.size) : (l.foldl liveRemapStep (r, c)).1[k]? = r[k]? := by
  induction l generalizing r c with
  | nil => rfl
  | cons b l ih =>
    rw [List.foldl_cons]
    have hstep : liveRemapStep (r, c) b =
        (r.push (if b then c else 0), if b then c + 1 else c) := by
      cases b <;> rfl
    rw [hstep, ih _ _ (by simp only [Array.size_push]; omega), Array.getElem?_push,
      if_neg (by omega)]

/-- What `liveRemap` builds from a run of flags: one position per flag, each live one at the
count of live flags before it. -/
theorem foldl_liveRemapStep (l : List Bool) (r : Array Nat) (c : Nat) :
    (l.foldl liveRemapStep (r, c)).1.size = r.size + l.length ∧
      ∀ k, l[k]? = some true →
        (l.foldl liveRemapStep (r, c)).1[r.size + k]? = some (c + (l.take k).count true) := by
  induction l generalizing r c with
  | nil => simp
  | cons b l ih =>
    rw [List.foldl_cons]
    have hstep : liveRemapStep (r, c) b = (r.push (if b then c else 0), if b then c + 1 else c) := by
      cases b <;> rfl
    rw [hstep]
    obtain ⟨hsize, hget⟩ := ih (r.push (if b then c else 0)) (if b then c + 1 else c)
    refine ⟨by rw [hsize]; simp; omega, ?_⟩
    intro k hk
    cases k with
    | zero =>
      -- the flag itself: every later step only pushes
      simp only [List.getElem?_cons_zero, Option.some.injEq] at hk
      subst hk
      rw [Nat.add_zero, foldl_liveRemapStep_prefix _ _ _ _ (by simp)]
      simp
    | succ k =>
      simp only [List.getElem?_cons_succ] at hk
      have := hget k hk
      rw [Array.size_push] at this
      rw [show r.size + (k + 1) = r.size + 1 + k by omega, this]
      cases b <;> simp [List.take_succ_cons]
      all_goals omega

theorem count_take_toList (live : Array Bool) (i : Nat) :
    (live.toList.take i).count true = (List.range i).countP fun j => live[j]?.getD false := by
  induction i with
  | zero => rfl
  | succ i ih =>
    rw [List.take_add_one, List.count_append, ih, countP_range_succ, Array.getElem?_toList]
    cases live[i]? with
    | none => rfl
    | some b => cases b <;> rfl

/-- A live entry's new position is the number of live entries before it. -/
theorem liveRemap_getElem? {live : Array Bool} {i : Nat} (hi : live[i]? = some true) :
    (liveRemap live)[i]? = some ((List.range i).countP fun j => live[j]?.getD false) := by
  have h := (foldl_liveRemapStep live.toList #[] 0).2 i (by rw [Array.getElem?_toList]; exact hi)
  simp only [Array.size_empty, Nat.zero_add] at h
  unfold liveRemap
  rw [← Array.foldl_toList, h, count_take_toList]

/-- The entries of `dce`: the live ones in order, renamed. -/
theorem dce_entry {k i : Nat}
    (h : ((List.range d.size).filter fun j => d.liveSet[j]?.getD false)[k]? = some i) :
    d.dce.entry k = if i < d.nPrefix then d.entry i else
      { rhs := renameRhs (posOf (liveRemap d.liveSet)) (d.entry i).rhs,
        hidden := (d.entry i).hidden.map (posOf (liveRemap d.liveSet)) } := by
  unfold dce
  refine entry_of_getElem? ?_
  simp only [Array.getElem?_map, List.getElem?_toArray, h, Option.map_some, remapRhs_eq]
  rfl

theorem dce_size (d : Decomposition) :
    d.dce.size = ((List.range d.size).filter fun j => d.liveSet[j]?.getD false).length := by
  simp [dce, size]

/-- `dce` renumbers a well-formed table through the positions `liveRemap` gives, keeping the
live function entries, and does not grow it. -/
theorem dce_renumbering_liveRemap (hwf : d.WellFormed) :
    Renumbering d d.dce (posOf (liveRemap d.liveSet))
        (fun i => d.liveSet[i]? = some true ∧ d.nPrefix ≤ i ∧ i < d.functionsEnd) ∧
      d.dce.size ≤ d.size := by
  have hL := liveSet_inv hwf.nPrefix_le_functionsEnd
  have hsize := hwf.size_eq
  have hnp := hwf.nPrefix_le_functionsEnd
  -- live entries, as the predicate the kept list filters by
  let q : Nat → Bool := fun j => d.liveSet[j]?.getD false
  have hq : ∀ j, q j = true ↔ d.liveSet[j]? = some true := fun j => by
    simp only [q]
    cases d.liveSet[j]? with
    | none => simp
    | some b => simp
  have hqlive : ∀ j, j < d.size → d.liveSet[j]?.getD true = true → q j = true := fun j hj h => by
    have hjl : j < d.liveSet.size := by rw [hL.size_eq]; exact hj
    simp only [q, Array.getElem?_eq_getElem hjl, Option.getD_some] at h ⊢
    exact h
  set r := posOf (liveRemap d.liveSet)
  have hr : ∀ j, q j = true → r j = (List.range j).countP q := fun j hj =>
    posOf_of_getElem? (liveRemap_getElem? ((hq j).1 hj))
  have hpre : ∀ i, i ≤ d.nPrefix → (List.range i).countP q = i := fun i hi =>
    countP_range_of_all fun j hj => (hq j).2 (hL.prefix_live j (by omega))
  have hout : ∀ m, m ≤ d.nOutputs →
      (List.range (d.functionsEnd + m)).countP q = (List.range d.functionsEnd).countP q + m :=
    fun m hm => countP_range_add_of_all fun j hlo hhi => (hq j).2 (hL.output_live j hlo (by omega))
  have hdsize : d.dce.size = (List.range d.functionsEnd).countP q + d.nOutputs := by
    rw [dce_size, ← List.countP_eq_length_filter, hsize, hout _ (Nat.le_refl _)]
  have hend : d.dce.functionsEnd = (List.range d.functionsEnd).countP q := by
    have h₁ : d.dce.nOutputs = d.nOutputs := rfl
    show d.dce.entries.size - d.dce.nOutputs = _
    unfold size at hdsize
    omega
  have hnp' : d.dce.nPrefix = d.nPrefix := rfl
  -- a live entry sits at the count of live entries before it
  have hat : ∀ i, i < d.size → q i = true →
      ((List.range d.size).filter q)[(List.range i).countP q]? = some i :=
    fun i hi hqi => filter_range_getElem? hi hqi
  -- the dependencies of a live entry past the prefix are live
  have hdep : ∀ i, d.liveSet[i]? = some true → d.nPrefix ≤ i → ∀ j ∈ (d.entry i).refs,
      j < i → q j = true := fun i hi hip j hj hji => by
    have := (hL.closed i hi hip).1 j hj
    simp only [List.not_mem_nil, or_false] at this
    have hin : i < d.size := by
      rw [← hL.size_eq]
      exact (Array.getElem?_eq_some_iff.1 hi).1
    exact hqlive j (by omega) this
  have hkmap : ∀ i, q i = true → d.nPrefix ≤ i → i < d.functionsEnd →
      d.nPrefix ≤ r i ∧ r i < (List.range d.functionsEnd).countP q := fun i hqi hlo hhi => by
    rw [hr i hqi]
    have h₁ := countP_range_mono (q := q) hlo
    rw [hpre _ (Nat.le_refl _)] at h₁
    exact ⟨h₁, countP_range_lt hhi hqi⟩
  refine ⟨⟨rfl, rfl, rfl, ?_, ?_, ?_, ?_, ?_, ?_, ?_, ?_, ?_, ?_, ?_⟩, ?_⟩
  case refine_1 =>
    show d.nPrefix + d.nOutputs ≤ _
    rw [hdsize]
    have := countP_range_mono (q := q) hnp
    rw [hpre _ (Nat.le_refl _)] at this
    omega
  case refine_2 =>
    -- the prefix is live, so it stays in place
    intro i hi
    have hqi := (hq i).2 (hL.prefix_live i hi)
    have h := hat i (by omega) hqi
    rw [hpre i (by omega)] at h
    rw [dce_entry h, if_pos hi]
  case refine_3 =>
    intro i hi
    rw [hr i ((hq i).2 (hL.prefix_live i hi)), hpre i (by omega)]
  case refine_4 =>
    -- the outputs are live and stay last, in order
    intro m hm
    have hqo := (hq _).2 (hL.output_live (d.functionsEnd + m) (by omega) (by omega))
    have h := hat _ (by omega) hqo
    rw [hout m (by omega), ← hend] at h
    rw [dce_entry h, if_neg (by omega)]
  case refine_5 =>
    intro m hm j hj hjp
    have hlive := hL.output_live (d.functionsEnd + m) (by omega) (by omega)
    have hjf := hwf.output_refs_lt hm j hj
    have := hdep _ hlive (by omega) j hj (by omega)
    exact ⟨(hq j).1 this, hjp, hjf⟩
  case refine_6 => exact fun i hi => hi.2
  case refine_7 =>
    intro i ⟨hi, hlo, hhi⟩
    rw [hnp', hend]
    exact hkmap i ((hq i).2 hi) hlo hhi
  case refine_8 =>
    intro i ⟨hi, hlo, hhi⟩
    have hqi := (hq i).2 hi
    rw [hr i hqi, dce_entry (hat i (by omega) hqi), if_neg (by omega)]
    exact Expr.beq_self _
  case refine_9 =>
    intro i ⟨hi, hlo, hhi⟩ j hj hjp
    have hji := (hwf.refsBelow (show i < d.size by omega)).lt_of_mem_refs hj
    exact ⟨(hq j).1 (hdep i hi hlo j hj hji), hjp, by omega⟩
  case refine_10 =>
    intro i ⟨hi, hlo, hhi⟩ h hh
    obtain ⟨h₁, h₂, -⟩ := hwf.hidden_entry i hlo hhi h hh
    have := (hL.closed i hi hlo).2 hhi h hh
    simp only [List.not_mem_nil, or_false] at this
    exact ⟨(hq h).1 (hqlive h (by omega) this), h₁, h₂⟩
  case refine_11 =>
    -- each position of the function range holds a live function entry
    intro k hlo hhi
    rw [hnp'] at hlo
    rw [hend] at hhi
    have hk : k < ((List.range d.size).filter q).length := by
      rw [← List.countP_eq_length_filter]
      have := countP_range_mono (q := q) (show d.functionsEnd ≤ d.size by omega)
      omega
    obtain ⟨hin, hqi, hcnt⟩ := filter_range_getElem hk
    set i := ((List.range d.size).filter q)[k] with hi
    have hip : d.nPrefix ≤ i := by
      by_contra h
      rw [hpre i (by omega)] at hcnt
      omega
    have hif : i < d.functionsEnd := by
      by_contra h
      have := countP_range_mono (q := q) (show d.functionsEnd ≤ i by omega)
      omega
    refine ⟨i, ⟨(hq i).1 hqi, hip, hif⟩, by rw [hr i hqi, hcnt], ?_, ?_⟩
    · rw [dce_entry (show ((List.range d.size).filter q)[k]? = some i from
        List.getElem?_eq_getElem hk), if_neg (by omega)]
    · intro j hj
      have hji := (hwf.refsBelow (show i < d.size by omega)).lt_of_mem_refs hj
      have hqj := hdep i ((hq i).1 hqi) hip j hj hji
      rw [hr j hqj, ← hcnt]
      exact countP_range_lt hji hqj
  case refine_12 =>
    rw [dce_size]
    exact (List.length_filter_le _ _).trans (by simp [size])

/-- `dce` renumbers a well-formed table, keeping the live function entries, and does not
grow it. -/
theorem dce_renumbering (hwf : d.WellFormed) :
    ∃ r, Renumbering d d.dce r
        (fun i => d.liveSet[i]? = some true ∧ d.nPrefix ≤ i ∧ i < d.functionsEnd) ∧
      d.dce.size ≤ d.size :=
  ⟨_, dce_renumbering_liveRemap hwf⟩

end Decomposition

end TaylorOde
