import TaylorOde.Proofs.Ode.Layers
import TaylorOde.Proofs.Decomposition.Pipeline
import Mathlib
/-!
# The layout of a variational system

`ofSystem` succeeds on every validated system whose state names are not variational, for every
non-empty list of distinct arguments drawn from its state, its parameters and the initial time,
and every order `K ≥ 1`. Its state lists the originals with the zero multi-index, then every
component and multi-index of total order `1 … K` once, in layers of increasing order, under
distinct names: `D · C(n + K, K)` variables in all. `orderRange j` is exactly the layer of
order `j`, `indexOf?` inverts `mindex?`, and the right-hand side of a variable mentions only
variables of order at most its own (`Layout`, `ofSystem_layout`).

The construction itself is followed layer by layer in `Layers`; here the checks `ofSystem`
makes before it are passed, the augmented system is validated, and the index helpers are read
off the sorted list of multi-indices.
-/

namespace TaylorOde

open TaylorOde.Expr

instance : LawfulBEq VarArg where
  eq_of_beq {a b} h := by
    cases a <;> cases b <;> simp_all [BEq.beq, instBEqVarArg.beq]
  rfl {a} := by
    cases a <;> simp [BEq.beq, instBEqVarArg.beq]

/-! ## The checks before the construction -/

/-- A loop that pushes every element onto its state, when the element is new and passes a
check, runs through a list of distinct elements that pass. -/
theorem forIn_push_ok {α ε : Type} {f : α → List α → Except ε (ForInStep (List α))}
    {P : α → Prop} (hf : ∀ a s, a ∉ s → P a → f a s = .ok (.yield (a :: s))) :
    ∀ (l s : List α), (l.reverse ++ s).Nodup → (∀ a ∈ l, P a) →
      forIn l s f = .ok (l.reverse ++ s)
  | [], s, _, _ => rfl
  | a :: l, s, hnd, hP => by
    rw [List.reverse_cons, List.append_assoc, List.singleton_append] at hnd
    have ha : a ∉ s := fun ha => by
      have := List.nodup_append.1 hnd
      exact List.Nodup.notMem this.2.1 (by simpa using ha)
    rw [List.forIn_cons, hf a s ha (hP a List.mem_cons_self)]
    change forIn l (a :: s) f = _
    rw [forIn_push_ok hf l (a :: s) hnd fun b hb => hP b (List.mem_cons_of_mem _ hb)]
    simp

/-- The state a system collects holds distinct names, one per equation. -/
theorem collectState_nodup : ∀ (eqs : List (Expr × Expr)) (seen state : List String),
    OdeSystem.collectState eqs seen = .ok state → seen.Nodup →
      state.Nodup ∧ state.length = seen.length + eqs.length
  | [], seen, state, h, hseen => by
    simp only [OdeSystem.collectState, Except.ok.injEq] at h
    subst h
    simpa using hseen
  | (lhs, _) :: rest, seen, state, h, hseen => by
    cases lhs with
    | var v =>
      simp only [OdeSystem.collectState] at h
      split at h
      · cases h
      · split at h
        · cases h
        · rename_i hv
          obtain ⟨hnd, hlen⟩ := collectState_nodup rest (v :: seen) state h
            (List.nodup_cons.2 ⟨by simpa using hv, hseen⟩)
          exact ⟨hnd, by simp [hlen]; omega⟩
    | _ => simp [OdeSystem.collectState] at h

/-- Distinct names that are not elementary are collected as the state of their equations. -/
theorem collectState_vars : ∀ (names seen : List String) (rhs : List Expr),
    names.length ≤ rhs.length → (seen.reverse ++ names).Nodup →
    (∀ v ∈ names, Variable.isElementary v = false) →
      OdeSystem.collectState ((names.map Expr.var).zip rhs) seen = .ok (seen.reverse ++ names)
  | [], seen, _, _, _, _ => by simp [OdeSystem.collectState]
  | v :: names, seen, f :: rhs, hlen, hnd, hplain => by
    have hv : v ∉ seen := fun hv => by
      have := List.nodup_append.1 hnd
      exact this.2.2 v (List.mem_reverse.2 hv) v List.mem_cons_self rfl
    have hrest := collectState_vars names (v :: seen) rhs (by simpa using hlen)
      (by simpa using hnd) fun w hw => hplain w (List.mem_cons_of_mem _ hw)
    simp only [List.map_cons, List.zip_cons_cons, OdeSystem.collectState,
      hplain v List.mem_cons_self, Bool.false_eq_true, if_false, List.contains_iff_mem, hv,
      hrest]
    simp
  | _ :: _, _, [], hlen, _, _ => by simp at hlen

/-- Equations with distinct, non-elementary variables on the left and right-hand sides over
those variables form a system. -/
theorem ofEquations_zip_ok {names : List String} {rhs : List Expr} (hne : names ≠ [])
    (hlen : rhs.length = names.length) (hnodup : names.Nodup)
    (hplain : ∀ v ∈ names, Variable.isElementary v = false)
    (hvars : ∀ f ∈ rhs, ∀ v, Occurs (.var v) f → v ∈ names) :
    OdeSystem.ofEquations ((names.map Expr.var).zip rhs) = .ok ⟨names, rhs⟩ := by
  have hsnd : ((names.map Expr.var).zip rhs).map (fun q => q.2) = rhs :=
    List.map_snd_zip (by simp [hlen])
  refine Decomposition.ofEquations_eq_ok.2 ⟨?_, names, ?_, ?_, ?_⟩
  · have hrhs : rhs ≠ [] := by
      rintro rfl
      exact hne (List.length_eq_zero_iff.1 hlen.symm)
    simp [List.zip_eq_nil_iff, hne, hrhs]
  · simpa using collectState_vars names [] rhs hlen.ge (by simpa using hnodup) hplain
  · rw [hsnd]
    exact hvars
  · rw [hsnd]

/-! ## Reading a sorted list of multi-indices -/

/-- For a property that, once it holds along the list, holds from then on, the first position
where it holds is at most `i` exactly when it holds at `i`. -/
theorem findIdx?_getD_le_iff {α : Type} {l : List α} {q : α → Bool}
    (hmono : l.Pairwise fun a b => q a = true → q b = true) {i : Nat} (hi : i < l.length) :
    (l.findIdx? q).getD l.length ≤ i ↔ q l[i] = true := by
  cases hfind : l.findIdx? q with
  | none =>
    have hnone := List.findIdx?_eq_none_iff.1 hfind
    simp only [Option.getD_none]
    constructor
    · intro hle
      omega
    · intro hq
      rw [hnone _ (List.getElem_mem hi)] at hq
      cases hq
  | some s =>
    obtain ⟨hs, hqs, hbefore⟩ := List.findIdx?_eq_some_iff_getElem.1 hfind
    simp only [Option.getD_some]
    constructor
    · intro hle
      rcases Nat.eq_or_lt_of_le hle with rfl | hlt
      · exact hqs
      · exact List.pairwise_iff_getElem.1 hmono s i hs hi hlt hqs
    · intro hq
      by_contra hlt
      exact hbefore i (by omega) hq

theorem findIdx?_getD_le_length {α : Type} (l : List α) (q : α → Bool) :
    (l.findIdx? q).getD l.length ≤ l.length := by
  cases hfind : l.findIdx? q with
  | none => simp
  | some s => exact (List.findIdx?_eq_some_iff_getElem.1 hfind).1.le

namespace VarSystem

/-- On multi-indices sorted by total order, `orderRange j` is exactly the layer of order `j`. -/
theorem orderRange_iff {vs : VarSystem}
    (hsorted : vs.mindices.Pairwise fun p q => p.2.sum ≤ q.2.sum) (j i : Nat) :
    (vs.orderRange j).1 ≤ i ∧ i < (vs.orderRange j).2 ↔
      ∃ p, vs.mindex? i = some p ∧ p.2.sum = j := by
  have htotal : ∀ m : List Nat, m.foldl (· + ·) 0 = m.sum := fun m => List.sum_eq_foldl.symm
  unfold orderRange mindex?
  simp only [htotal]
  set l := vs.mindices
  have hge := findIdx?_getD_le_length l fun x => decide (x.2.sum ≥ j)
  have hgt := findIdx?_getD_le_length l fun x => decide (x.2.sum > j)
  by_cases hi : i < l.length
  · -- the layer starts at the first index of order at least `j` and stops at the first of
    -- order above `j`
    have hstart := findIdx?_getD_le_iff (q := fun x => decide (x.2.sum ≥ j))
      (hsorted.imp fun hpq hp => decide_eq_true (by have := of_decide_eq_true hp; omega)) hi
    have hstop := findIdx?_getD_le_iff (q := fun x => decide (x.2.sum > j))
      (hsorted.imp fun hpq hp => decide_eq_true (by have := of_decide_eq_true hp; omega)) hi
    simp only [decide_eq_true_eq] at hstart hstop
    rw [List.getElem?_eq_getElem hi]
    simp only [Option.some.injEq, exists_eq_left', Nat.max_def]
    constructor
    · rintro ⟨hle, hlt⟩
      split at hlt <;> omega
    · intro hj
      refine ⟨hstart.2 (by omega), ?_⟩
      split <;> omega
  · -- past the end there is no index, and the range stops at the end
    rw [List.getElem?_eq_none (by omega)]
    simp only [reduceCtorEq, false_and, exists_false, iff_false, not_and, Nat.max_def]
    intro hle
    split <;> omega

/-- On distinct multi-indices, `indexOf?` inverts `mindex?`. -/
theorem indexOf?_eq_some_iff {vs : VarSystem} (hnodup : vs.mindices.Nodup) (k : Nat)
    (m : List Nat) (i : Nat) : vs.indexOf? k m = some i ↔ vs.mindex? i = some (k, m) := by
  unfold indexOf? mindex?
  rw [List.findIdx?_eq_some_iff_getElem, List.getElem?_eq_some_iff]
  constructor
  · rintro ⟨hi, hq, -⟩
    exact ⟨hi, Prod.ext_iff.2 (by simpa using hq)⟩
  · rintro ⟨hi, hki⟩
    refine ⟨hi, by simp [hki], fun j hji hq => ?_⟩
    have hkj : vs.mindices[j] = (k, m) := Prod.ext_iff.2 (by simpa using hq)
    have := (hnodup.getElem_inj_iff (i := j) (j := i)).1 (hkj.trans hki.symm)
    omega

/-! ## The layout -/

/-- The layout of a variational system of `sys` over `n` arguments up to order `K`: one state
variable per component and multi-index of total order at most `K`, the originals first, in
layers of increasing order, under distinct names; `orderRange` reads the layers and `indexOf?`
the positions; and a right-hand side mentions only variables of order at most its own. -/
structure Layout (vs : VarSystem) (sys : OdeSystem) (n K : Nat) : Prop where
  nEq_eq : vs.nEq = sys.dimension * (n + K).choose K
  length_mindices : vs.mindices.length = vs.nEq
  originals : vs.system.state.take sys.dimension = sys.state
  zero_layer : vs.mindices.take sys.dimension =
    (List.range sys.dimension).map fun k => (k, List.replicate n 0)
  mem_mindices : ∀ p, p ∈ vs.mindices ↔ p.1 < sys.dimension ∧ p.2.length = n ∧ p.2.sum ≤ K
  nodup_mindices : vs.mindices.Nodup
  sorted : vs.mindices.Pairwise fun p q => p.2.sum ≤ q.2.sum
  nodup_state : vs.system.state.Nodup
  orderRange_iff : ∀ j i, (vs.orderRange j).1 ≤ i ∧ i < (vs.orderRange j).2 ↔
    ∃ p, vs.mindex? i = some p ∧ p.2.sum = j
  indexOf?_iff : ∀ k m i, vs.indexOf? k m = some i ↔ vs.mindex? i = some (k, m)
  rhs_order : ∀ i p e, vs.mindex? i = some p → vs.system.rhs[i]? = some e →
    ∀ v, Occurs (.var v) e →
      ∃ i' q, vs.system.state[i']? = some v ∧ vs.mindex? i' = some q ∧ q.2.sum ≤ p.2.sum

/-- A name of the augmented state is not elementary when the originals are not. -/
theorem isElementary_varName {state : List String}
    (helem : ∀ v ∈ state, Variable.elementaryIndex? v = none) {q : Nat × List Nat}
    (hq : q.1 < state.length) : Variable.isElementary (varName state q) = false := by
  unfold Variable.isElementary varName
  split_ifs
  · rw [helem _ (by simp [hq])]
    rfl
  · rw [elementaryIndex?_variationalName]
    rfl

/-- The names of the indices up to any order are distinct. -/
theorem nodup_names {state : List String} (hnodup : state.Nodup)
    (hplain : ∀ v ∈ state, Variable.isVariational v = false) {n : Nat} (hn : 0 < n) (K : Nat) :
    ((indicesUpTo n state.length K).map (varName state)).Nodup :=
  nodup_map_varName hnodup hplain (nodup_indicesUpTo hn K) fun p hp => by
    obtain ⟨h1, h2, -⟩ := (mem_indicesUpTo hn).1 hp
    exact ⟨h1, h2⟩

/-- A variational system whose state, multi-indices and right-hand sides are read off tables
holding the layers up to `K` has the layout of order `K`. -/
theorem Layout.of_tables {sys : OdeSystem} (hnodup : sys.state.Nodup)
    (hplain : ∀ v ∈ sys.state, Variable.isVariational v = false) {n K : Nat} (hn : 0 < n)
    {tb : Tables} (hind : Indexed sys.state tb (indicesUpTo n sys.state.length K))
    (hbuilt : Built sys.state tb (indicesUpTo n sys.state.length K)) {vs : VarSystem}
    (hmind : vs.mindices = tb.mindices.toList) (hstate : vs.system.state = tb.names.toList)
    (hrhs : vs.system.rhs = tb.rhs.toList) : vs.Layout sys n K := by
  have hmind' : vs.mindices = indicesUpTo n sys.state.length K := hmind.trans hind.mindices
  have hstate' : vs.system.state = (indicesUpTo n sys.state.length K).map (varName sys.state) :=
    hstate.trans hind.names
  have hnEq : vs.nEq = (indicesUpTo n sys.state.length K).length := by
    rw [nEq, OdeSystem.dimension, hstate', List.length_map]
  -- the zero layer opens the list
  have hzero : vs.mindices.take sys.dimension = indicesUpTo n sys.state.length 0 := by
    have hpre : indicesUpTo n sys.state.length 0 = _ :=
      List.prefix_iff_eq_take.1 (isPrefix_indicesUpTo_zero K)
    rw [hpre, indicesUpTo_zero hn, List.length_map, List.length_range, hmind']
    rfl
  have hsorted : vs.mindices.Pairwise fun p q => p.2.sum ≤ q.2.sum :=
    hmind' ▸ pairwise_indicesUpTo hn K
  have hnd : vs.mindices.Nodup := hmind' ▸ nodup_indicesUpTo hn K
  refine ⟨?_, ?_, ?_, ?_, ?_, hnd, hsorted, ?_, VarSystem.orderRange_iff hsorted,
    indexOf?_eq_some_iff hnd, ?_⟩
  · rw [hnEq, length_indicesUpTo hn]
    rfl
  · rw [hnEq, hmind']
  · rw [hstate', ← List.map_take, ← hmind', hzero, map_varName_indicesUpTo_zero hn]
  · rw [hzero, indicesUpTo_zero hn]
    rfl
  · intro p
    rw [hmind', mem_indicesUpTo hn]
    rfl
  · rw [hstate']
    exact nodup_names hnodup hplain hn K
  · -- a right-hand side mentions variables named after indices of order at most its own
    intro i p e hp he v hv
    rw [mindex?, hmind'] at hp
    rw [hrhs, Array.getElem?_toList] at he
    obtain ⟨q, hq, rfl, hsum⟩ := allNodes_varIn_iff.1 (hbuilt.rhs_vars i p e hp he) v hv
    obtain ⟨i', hi'⟩ := List.mem_iff_getElem?.1 hq
    refine ⟨i', q, ?_, by rw [mindex?, hmind', hi'], hsum⟩
    rw [hstate', List.getElem?_map, hi']
    rfl

/-! ## The construction succeeds -/

/-- The variational system of a validated system whose state names are not variational, over a
non-empty list of distinct arguments whose variables are state variables, up to an order
`K ≥ 1`, is built, and has the layout of its `D · C(n + K, K)` variables. Every operator of the
system accepts its number of arguments, as every expression that can be built does. -/
theorem ofSystem_layout {eqs : List (Expr × Expr)} {sys : OdeSystem}
    (hsys : OdeSystem.ofEquations eqs = .ok sys)
    (hplain : ∀ v ∈ sys.state, Variable.isVariational v = false)
    (harity : ∀ f ∈ sys.rhs, ArityOk f) {args : List VarArg} (hargs : args ≠ [])
    (hdistinct : args.Nodup) (hstate : ∀ v, VarArg.var v ∈ args → v ∈ sys.state) {K : Nat}
    (hK : 1 ≤ K) :
    ∃ vs, ofSystem sys args K = .ok vs ∧ vs.Layout sys args.length K := by
  obtain ⟨-, state, hcollect, -, hsys'⟩ := Decomposition.ofEquations_eq_ok.1 hsys
  obtain ⟨helem, hvars, hrhs⟩ := Decomposition.ofEquations_valid hsys
  obtain ⟨hnodup, hlen⟩ : sys.state.Nodup ∧ sys.rhs.length = sys.state.length := by
    obtain ⟨hnd, hlen⟩ := collectState_nodup eqs [] state hcollect List.nodup_nil
    subst hsys'
    exact ⟨hnd, by simp [hlen]⟩
  have hn : 0 < args.length := List.length_pos_of_ne_nil hargs
  unfold ofSystem
  simp only [show (K == 0) = false by simp; omega, show args.isEmpty = false by simpa using hargs,
    Bool.false_eq_true, if_false]
  -- the arguments are distinct and their variables are state variables
  rw [forIn_push_ok (P := fun a => ∀ v, a = .var v → v ∈ sys.state) ?_ args []
    (by simpa using hdistinct) fun a ha v hv => hstate v (hv ▸ ha)]
  rotate_left
  · intro a s ha hPa
    have hc : s.contains a = false := by simpa using ha
    simp only [hc, Bool.false_eq_true, if_false]
    cases a with
    | var v =>
      have hidx : (sys.indexOf? v).isNone = false := by
        simp [OdeSystem.indexOf?, hPa v rfl]
      simp only [hidx, Bool.false_eq_true, if_false]
      rfl
    | param i => rfl
    | time => rfl
  refine exists_bind_eq_ok (I := fun _ => True) ⟨_, rfl, trivial⟩ fun _ _ => ?_
  -- no state name is variational
  rw [List.find?_eq_none.2 fun v hv => by simp [hplain v hv]]
  dsimp only
  -- the layers are built
  refine exists_bind_eq_ok (foldlM_addLayer_ok hnodup hplain hn
    (Indexed.start hnodup hn rfl rfl rfl rfl) (Built.start hn hlen harity hvars rfl rfl) K)
    fun tb htb => ?_
  obtain ⟨hind, hbuilt⟩ := htb
  -- and they form a system
  have hsysOk : OdeSystem.ofEquations ((tb.names.toList.map Expr.var).zip tb.rhs.toList) =
      .ok ⟨tb.names.toList, tb.rhs.toList⟩ := by
    rw [hind.names]
    refine ofEquations_zip_ok ?_ ?_ ?_ ?_ ?_
    · have hD : 0 < sys.state.length := by
        rw [← hlen]
        exact List.length_pos_of_ne_nil hrhs
      have hmem : (0, List.replicate args.length 0) ∈ indicesUpTo args.length sys.state.length K :=
        (mem_indicesUpTo hn).2 ⟨hD, by simp, by simp⟩
      exact List.ne_nil_of_mem (List.mem_map_of_mem hmem)
    · rw [Array.length_toList, hbuilt.rhs_size, List.length_map]
    · exact nodup_names hnodup hplain hn K
    · intro v hv
      obtain ⟨q, hq, rfl⟩ := List.mem_map.1 hv
      exact isElementary_varName helem ((mem_indicesUpTo hn).1 hq).1
    · intro f hf v hv
      obtain ⟨i, hi⟩ := List.mem_iff_getElem?.1 hf
      rw [Array.getElem?_toList] at hi
      have hiL : i < (indicesUpTo args.length sys.state.length K).length := by
        rw [← hbuilt.rhs_size]
        exact (Array.getElem?_eq_some_iff.1 hi).1
      obtain ⟨q, hq, rfl, -⟩ := allNodes_varIn_iff.1
        (hbuilt.rhs_vars i _ f (List.getElem?_eq_getElem hiL) hi) v hv
      exact List.mem_map_of_mem hq
  rw [hsysOk]
  exact ⟨_, rfl, Layout.of_tables hnodup hplain hn hind hbuilt rfl rfl rfl⟩

/-- The system `x' = v, v' = x` over both initial values up to order two. -/
theorem ofSystem_crossed_layout :
    OdeSystem.ofEquations ((["x", "v"].map Expr.var).zip [.var "v", .var "x"]) =
      .ok ⟨["x", "v"], [.var "v", .var "x"]⟩ ∧
    ∃ vs, ofSystem ⟨["x", "v"], [.var "v", .var "x"]⟩ [.var "x", .var "v"] 2 = .ok vs ∧
      vs.Layout ⟨["x", "v"], [.var "v", .var "x"]⟩ 2 2 := by
  have hvars : ∀ f ∈ [Expr.var "v", .var "x"], ∀ v, Occurs (.var v) f → v ∈ ["x", "v"] := by
    intro f hf v hv
    simp only [List.mem_cons, List.not_mem_nil, or_false] at hf
    rcases hf with rfl | rfl <;> cases hv <;> simp
  have hsys := ofEquations_zip_ok (by simp) rfl (by decide) (by decide) hvars
  refine ⟨hsys, ofSystem_layout hsys (by decide) ?_ (by simp) (by simp) (by simp) (by decide)⟩
  intro f hf
  simp only [List.mem_cons, List.not_mem_nil, or_false] at hf
  rcases hf with rfl | rfl <;> exact fun _ _ _ _ h => nomatch h

end VarSystem

end TaylorOde
