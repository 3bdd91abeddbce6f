import TaylorOde.Proofs.Ode.VariationalLayout
import TaylorOde.Proofs.Integrator.Shape
import Mathlib
/-!
# The initial values of the variational equations

`ofSystem` builds the initial value of `∂^m x_k` by the recursion it uses for the right-hand
side: the derivative, by the first argument `a` with `m_a > 0`, of the initial value of
`m - e_a`, starting from `x_k` itself. When no argument is the initial time, every argument is
an initial value `x_j(t₀)` or a parameter, and the recursion settles after one step: `x_k`
differentiated by `x_j(t₀)` is one exactly for `j = k`, and a literal differentiated by
anything is zero. So the initial values are `x_k` for the originals, one for the unit index
`e_a` of an argument `x_k(t₀)`, and zero for every other index (`startValue`); evaluated, they
are `x₀` followed by the identity pattern at order one and zeros above it.

## Shape of the proof

* `diffBy_startValue`: the derivative of the parent's start value is the start value.
* `Started`: the tables index the layers up to some order and hold their start values. The
  tables `ofSystem` starts from are started (`Started.start`), and adding a layer keeps them
  started (`Started.addLayer`), hence so does every run of layers (`Started.foldlM_addLayer`).
* `ofSystem_started`: a built variational system reads its state and initial values off
  started tables.
* `initialValues_seeded`: the initial values, symbolically and evaluated at a point.
* `ofSystem_ok`: the systems the checks of `ofSystem` accept are built.
-/

namespace TaylorOde

open TaylorOde.Expr

/-! ## Unit multi-indices -/

/-- The unit multi-index `e_a` over `n` arguments. -/
def unitIndex (n a : Nat) : List Nat := (List.replicate n 0).set a 1

@[simp] theorem unitIndex_succ_zero (n : Nat) :
    unitIndex (n + 1) 0 = 1 :: List.replicate n 0 := rfl

@[simp] theorem unitIndex_succ_succ (n a : Nat) :
    unitIndex (n + 1) (a + 1) = 0 :: unitIndex n a := rfl

theorem sum_unitIndex : ∀ {n a : Nat}, a < n → (unitIndex n a).sum = 1
  | _ + 1, 0, _ => by simp
  | _ + 1, _ + 1, h => by simp [sum_unitIndex (Nat.lt_of_succ_lt_succ h)]

theorem findIdx?_unitIndex : ∀ {n a : Nat}, a < n → (unitIndex n a).findIdx? (· > 0) = some a
  | _ + 1, 0, _ => by simp [List.findIdx?_cons]
  | _ + 1, _ + 1, h => by simp [List.findIdx?_cons, findIdx?_unitIndex (Nat.lt_of_succ_lt_succ h)]

theorem unitIndex_injective {n a b : Nat} (ha : a < n) (hb : b < n)
    (h : unitIndex n a = unitIndex n b) : a = b := by
  have := findIdx?_unitIndex ha
  rw [h, findIdx?_unitIndex hb] at this
  exact (Option.some.inj this).symm

/-- A multi-index of total order one is the unit index at its first positive entry. -/
theorem eq_unitIndex : ∀ {m : List Nat} {a : Nat}, m.sum = 1 → m.findIdx? (· > 0) = some a →
    m = unitIndex m.length a
  | [], _, hsum, _ => by simp at hsum
  | e :: m, a, hsum, hfind => by
    rw [List.sum_cons] at hsum
    rw [List.findIdx?_cons] at hfind
    by_cases he : 0 < e
    · -- the first entry is the one, and the rest is zero
      simp only [he, decide_true, if_true, Option.some.injEq] at hfind
      subst hfind
      have hrest : m = List.replicate m.length 0 :=
        List.eq_replicate_iff.2 ⟨rfl, fun x hx => List.sum_eq_zero_iff.1 (by omega) x hx⟩
      rw [List.length_cons, unitIndex_succ_zero, ← hrest]
      congr
      omega
    · simp only [he, decide_false, Bool.false_eq_true, if_false, Option.map_eq_some_iff] at hfind
      obtain ⟨a, hfind, rfl⟩ := hfind
      rw [List.length_cons, unitIndex_succ_succ, ← eq_unitIndex (by omega) hfind]
      congr
      omega

namespace VarSystem

/-! ## Start values -/

/-- Whether `∂^m x` starts at one: `m` is the unit index `e_a` of an argument `a` that is the
initial value of `x`. -/
def seeds (args : List VarArg) (x : String) (m : List Nat) : Bool :=
  (List.range args.length).any fun a => m == unitIndex args.length a && args[a]? == some (.var x)

/-- The initial value of `∂^m x_k` over arguments none of which is the initial time: `x_k`
itself for the zero index, one where `seeds` says so, zero for every other index. -/
def startValue (state : List String) (args : List VarArg) (p : Nat × List Nat) : Expr :=
  if p.2.sum = 0 then .var (state.getD p.1 "")
  else if seeds args (state.getD p.1 "") p.2 then one else zero

section Seeds

variable {args : List VarArg} {x : String} {m : List Nat}

theorem seeds_of_sum_ne_one (h : m.sum ≠ 1) : seeds args x m = false := by
  rw [seeds, List.any_eq_false]
  intro a ha hm
  simp only [Bool.and_eq_true, beq_iff_eq] at hm
  exact h (hm.1 ▸ sum_unitIndex (List.mem_range.1 ha))

/-- A multi-index of order one seeds `x` when the argument at its positive entry is the initial
value of `x`. -/
theorem seeds_of_findIdx? {a : Nat} (hlen : m.length = args.length) (hsum : m.sum = 1)
    (hfind : m.findIdx? (· > 0) = some a) : seeds args x m = (args[a]? == some (.var x)) := by
  have ha : a < args.length := hlen ▸ (List.findIdx?_eq_some_iff_getElem.1 hfind).1
  have hm : m = unitIndex args.length a := hlen ▸ eq_unitIndex hsum hfind
  apply Bool.eq_iff_iff.2
  rw [seeds, List.any_eq_true]
  constructor
  · -- only the term of `a` itself can hold
    rintro ⟨b, hb, hmb⟩
    simp only [Bool.and_eq_true, beq_iff_eq] at hmb
    obtain rfl := unitIndex_injective ha (List.mem_range.1 hb) (hm.symm.trans hmb.1)
    simp [hmb.2]
  · intro h
    exact ⟨a, List.mem_range.2 ha, by simpa [hm] using h⟩

end Seeds

/-- A literal differentiated by an argument is zero. -/
theorem diffBy_num_of_toExpr? {b : VarArg} {x : Expr} (hx : b.toExpr? = some x) (n : Literal) :
    diffBy x (.num n) = zero := by
  cases b <;> cases hx <;> (unfold diffBy; rfl)

/-- A variable differentiated by an argument is one exactly when the argument is its initial
value. -/
theorem diffBy_var_of_toExpr? {b : VarArg} {x : Expr} (hx : b.toExpr? = some x) (v : String) :
    diffBy x (.var v) = if b == .var v then one else zero := by
  cases b with
  | var w =>
    cases hx
    unfold diffBy
    rw [show (Expr.var v == Expr.var w) = (v == w) from rfl]
    by_cases hvw : v = w
    · simp [hvw]
    · simp [hvw, Ne.symm hvw]
  | param i =>
    cases hx
    unfold diffBy
    rfl
  | time => cases hx

/-- The start value of `m` is the derivative of the start value of its parent `m - e_a`, by the
argument `a` at the first positive entry of `m`. -/
theorem diffBy_startValue {state : List String} {args : List VarArg} {k a : Nat} {m : List Nat}
    {x : Expr} (hlen : m.length = args.length) (hfind : m.findIdx? (· > 0) = some a)
    (hx : (args.getD a .time).toExpr? = some x) :
    diffBy x (startValue state args (k, m.modify a (· - 1))) = startValue state args (k, m) := by
  obtain ⟨ha, hpos, -⟩ := List.findIdx?_eq_some_iff_getElem.1 hfind
  have hsum := sum_modify_add ha (· - 1)
  have hpos' : 0 < m[a] := by simpa using hpos
  unfold startValue
  dsimp only
  by_cases hp : (m.modify a (· - 1)).sum = 0
  · -- the parent is `x_k` itself, and `m` is the unit index `e_a`
    have hm : m.sum = 1 := by omega
    have ha' : a < args.length := hlen ▸ ha
    rw [if_pos hp, if_neg (show ¬m.sum = 0 by omega), seeds_of_findIdx? hlen hm hfind,
      diffBy_var_of_toExpr? hx,
      List.getD_eq_getElem _ _ ha', List.getElem?_eq_getElem ha', Option.some_beq_some]
  · -- the parent's value is a literal, and `m` is of order at least two
    rw [if_neg hp, if_neg (show ¬m.sum = 0 by omega), seeds_of_sum_ne_one (m := m) (by omega)]
    split <;> exact diffBy_num_of_toExpr? hx _

/-! ## The tables along the construction -/

/-- The tables index the layers `l`, hold the start value of each as its initial value, and a
right-hand side for each. -/
structure Started (state : List String) (args : List VarArg) (tb : Tables)
    (l : List (Nat × List Nat)) : Prop where
  indexed : Indexed state tb l
  ics : tb.ics.toList = l.map (startValue state args)
  rhs_size : tb.rhs.size = l.length

section Started

variable {state : List String} {args : List VarArg}

/-- The initial value of an entry of layer `J + 1` is its start value, once the layer is
registered over tables holding the start values of the layers up to `J`. -/
theorem entryOf_startValue (hn : 0 < args.length) (htime : VarArg.time ∉ args) {tb : Tables}
    {J : Nat} (hind : Indexed state tb (indicesUpTo args.length state.length (J + 1)))
    (hics : tb.ics.toList = (indicesUpTo args.length state.length J).map (startValue state args))
    {k : Nat} {m : List Nat} (hkm : (k, m) ∈ layerIndices args.length state.length (J + 1))
    {start i : Nat} {rc : Expr × Expr} (h : entryOf args tb start (J + 1) i k m = .ok rc) :
    rc.2 = startValue state args (k, m) := by
  obtain ⟨-, hlen, -⟩ := (mem_layerIndices hn).1 hkm
  -- the parent `m - e_a` is at position `p`, with its start value
  obtain ⟨a, hfind, ha, -, p, hp⟩ := exists_parent hn hkm
  rw [indicesUpTo_succ] at hind
  generalize hL : indicesUpTo args.length state.length J = L at hind hics hp
  have hp' : (L ++ layerIndices args.length state.length (J + 1))[p]? =
      some (k, m.modify a (· - 1)) := by
    rw [List.getElem?_append_left (List.getElem?_eq_some_iff.1 hp).1, hp]
  have hicP : tb.ics[p]? = some (startValue state args (k, m.modify a (· - 1))) := by
    rw [← Array.getElem?_toList, hics, List.getElem?_map, hp]
    rfl
  -- the argument `a` is a state variable or a parameter, never the initial time
  obtain ⟨x, hx⟩ : ∃ x, (args.getD a .time).toExpr? = some x := by
    rw [List.getD_eq_getElem _ _ ha]
    cases hb : args[a] with
    | var v => exact ⟨_, rfl⟩
    | param j => exact ⟨_, rfl⟩
    | time => exact absurd (hb ▸ List.getElem_mem ha) htime
  unfold entryOf at h
  simp only [hfind, Option.getD_some, hind.lookup_getD hp', Array.getD_eq_getD_getElem?, hicP,
    hx] at h
  obtain ⟨rhsM, -, h⟩ := outcome_bind_eq_ok.1 h
  rw [diff_eq_ok (VarArg.checkDiffArg_toExpr? hx)] at h
  cases h
  exact diffBy_startValue hlen hfind hx

/-- The originals start from themselves. -/
theorem map_startValue_indicesUpTo_zero (hn : 0 < args.length) :
    (indicesUpTo args.length state.length 0).map (startValue state args) = state.map Expr.var := by
  rw [indicesUpTo_zero hn, List.map_map]
  refine List.ext_getElem (by simp) fun i h₁ h₂ => ?_
  simp [startValue, List.getElem?_eq_getElem (List.length_map _ ▸ h₂ : i < state.length)]

/-- The tables `ofSystem` starts from are started: the originals are indexed, each with itself
as initial value. -/
theorem Started.start (hnodup : state.Nodup) (hn : 0 < args.length) {rhs : List Expr}
    (hlen : rhs.length = state.length) {tb : Tables} (hnames : tb.names = state.toArray)
    (hmind : tb.mindices =
      ((List.range state.length).map fun k => (k, List.replicate args.length 0)).toArray)
    (hrhs : tb.rhs = rhs.toArray) (hics : tb.ics = (state.map Expr.var).toArray)
    (hlookup : tb.lookup = (List.range state.length).foldl
      (fun m k => m.insert (k, List.replicate args.length 0) k) {})
    (hbyName : tb.byName = state.zipIdx.foldl (fun m p => m.insert p.1 p.2) {}) :
    Started state args tb (indicesUpTo args.length state.length 0) := by
  refine ⟨Indexed.start hnodup hn hnames hmind hlookup hbyName, ?_, ?_⟩
  · rw [hics, List.toList_toArray, map_startValue_indicesUpTo_zero hn]
  · simp [hrhs, hlen, indicesUpTo_zero hn]

/-- Adding layer `J + 1` to started tables gives started tables. -/
theorem Started.addLayer (hnodup : state.Nodup)
    (hplain : ∀ v ∈ state, Variable.isVariational v = false) (hn : 0 < args.length)
    (htime : VarArg.time ∉ args) {tb tb' : Tables} {J : Nat}
    (hs : Started state args tb (indicesUpTo args.length state.length J))
    (h : addLayer args state.length args.length state tb (J + 1) = .ok tb') :
    Started state args tb' (indicesUpTo args.length state.length (J + 1)) := by
  have hsucc : indicesUpTo args.length state.length (J + 1) =
      indicesUpTo args.length state.length J ++ layerIndices args.length state.length (J + 1) :=
    indicesUpTo_succ J
  obtain ⟨T, hindT, hrhsT, hicsT, heq⟩ := addLayer_eq hnodup hplain hn hs.indexed
  rw [heq] at h
  obtain ⟨built, hbuilt, h⟩ := outcome_bind_eq_ok.1 h
  cases h
  have hentries := (mapM_except_eq_ok _ _ _).1 hbuilt
  have hlen : built.length = (layerIndices args.length state.length (J + 1)).length := by
    rw [← hentries.length_eq, List.length_zipIdx]
  -- each built entry carries the start value of its index
  have hstarts : (layerIndices args.length state.length (J + 1)).map (startValue state args) =
      built.map Prod.snd := by
    rw [← List.zipIdx_map_fst 0 (layerIndices args.length state.length (J + 1)), List.map_map,
      ← List.forall₂_eq_eq_eq, List.forall₂_map_left_iff, List.forall₂_map_right_iff]
    refine ((List.forall₂_and_left _ _).2 ⟨fun x hx => hx, hentries⟩).imp ?_
    rintro ⟨⟨k, m⟩, i⟩ rc ⟨hx, hrc⟩
    exact (entryOf_startValue hn htime hindT (by rw [hicsT]; exact hs.ics)
      (List.fst_mem_of_mem_zipIdx hx) hrc).symm
  refine ⟨⟨hindT.1, hindT.2, hindT.3, hindT.4⟩, ?_, ?_⟩
  · rw [Array.toList_appendList, hicsT, hs.ics, hsucc, List.map_append, hstarts]
  · rw [← Array.length_toList, Array.toList_appendList, List.length_append, Array.length_toList,
      hrhsT, hs.rhs_size, List.length_map, hlen, hsucc, List.length_append]

/-- A run of layers from started tables gives started tables. -/
theorem Started.foldlM_addLayer (hnodup : state.Nodup)
    (hplain : ∀ v ∈ state, Variable.isVariational v = false) (hn : 0 < args.length)
    (htime : VarArg.time ∉ args) {tb : Tables}
    (hs : Started state args tb (indicesUpTo args.length state.length 0)) :
    ∀ K {tb' : Tables}, (List.range K).foldlM
        (fun tb j => VarSystem.addLayer args state.length args.length state tb (j + 1)) tb = .ok tb' →
      Started state args tb' (indicesUpTo args.length state.length K)
  | 0, _, h => by
    cases h
    exact hs
  | K + 1, _, h => by
    rw [List.range_succ, List.foldlM_append] at h
    obtain ⟨tbK, hK, h⟩ := outcome_bind_eq_ok.1 h
    simp only [List.foldlM_cons, List.foldlM_nil, bind_pure] at h
    exact (Started.foldlM_addLayer hnodup hplain hn htime hs K hK).addLayer hnodup hplain hn htime h

end Started

/-! ## The originals first -/

section Originals

variable {nArgs dim : Nat}

/-- The layers up to any order open with the originals. -/
theorem indicesUpTo_zero_append_drop (hn : 0 < nArgs) (K : Nat) :
    indicesUpTo nArgs dim 0 ++ (indicesUpTo nArgs dim K).drop dim = indicesUpTo nArgs dim K := by
  have hsplit : indicesUpTo nArgs dim 0 ++
      (indicesUpTo nArgs dim K).drop (indicesUpTo nArgs dim 0).length = indicesUpTo nArgs dim K :=
    List.prefix_iff_eq_append.1 (isPrefix_indicesUpTo_zero K)
  rwa [show (indicesUpTo nArgs dim 0).length = dim by simp [indicesUpTo_zero hn]] at hsplit

/-- Past the originals, every index is of positive order. -/
theorem sum_ne_zero_of_mem_drop (hn : 0 < nArgs) {K : Nat} {p : Nat × List Nat}
    (hp : p ∈ (indicesUpTo nArgs dim K).drop dim) : p.2.sum ≠ 0 := by
  -- an index of order zero is an original, and no index is listed twice
  have hnd : (indicesUpTo nArgs dim K).Nodup := nodup_indicesUpTo hn K
  rw [← indicesUpTo_zero_append_drop hn K] at hnd
  obtain ⟨hk, hlen, -⟩ := (mem_indicesUpTo hn).1 (List.mem_of_mem_drop hp)
  exact fun hsum =>
    List.disjoint_of_nodup_append hnd ((mem_indicesUpTo hn).2 ⟨hk, hlen, by omega⟩) hp

end Originals

/-! ## Reading a built variational system -/

/-- The state collected from equations whose left-hand sides are variables is their names. -/
theorem collectState_map_var : ∀ (names seen : List String) (rhs : List Expr) (state : List String),
    names.length ≤ rhs.length →
      OdeSystem.collectState ((names.map Expr.var).zip rhs) seen = .ok state →
      state = seen.reverse ++ names
  | [], seen, _, state, _, h => by
    simp only [List.map_nil, List.zip_nil_left, OdeSystem.collectState, Except.ok.injEq] at h
    simp [h]
  | v :: names, seen, f :: rhs, state, hlen, h => by
    simp only [List.map_cons, List.zip_cons_cons, OdeSystem.collectState] at h
    split_ifs at h
    rw [collectState_map_var names (v :: seen) rhs state (by simpa using hlen) h]
    simp
  | _ :: _, _, [], _, hlen, _ => by simp at hlen

/-- A system built from equations `names[i]' = rhs[i]` has the names as its state. -/
theorem ofEquations_zip_state {names : List String} {rhs : List Expr} {sys : OdeSystem}
    (hlen : names.length ≤ rhs.length)
    (h : OdeSystem.ofEquations ((names.map Expr.var).zip rhs) = .ok sys) : sys.state = names := by
  obtain ⟨-, state, hcollect, -, rfl⟩ := Decomposition.ofEquations_eq_ok.1 h
  simpa using collectState_map_var names [] rhs state hlen hcollect

/-- A validated system has distinct state names, one right-hand side each. -/
theorem ofEquations_nodup {eqs : List (Expr × Expr)} {sys : OdeSystem}
    (hsys : OdeSystem.ofEquations eqs = .ok sys) :
    sys.state.Nodup ∧ sys.rhs.length = sys.state.length := by
  obtain ⟨-, state, hcollect, -, rfl⟩ := Decomposition.ofEquations_eq_ok.1 hsys
  obtain ⟨hnd, hlen⟩ := collectState_nodup eqs [] state hcollect List.nodup_nil
  exact ⟨hnd, by simp [hlen]⟩

/-- A variational system over arguments none of which is the initial time reads its state,
multi-indices and initial values off started tables of the layers up to its order. -/
theorem ofSystem_started {eqs : List (Expr × Expr)} {sys : OdeSystem}
    (hsys : OdeSystem.ofEquations eqs = .ok sys) {args : List VarArg} (htime : VarArg.time ∉ args)
    {K : Nat} {vs : VarSystem} (hvs : ofSystem sys args K = .ok vs) :
    0 < args.length ∧ ∃ tb, Started sys.state args tb (indicesUpTo args.length sys.state.length K) ∧
      vs.system.state = tb.names.toList ∧ vs.nOrig = sys.dimension ∧
      vs.mindices = tb.mindices.toList ∧ vs.ics = tb.ics.toList := by
  obtain ⟨hnodup, hlen⟩ := ofEquations_nodup hsys
  unfold ofSystem at hvs
  by_cases hK : K = 0
  · simp [hK, throw, throwThe, MonadExceptOf.throw, bind, Except.bind] at hvs
  by_cases hargs : args = []
  · simp [hK, hargs, throw, throwThe, MonadExceptOf.throw, bind, Except.bind] at hvs
  have hn : 0 < args.length := List.length_pos_of_ne_nil hargs
  simp only [show (K == 0) = false by simpa using hK, show args.isEmpty = false by simpa using hargs,
    Bool.false_eq_true, if_false] at hvs
  -- past the checks on the arguments, no state name is variational
  obtain ⟨-, -, hvs⟩ := outcome_bind_eq_ok.1 hvs
  cases hfind : sys.state.find? Variable.isVariational with
  | some v => simp [hfind, throw, throwThe, MonadExceptOf.throw, bind, Except.bind] at hvs
  | none =>
  have hplain : ∀ v ∈ sys.state, Variable.isVariational v = false := fun v hv => by
    simpa using List.find?_eq_none.1 hfind v hv
  simp only [hfind] at hvs
  obtain ⟨tb, hfold, hvs⟩ := outcome_bind_eq_ok.1 hvs
  obtain ⟨aug, haug, hvs⟩ := outcome_bind_eq_ok.1 hvs
  cases hvs
  have hs := Started.foldlM_addLayer hnodup hplain hn htime
    (Started.start hnodup hn hlen rfl rfl rfl rfl rfl rfl) K hfold
  refine ⟨hn, tb, hs, ofEquations_zip_state ?_ haug, rfl, rfl, rfl⟩
  rw [hs.indexed.names, List.length_map, ← hs.rhs_size, Array.length_toList]

/-- The equations of tables that hold the layers up to `K` over a validated system form a
system, whose state and right-hand sides are the tables'. -/
theorem ofEquations_tables_ok {state : List String} (hnodup : state.Nodup)
    (hplain : ∀ v ∈ state, Variable.isVariational v = false)
    (helem : ∀ v ∈ state, Variable.elementaryIndex? v = none) (hD : 0 < state.length)
    {n K : Nat} (hn : 0 < n) {tb : Tables} (hind : Indexed state tb (indicesUpTo n state.length K))
    (hbuilt : Built state tb (indicesUpTo n state.length K)) :
    OdeSystem.ofEquations ((tb.names.toList.map Expr.var).zip tb.rhs.toList) =
      .ok ⟨tb.names.toList, tb.rhs.toList⟩ := by
  rw [hind.names]
  refine ofEquations_zip_ok (List.ne_nil_of_mem (List.mem_map_of_mem
      ((mem_indicesUpTo hn).2 ⟨hD, by simp, by simp⟩ :
        (0, List.replicate n 0) ∈ indicesUpTo n state.length K)))
      (by rw [Array.length_toList, hbuilt.rhs_size, List.length_map])
      (nodup_names hnodup hplain hn K) (fun v hv => ?_) fun f hf v hv => ?_
  · -- no name is elementary, as no original is
    obtain ⟨q, hq, rfl⟩ := List.mem_map.1 hv
    exact isElementary_varName helem ((mem_indicesUpTo hn).1 hq).1
  · -- a right-hand side mentions only variables named in the tables
    obtain ⟨i, hi⟩ := List.mem_iff_getElem?.1 hf
    rw [Array.getElem?_toList] at hi
    have hiL : i < (indicesUpTo n state.length K).length := by
      rw [← hbuilt.rhs_size]
      exact (Array.getElem?_eq_some_iff.1 hi).1
    obtain ⟨q, hq, rfl, -⟩ := allNodes_varIn_iff.1
      (hbuilt.rhs_vars i _ f (List.getElem?_eq_getElem hiL) hi) v hv
    exact List.mem_map_of_mem hq

/-- A validated system whose state names are not variational has a variational system over every
non-empty list of distinct arguments whose variables are state variables, up to every order
`K ≥ 1`; it lists the indices up to that order. -/
theorem ofSystem_ok {eqs : List (Expr × Expr)} {sys : OdeSystem}
    (hsys : OdeSystem.ofEquations eqs = .ok sys)
    (hplain : ∀ v ∈ sys.state, Variable.isVariational v = false)
    (harity : ∀ f ∈ sys.rhs, ArityOk f) {args : List VarArg} (hargs : args ≠ [])
    (hdistinct : args.Nodup) (hstate : ∀ v, VarArg.var v ∈ args → v ∈ sys.state) {K : Nat}
    (hK : 1 ≤ K) :
    ∃ vs, ofSystem sys args K = .ok vs ∧
      vs.mindices = indicesUpTo args.length sys.state.length K := by
  obtain ⟨hnodup, hlen⟩ := ofEquations_nodup hsys
  obtain ⟨helem, hvars, hrhs⟩ := Decomposition.ofEquations_valid hsys
  have hn : 0 < args.length := List.length_pos_of_ne_nil hargs
  unfold ofSystem
  simp only [show (K == 0) = false by simp; omega, show args.isEmpty = false by simpa using hargs,
    Bool.false_eq_true, if_false]
  -- every argument is new when it is met, and its variable is a state variable
  rw [forIn_push_ok (P := fun a => ∀ v, a = .var v → v ∈ sys.state) ?_ args []
    (by simpa using hdistinct) fun a ha v hv => hstate v (hv ▸ ha)]
  rotate_left
  · intro a s ha hPa
    simp only [show s.contains a = false by simpa using ha, Bool.false_eq_true, if_false]
    cases a with
    | var v =>
      simp only [show (sys.indexOf? v).isNone = false by simp [OdeSystem.indexOf?, hPa v rfl],
        Bool.false_eq_true, if_false]
      rfl
    | param i => rfl
    | time => rfl
  refine exists_bind_eq_ok (I := fun _ => True) ⟨_, rfl, trivial⟩ fun _ _ => ?_
  rw [List.find?_eq_none.2 fun v hv => by simp [hplain v hv]]
  dsimp only
  -- the layers are built over the originals, and their equations form a system
  refine exists_bind_eq_ok (foldlM_addLayer_ok hnodup hplain hn
    (Indexed.start hnodup hn rfl rfl rfl rfl) (Built.start hn hlen harity hvars rfl rfl) K)
    fun tb htb => ?_
  obtain ⟨hind, hbuilt⟩ := htb
  rw [ofEquations_tables_ok hnodup hplain helem (hlen ▸ List.length_pos_of_ne_nil hrhs) hn hind
    hbuilt]
  exact ⟨_, rfl, hind.mindices⟩

/-! ## The initial state at a point -/

theorem foldl_insert_eq_insertMany {κ β : Type} [BEq κ] [Hashable κ] :
    ∀ (l : List (κ × β)) (m : Std.HashMap κ β),
      l.foldl (fun m p => m.insert p.1 p.2) m = m.insertMany l
  | [], m => by simp
  | (k, v) :: l, m => by
    rw [List.foldl_cons, foldl_insert_eq_insertMany l, Std.HashMap.insertMany_cons]

/-- Binding distinct names to values in turn binds each name to its own value. -/
theorem getElem?_foldl_insert_zip {α : Type} {names : List String} (hnodup : names.Nodup)
    {xs : List α} (hlen : xs.length = names.length) {k : Nat} (hk : k < names.length) :
    ((names.zip xs).foldl (fun m p => m.insert p.1 p.2) ({} : Std.HashMap String α))[names[k]]? =
      xs[k]? := by
  have hk' : k < xs.length := hlen ▸ hk
  have hfst : (names.zip xs).map Prod.fst = names := List.map_fst_zip (by omega)
  have hdistinct : (names.zip xs).Pairwise fun a b => (a.1 == b.1) = false := by
    rw [← hfst, List.nodup_iff_pairwise_ne, List.pairwise_map] at hnodup
    exact hnodup.imp fun h => by simpa using h
  rw [foldl_insert_eq_insertMany, List.getElem?_eq_getElem hk']
  refine Std.HashMap.getElem?_insertMany_list_of_mem (beq_self_eq_true _) hdistinct ?_
  exact List.mem_iff_getElem.2 ⟨k, by simp [hk, hk'], by simp⟩

/-- A `mapM` in `Except` whose calls succeed with the values of a function maps the function. -/
theorem mapM_map_eq_ok {ε α β γ : Type} {f : β → Except ε γ} {h : α → β} {g : α → γ}
    {l : List α} (hfg : ∀ a ∈ l, f (h a) = .ok (g a)) : (l.map h).mapM f = .ok (l.map g) :=
  (mapM_except_eq_ok f _ _).2
    (List.forall₂_map_left_iff.2 (List.forall₂_map_right_iff.2 (List.forall₂_same.2 hfg)))

section Evaluation

variable {α : Type} [Scalar α]

theorem eval_one (v : Valuation α) : one.eval v = .ok Scalar.one := by
  simp [Expr.eval, one, lit, Literal.value, Literal.ofFloat, Scalar.one]

theorem eval_zero (v : Valuation α) : zero.eval v = .ok Scalar.zero := by
  simp [Expr.eval, zero, lit, Literal.value, Literal.ofFloat, Scalar.zero]

/-- The variables of distinct names bound to values in turn evaluate to those values. -/
theorem mapM_eval_vars {names : List String} (hnodup : names.Nodup) {xs : List α}
    (hlen : xs.length = names.length) (pars : Array α) (t0 : α) :
    (names.map Expr.var).mapM (Expr.eval
      { vars := (names.zip xs).foldl (fun m p => m.insert p.1 p.2) {}, pars := pars, time := t0 }) =
      .ok xs := by
  rw [mapM_except_eq_ok, List.forall₂_map_left_iff, List.forall₂_iff_get]
  refine ⟨hlen.symm, fun k hk hk' => ?_⟩
  simp only [List.get_eq_getElem]
  unfold Expr.eval
  rw [Std.HashMap.get?_eq_getElem?, getElem?_foldl_insert_zip hnodup hlen hk,
    List.getElem?_eq_getElem hk']

/-- Every index past the originals starts at one or zero. -/
theorem eval_startValue {state : List String} {args : List VarArg} (v : Valuation α)
    {p : Nat × List Nat} (hp : p.2.sum ≠ 0) :
    (startValue state args p).eval v =
      .ok (if seeds args (state.getD p.1 "") p.2 then Scalar.one else Scalar.zero) := by
  rw [startValue, if_neg hp]
  split
  · exact eval_one v
  · exact eval_zero v

end Evaluation

/-! ## The initial values -/

/-- Over arguments none of which is the initial time, the initial values of a variational
system are the start values of its multi-indices: each original is its own variable, `∂x_k/∂a`
is one when the argument `a` is `x_k(t₀)`, and every other derivative is zero. Evaluated at
`x₀`, they are `x₀` followed by that pattern of ones and zeros. -/
theorem initialValues_seeded {eqs : List (Expr × Expr)} {sys : OdeSystem}
    (hsys : OdeSystem.ofEquations eqs = .ok sys) {args : List VarArg} (htime : VarArg.time ∉ args)
    {K : Nat} {vs : VarSystem} (hvs : ofSystem sys args K = .ok vs) :
    vs.ics = vs.mindices.map (startValue sys.state args) ∧
    ∀ {α : Type} [Scalar α] (x0 : List α) (pars : Array α) (t0 : α), x0.length = sys.dimension →
      vs.initialState x0 pars t0 = .ok (x0 ++ (vs.mindices.drop sys.dimension).map fun p =>
        if seeds args (sys.state.getD p.1 "") p.2 then Scalar.one else Scalar.zero) := by
  obtain ⟨hnodup, -⟩ := ofEquations_nodup hsys
  obtain ⟨hn, tb, hs, hstate, hnOrig, hmind, hics⟩ := ofSystem_started hsys htime hvs
  have hL : vs.mindices = indicesUpTo args.length sys.state.length K :=
    hmind.trans hs.indexed.mindices
  have hstarts : vs.ics = vs.mindices.map (startValue sys.state args) := by
    rw [hics, hs.ics, hL]
  refine ⟨hstarts, fun x0 pars t0 hx0 => ?_⟩
  have hsplit : indicesUpTo args.length sys.state.length 0 ++
      (indicesUpTo args.length sys.state.length K).drop sys.state.length =
      indicesUpTo args.length sys.state.length K :=
    indicesUpTo_zero_append_drop hn K
  -- the originals name the first entries of the augmented state
  have horig : vs.system.state.take sys.dimension = sys.state := by
    rw [hstate, hs.indexed.names, ← List.map_take, ← hsplit,
      List.take_left' (by simp [indicesUpTo_zero hn, OdeSystem.dimension]),
      map_varName_indicesUpTo_zero hn]
  unfold initialState
  simp only [hnOrig, hx0, bne_self_eq_false, Bool.false_eq_true, if_false]
  rw [horig, hstarts, hL]
  -- the originals evaluate to `x₀`, and every later index, of positive order, to one or zero
  nth_rewrite 1 [← hsplit]
  rw [List.map_append, map_startValue_indicesUpTo_zero hn, List.mapM_append,
    mapM_eval_vars hnodup hx0, mapM_map_eq_ok (g := fun p =>
      if seeds args (sys.state.getD p.1 "") p.2 then Scalar.one else Scalar.zero)
      fun p hp => eval_startValue _ (sum_ne_zero_of_mem_drop hn hp)]
  rfl

/-- The system `x' = v, v' = x` over the initial value of `x`, a parameter and the initial
value of `v`, up to order two, started at `x₀ = (2, 3)`: the first-order derivatives start as
the identity in the two state arguments and as zero in the parameter, and every second-order
derivative starts at zero. -/
theorem crossed_initialState :
    OdeSystem.ofEquations ((["x", "v"].map Expr.var).zip [.var "v", .var "x"]) =
      .ok ⟨["x", "v"], [.var "v", .var "x"]⟩ ∧ VarArg.time ∉ [.var "x", .param 0, .var "v"] ∧
    ∃ vs, ofSystem ⟨["x", "v"], [.var "v", .var "x"]⟩ [.var "x", .param 0, .var "v"] 2 = .ok vs ∧
      vs.initialState ([2.0, 3.0] : List Float) #[0.5] 0.0 = .ok [2.0, 3.0,
        1.0, 0.0, 0.0, 0.0, 0.0, 1.0,
        0.0, 0.0, 0.0, 0.0, 0.0, 0.0, 0.0, 0.0, 0.0, 0.0, 0.0, 0.0] := by
  have hvars : ∀ f ∈ [Expr.var "v", .var "x"], ∀ v, Occurs (.var v) f → v ∈ ["x", "v"] := by
    intro f hf v hv
    simp only [List.mem_cons, List.not_mem_nil, or_false] at hf
    rcases hf with rfl | rfl <;> cases hv <;> simp
  have harity : ∀ f ∈ [Expr.var "v", .var "x"], ArityOk f := by
    intro f hf
    simp only [List.mem_cons, List.not_mem_nil, or_false] at hf
    rcases hf with rfl | rfl <;> exact fun _ _ _ _ h => nomatch h
  have hsys := ofEquations_zip_ok (by simp) rfl (by decide) (by decide) hvars
  obtain ⟨vs, hvs, hmind⟩ : ∃ vs, ofSystem ⟨["x", "v"], [.var "v", .var "x"]⟩
      [.var "x", .param 0, .var "v"] 2 = .ok vs ∧ vs.mindices = indicesUpTo 3 2 2 :=
    ofSystem_ok hsys (by decide) harity (by simp) (by simp) (by simp) (by decide)
  refine ⟨hsys, by simp, vs, hvs, ?_⟩
  rw [(initialValues_seeded hsys (by simp) hvs).2 ([2.0, 3.0] : List Float) #[0.5] 0.0 rfl, hmind]
  rfl

end VarSystem

end TaylorOde
