import TaylorOde.Proofs.Expr.Closure
import TaylorOde.Proofs.Ode.MultiIndex
/-!
# Building the variational equations layer by layer

`VarSystem.ofSystem` fills tables of names, multi-indices, right-hand sides and initial values,
one layer of total order at a time. This module proves that every step of it succeeds on a
valid system and keeps the tables in the shape the layout promises.

## Shape of the proof

* `totalDerivative_ok`: the total derivative of an expression succeeds when every variable
  it mentions has a variable one order up, and builds nothing but literals, accepted nodes,
  nodes of the expression and those variables.
* `Indexed state tb l`: the tables list the components and multi-indices `l`, name them by
  `varName`, and their two lookup tables invert the lists of indices and names.
* `Built state tb l`: the right-hand sides and initial values of the indices `l` are known;
  every operator in them accepts its arguments, and a right-hand side mentions only variables
  of total order at most its own.
* `Indexed.start`, `Built.start`: the tables `ofSystem` starts from hold the zero layer.
* `Indexed.register`, `entryOf_ok`, `Built.append`: registering a layer, building one of its
  entries, appending the built entries.
* `addLayer_ok`, `foldlM_addLayer_ok`: one layer, then all layers up to the order, keep both.
-/

namespace TaylorOde

open TaylorOde.Expr

/-! ## Loops in `Except` -/

/-- A loop whose every step continues and keeps an invariant succeeds with the invariant. -/
theorem forIn_except_inv {ε α σ : Type} (I : σ → Prop) :
    ∀ (l : List α) (init : σ) (f : α → σ → Except ε (ForInStep σ)), I init →
      (∀ x ∈ l, ∀ s, I s → ∃ s', f x s = .ok (.yield s') ∧ I s') →
      ∃ s, forIn l init f = .ok s ∧ I s
  | [], init, _, h0, _ => ⟨init, rfl, h0⟩
  | x :: l, init, f, h0, hstep => by
    obtain ⟨s', hs', hI⟩ := hstep x List.mem_cons_self init h0
    rw [List.forIn_cons, hs']
    exact forIn_except_inv I l s' f hI fun y hy => hstep y (List.mem_cons_of_mem _ hy)

/-- A computation followed by another succeeds with a property when the first succeeds with an
invariant from which the second does. -/
theorem exists_bind_eq_ok {ε α β : Type} {x : Except ε α} {k : α → Except ε β} {I : α → Prop}
    {Q : β → Prop} (hx : ∃ a, x = .ok a ∧ I a) (hk : ∀ a, I a → ∃ b, k a = .ok b ∧ Q b) :
    ∃ b, (x >>= k) = .ok b ∧ Q b := by
  obtain ⟨a, rfl, ha⟩ := hx
  exact hk a ha

/-! ## Tables of positions -/

/-- Inserting a new key at the position after a list extends a table that inverts the list. -/
theorem getElem?_insert_iff {κ : Type} [BEq κ] [Hashable κ] [LawfulBEq κ] {l : List κ}
    {m : Std.HashMap κ Nat} (hm : ∀ (x : κ) (i : Nat), m[x]? = some i ↔ l[i]? = some x)
    {y : κ} (hy : y ∉ l) (x : κ) (i : Nat) :
    (m.insert y l.length)[x]? = some i ↔ (l ++ [y])[i]? = some x := by
  rw [Std.HashMap.getElem?_insert, List.getElem?_append]
  by_cases hxy : y = x
  · -- the new key is found at the new position only
    subst hxy
    simp only [beq_self_eq_true, if_true, Option.some.injEq]
    split
    · exact ⟨fun h => absurd (h ▸ ‹i < l.length›) (Nat.lt_irrefl _),
        fun hi => absurd (List.mem_of_getElem? hi) hy⟩
    · rw [List.getElem?_singleton]
      constructor
      · rintro rfl
        simp
      · intro hi
        split_ifs at hi
        omega
  · -- another key is found where the table had it, never at the new position
    rw [if_neg (by simpa using hxy), hm]
    split
    · rfl
    · simp only [List.getElem?_singleton, Option.ite_none_right_eq_some, Option.some.injEq]
      constructor
      · intro hi
        obtain ⟨hlt', -⟩ := List.getElem?_eq_some_iff.1 hi
        omega
      · rintro ⟨-, rfl⟩
        exact absurd rfl hxy

/-- Inserting keys at the positions that follow a list extends a table that inverts the list. -/
theorem getElem?_foldl_insert_iff {κ : Type} [BEq κ] [Hashable κ] [LawfulBEq κ]
    {l : List κ} {m : Std.HashMap κ Nat} (hm : ∀ (x : κ) (i : Nat), m[x]? = some i ↔ l[i]? = some x) :
    ∀ {L : List (κ × Nat)}, (l ++ L.map Prod.fst).Nodup →
      L.map Prod.snd = List.range' l.length L.length → ∀ (x : κ) (i : Nat),
      (L.foldl (fun m p => m.insert p.1 p.2) m)[x]? = some i ↔ (l ++ L.map Prod.fst)[i]? = some x
  | [], _, _ => by simpa using hm
  | (y, v) :: L, hnodup, hpos => by
    simp only [List.map_cons, List.length_cons, List.range'_succ, List.cons.injEq] at hpos
    obtain ⟨rfl, hpos⟩ := hpos
    have hy : y ∉ l := fun hy => by
      have := List.nodup_append.1 hnodup
      exact this.2.2 y hy y List.mem_cons_self rfl
    have := getElem?_foldl_insert_iff (getElem?_insert_iff hm hy) (L := L)
      (by simpa using hnodup) (by simpa using hpos)
    simpa using this

/-! ## One total derivative -/

theorem Expr.VarIn.mono {S S' : String → Prop} (h : ∀ v, S v → S' v) {x : Expr}
    (hx : VarIn S x) : VarIn S' x := by
  cases x with
  | var v => exact h v hx
  | _ => trivial

theorem Expr.arityOk_diffBy (x : Expr) {e : Expr} (he : ArityOk e) : ArityOk (diffBy x e) :=
  arityOk_iff_allNodes.2 (allNodes_diffBy buildable_accepted x (arityOk_iff_allNodes.1 he))

theorem Expr.Buildable.and {P Q : Expr → Prop} (hP : Buildable P) (hQ : Buildable Q) :
    Buildable fun x => P x ∧ Q x :=
  ⟨fun n => ⟨hP.num n, hQ.num n⟩, fun h => ⟨hP.func h, hQ.func h⟩⟩

theorem Expr.AllNodes.and {P Q : Expr → Prop} {e : Expr} (hP : AllNodes P e) (hQ : AllNodes Q e) :
    AllNodes (fun x => P x ∧ Q x) e :=
  fun x hx => ⟨hP x hx, hQ x hx⟩

/-- The total derivative succeeds when every variable of the expression has a variable one
order up, and it builds nothing but literals, accepted nodes, nodes of the expression and
those variables. -/
theorem totalDerivative_ok {P : Expr → Prop} (hP : Buildable P) (t : NodeTag) {e : Expr}
    (he : AllNodes P e) {arg : Option Expr} (harg : ∀ x, arg = some x → checkDiffArg x = .ok ())
    {byName : Std.HashMap String Nat} {bump : Nat → Option String}
    (hbump : ∀ v, Occurs (.var v) e →
      ∃ idx dv, byName.get? v = some idx ∧ bump idx = some dv ∧ P (.var dv)) :
    ∃ r, VarSystem.totalDerivative t e arg byName bump = .ok r ∧ AllNodes P r := by
  unfold VarSystem.totalDerivative
  dsimp only
  generalize hw : (List.map Expr.var e.varNames ++ _) = wrt
  -- the gradient is taken with respect to the variables of `e`, and to a parameter argument
  have hwrt : ∀ a ∈ wrt, checkDiffArg a = .ok () := by
    subst hw
    intro a ha
    rcases List.mem_append.1 ha with ha | ha
    · obtain ⟨v, -, rfl⟩ := List.mem_map.1 ha
      rfl
    · split_ifs at ha
      · exact harg a (Option.mem_toList.1 ha)
      · cases ha
  refine exists_bind_eq_ok (gradientTagged_ok hP (t.child 0) he hwrt) fun grads hgP => ?_
  -- each variable with a nonzero derivative adds the derivative times the variable above it
  refine exists_bind_eq_ok (forIn_except_inv (fun terms : Array Expr => ∀ x ∈ terms, AllNodes P x)
    _ _ _ (by simp) ?_) fun terms hterms => ?_
  · rintro ⟨⟨v, g⟩, q⟩ hx terms hterms
    have hvg := List.fst_mem_of_mem_zipIdx hx
    obtain ⟨idx, dv, hidx, hdv, hP'⟩ := hbump v (mem_varNames.1 (List.of_mem_zip hvg).1)
    have hg := hgP g (List.of_mem_zip hvg).2
    dsimp only
    split
    · exact ⟨terms, rfl, hterms⟩
    · rw [hidx]
      dsimp only
      rw [hdv]
      refine ⟨_, rfl, fun x hx => ?_⟩
      rcases Array.mem_push.1 hx with hx | rfl
      · exact hterms x hx
      · exact allNodes_mul hP hg (allNodes_of_op?_none rfl hP')
  -- a parameter argument adds its own derivative last
  have hsum : ∃ b, (pure (sum (t.child 2) terms.toList) : Outcome Expr) = .ok b ∧ AllNodes P b :=
    ⟨_, rfl, allNodes_sum hP fun x hx => hterms x (Array.mem_toList_iff.1 hx)⟩
  split_ifs
  · rcases hlast : grads.getLast? with _ | g
    · exact hsum
    · refine ⟨_, rfl, allNodes_sum hP fun x hx => ?_⟩
      rcases Array.mem_push.1 (Array.mem_toList_iff.1 hx) with hx | rfl
      · exact hterms x hx
      · exact hgP x (List.mem_of_getLast? hlast)
  · exact hsum

/-! ## Names of the state variables -/

namespace VarSystem

/-- The name of the state variable of component `p.1` and multi-index `p.2`: the original
name for the zero index, the variational name otherwise. -/
def varName (state : List String) (p : Nat × List Nat) : String :=
  if p.2.sum = 0 then state.getD p.1 "" else variationalName (state.getD p.1 "") p.2

section Names

variable {state : List String}

theorem varName_of_sum_ne_zero {p : Nat × List Nat} (h : p.2.sum ≠ 0) :
    varName state p = variationalName (state.getD p.1 "") p.2 := by
  simp [varName, h]

/-- Distinct original names that do not look variational give distinct names to distinct
indices of one number of arguments. -/
theorem varName_inj (hnodup : state.Nodup) (hplain : ∀ v ∈ state, Variable.isVariational v = false)
    {n : Nat} {p q : Nat × List Nat} (hp : p.1 < state.length ∧ p.2.length = n)
    (hq : q.1 < state.length ∧ q.2.length = n) (h : varName state p = varName state q) : p = q := by
  have hgetp : state.getD p.1 "" = state[p.1] := by simp [hp.1]
  have hgetq : state.getD q.1 "" = state[q.1] := by simp [hq.1]
  have hbase : state[p.1] = state[q.1] → p.1 = q.1 := fun h => (hnodup.getElem_inj_iff).1 h
  have hzero : ∀ r : Nat × List Nat, r.2.length = n → r.2.sum = 0 → r.2 = List.replicate n 0 :=
    fun r hlen hsum => List.eq_replicate_iff.2 ⟨hlen, fun a ha => by
      have := List.le_sum_of_mem ha
      omega⟩
  unfold varName at h
  rw [hgetp, hgetq] at h
  split_ifs at h with hsp hsq hsq
  · exact Prod.ext (hbase h) ((hzero p hp.2 hsp).trans (hzero q hq.2 hsq).symm)
  · -- an original name is never a variational one
    have := hplain _ (List.getElem_mem hp.1)
    rw [h, isVariational_variationalName] at this
    cases this
  · have := hplain _ (List.getElem_mem hq.1)
    rw [← h, isVariational_variationalName] at this
    cases this
  · obtain ⟨hb, hm⟩ := variationalName_inj (hp.2.trans hq.2.symm) h
    exact Prod.ext (hbase hb) hm

end Names

/-! ## The tables of the construction -/

/-- The tables list the components and multi-indices `l` with their names, and the two lookup
tables invert the lists of indices and of names. -/
structure Indexed (state : List String) (tb : Tables) (l : List (Nat × List Nat)) : Prop where
  mindices : tb.mindices.toList = l
  names : tb.names.toList = l.map (varName state)
  lookup : ∀ (p : Nat × List Nat) (i : Nat), tb.lookup[p]? = some i ↔ l[i]? = some p
  byName : ∀ (v : String) (i : Nat), tb.byName[v]? = some i ↔ (l.map (varName state))[i]? = some v

/-- The variables named after indices of `l` of total order at most `j`. -/
def NamedBelow (state : List String) (l : List (Nat × List Nat)) (j : Nat) (v : String) : Prop :=
  ∃ q ∈ l, varName state q = v ∧ q.2.sum ≤ j

/-- The right-hand sides and initial values of the indices `l` are built: every operator in them
accepts its arguments, and a right-hand side mentions only variables named after indices of
`l` of total order at most its own. -/
structure Built (state : List String) (tb : Tables) (l : List (Nat × List Nat)) : Prop where
  rhs_size : tb.rhs.size = l.length
  ics_size : tb.ics.size = l.length
  rhs_arity : ∀ e ∈ tb.rhs, ArityOk e
  ics_arity : ∀ e ∈ tb.ics, ArityOk e
  rhs_vars : ∀ (i : Nat) (p : Nat × List Nat) (e : Expr), l[i]? = some p → tb.rhs[i]? = some e →
    AllNodes (VarIn (NamedBelow state l p.2.sum)) e

theorem NamedBelow.mono {state : List String} {l l' : List (Nat × List Nat)} {j j' : Nat}
    (hl : ∀ q ∈ l, q ∈ l') (hj : j ≤ j') {v : String} (h : NamedBelow state l j v) :
    NamedBelow state l' j' v := by
  obtain ⟨q, hq, hname, hsum⟩ := h
  exact ⟨q, hl q hq, hname, by omega⟩

/-- Registering the indices of a layer, as `addLayer` does before it builds their entries. -/
theorem foldl_register {state : List String} {start : Nat}
    {f : Tables → (Nat × List Nat) × Nat → Tables}
    (hf : ∀ tb x, f tb x = { tb with
      lookup := tb.lookup.insert x.1 (start + x.2)
      byName := tb.byName.insert (variationalName (state.getD x.1.1 "") x.1.2) (start + x.2)
      names := tb.names.push (variationalName (state.getD x.1.1 "") x.1.2)
      mindices := tb.mindices.push x.1 }) :
    ∀ (X : List ((Nat × List Nat) × Nat)) (tb T : Tables), X.foldl f tb = T →
      T.mindices.toList = tb.mindices.toList ++ X.map Prod.fst ∧
      T.names.toList = tb.names.toList ++
        X.map (fun x => variationalName (state.getD x.1.1 "") x.1.2) ∧
      T.lookup = (X.map fun x => (x.1, start + x.2)).foldl (fun m p => m.insert p.1 p.2) tb.lookup ∧
      T.byName = (X.map fun x => (variationalName (state.getD x.1.1 "") x.1.2, start + x.2)).foldl
        (fun m p => m.insert p.1 p.2) tb.byName ∧
      T.rhs = tb.rhs ∧ T.ics = tb.ics
  | [], tb, T, hT => by
    subst hT
    simp
  | x :: X, tb, T, hT => by
    rw [List.foldl_cons] at hT
    obtain ⟨h1, h2, h3, h4, h5, h6⟩ := foldl_register hf X (f tb x) T hT
    simp only [hf] at h1 h2 h3 h4 h5 h6
    refine ⟨?_, ?_, ?_, ?_, h5, h6⟩
    · simp [h1]
    · simp [h2]
    · simp [h3]
    · simp [h4]

theorem map_snd_zipIdx_shift {α β : Type} (l : List α) (g : α × Nat → β) (c : Nat) :
    (l.zipIdx.map fun x => (g x, c + x.2)).map Prod.snd = List.range' c l.length := by
  rw [List.map_map]
  change l.zipIdx.map ((c + ·) ∘ Prod.snd) = _
  rw [← List.map_map, List.zipIdx_map_snd, List.map_add_range', Nat.add_zero]

theorem map_fst_zipIdx_shift {α β : Type} (l : List α) (g : α → β) (c : Nat) :
    (l.zipIdx.map fun x => (g x.1, c + x.2)).map Prod.fst = l.map g := by
  rw [List.map_map]
  change l.zipIdx.map (g ∘ Prod.fst) = _
  rw [← List.map_map, List.zipIdx_map_fst]

section Register

variable {state : List String} {n : Nat}

theorem nodup_map_varName (hnodup : state.Nodup)
    (hplain : ∀ v ∈ state, Variable.isVariational v = false) {l : List (Nat × List Nat)}
    (hl : l.Nodup) (hvalid : ∀ p ∈ l, p.1 < state.length ∧ p.2.length = n) :
    (l.map (varName state)).Nodup :=
  hl.map_on fun p hp q hq h => varName_inj hnodup hplain (hvalid p hp) (hvalid q hq) h

/-- Registering a layer of indices of positive order extends the indexed list by the layer. -/
theorem Indexed.register (hnodup : state.Nodup)
    (hplain : ∀ v ∈ state, Variable.isVariational v = false) {tb T : Tables}
    {l layer : List (Nat × List Nat)} (hind : Indexed state tb l)
    (hvalid : ∀ p ∈ l ++ layer, p.1 < state.length ∧ p.2.length = n)
    (hpos : ∀ p ∈ layer, p.2.sum ≠ 0) (hnd : (l ++ layer).Nodup)
    {f : Tables → (Nat × List Nat) × Nat → Tables}
    (hf : ∀ tb x, f tb x = { tb with
      lookup := tb.lookup.insert x.1 (l.length + x.2)
      byName := tb.byName.insert (variationalName (state.getD x.1.1 "") x.1.2) (l.length + x.2)
      names := tb.names.push (variationalName (state.getD x.1.1 "") x.1.2)
      mindices := tb.mindices.push x.1 })
    (hT : layer.zipIdx.foldl f tb = T) : Indexed state T (l ++ layer) := by
  obtain ⟨hmind, hnames, hlookup, hbyName, -, -⟩ := foldl_register hf _ tb T hT
  -- the layer is named by `varName`, its indices being of positive order
  have hlayer : layer.map (fun p => variationalName (state.getD p.1 "") p.2) =
      layer.map (varName state) :=
    List.map_congr_left fun p hp => (varName_of_sum_ne_zero (hpos p hp)).symm
  have hkeys : (layer.zipIdx.map fun x => (x.1, l.length + x.2)).map Prod.fst = layer :=
    (map_fst_zipIdx_shift layer (fun p => p) l.length).trans (List.map_id layer)
  have hnameKeys : (layer.zipIdx.map fun x =>
      (variationalName (state.getD x.1.1 "") x.1.2, l.length + x.2)).map Prod.fst =
      layer.map (varName state) :=
    (map_fst_zipIdx_shift layer _ l.length).trans hlayer
  refine ⟨?_, ?_, ?_, ?_⟩
  · rw [hmind, hind.mindices, List.zipIdx_map_fst]
  · have hnamed : layer.zipIdx.map (fun x => variationalName (state.getD x.1.1 "") x.1.2) =
        layer.map (varName state) :=
      calc _ = (layer.zipIdx.map Prod.fst).map fun p => variationalName (state.getD p.1 "") p.2 :=
            (List.map_map ..).symm
        _ = _ := by rw [List.zipIdx_map_fst, hlayer]
    rw [hnames, hind.names, hnamed, List.map_append]
  · intro p i
    rw [hlookup, getElem?_foldl_insert_iff hind.lookup (by rw [hkeys]; exact hnd)
      (by rw [map_snd_zipIdx_shift, List.length_map, List.length_zipIdx]), hkeys]
  · intro v i
    have hnd' : (l.map (varName state) ++ layer.map (varName state)).Nodup := by
      rw [← List.map_append]
      exact nodup_map_varName hnodup hplain hnd hvalid
    rw [hbyName, getElem?_foldl_insert_iff hind.byName (by rw [hnameKeys]; exact hnd')
      (by rw [map_snd_zipIdx_shift]; simp), hnameKeys,
      List.map_append]

end Register

namespace Indexed

variable {state : List String} {tb : Tables} {L : List (Nat × List Nat)}

theorem mindices_getElem? (hind : Indexed state tb L) (i : Nat) : tb.mindices[i]? = L[i]? := by
  rw [← Array.getElem?_toList, hind.mindices]

theorem names_getElem? (hind : Indexed state tb L) (i : Nat) :
    tb.names[i]? = (L.map (varName state))[i]? := by
  rw [← Array.getElem?_toList, hind.names]

theorem names_getElem?_of (hind : Indexed state tb L) {q : Nat × List Nat} {i : Nat}
    (hi : L[i]? = some q) : tb.names[i]? = some (varName state q) := by
  rw [hind.names_getElem?, List.getElem?_map, hi]
  rfl

theorem lookup_getD (hind : Indexed state tb L) {q : Nat × List Nat} {i : Nat}
    (hi : L[i]? = some q) : tb.lookup.getD q 0 = i := by
  rw [Std.HashMap.getD_eq_getD_getElem?, (hind.lookup q i).2 hi, Option.getD_some]

theorem byName_get? (hind : Indexed state tb L) {q : Nat × List Nat} {i : Nat}
    (hi : L[i]? = some q) : tb.byName.get? (varName state q) = some i := by
  rw [Std.HashMap.get?_eq_getElem?, hind.byName, List.getElem?_map, hi]
  rfl

end Indexed

/-- Appending the right-hand sides and initial values of a layer of order `j` to built tables
builds the layer. -/
theorem Built.append {state : List String} {tb T : Tables} {L layer : List (Nat × List Nat)}
    {j : Nat} (hb : Built state tb L) {rs cs : List Expr} (hrhs : T.rhs = tb.rhs ++ rs)
    (hics : T.ics = tb.ics ++ cs) (hrs : rs.length = layer.length)
    (hcs : cs.length = layer.length) (hra : ∀ e ∈ rs, ArityOk e) (hca : ∀ e ∈ cs, ArityOk e)
    (hrv : ∀ e ∈ rs, AllNodes (VarIn (NamedBelow state (L ++ layer) j)) e)
    (hlayer : ∀ p ∈ layer, p.2.sum = j) : Built state T (L ++ layer) := by
  have hrhsList : T.rhs.toList = tb.rhs.toList ++ rs := by rw [hrhs, Array.toList_appendList]
  have hicsList : T.ics.toList = tb.ics.toList ++ cs := by rw [hics, Array.toList_appendList]
  refine ⟨?_, ?_, ?_, ?_, ?_⟩
  · rw [← Array.length_toList, hrhsList, List.length_append, Array.length_toList, hb.rhs_size, hrs,
      List.length_append]
  · rw [← Array.length_toList, hicsList, List.length_append, Array.length_toList, hb.ics_size, hcs,
      List.length_append]
  · intro e he
    rw [← Array.mem_toList_iff, hrhsList, List.mem_append, Array.mem_toList_iff] at he
    exact he.elim (hb.rhs_arity e) (hra e)
  · intro e he
    rw [← Array.mem_toList_iff, hicsList, List.mem_append, Array.mem_toList_iff] at he
    exact he.elim (hb.ics_arity e) (hca e)
  · intro i p e hp he
    rw [← Array.getElem?_toList, hrhsList] at he
    by_cases hi : i < L.length
    · -- an entry of the built layers
      have hi' : i < tb.rhs.toList.length := by simpa [hb.rhs_size] using hi
      rw [List.getElem?_append_left hi', Array.getElem?_toList] at he
      rw [List.getElem?_append_left hi] at hp
      exact (hb.rhs_vars i p e hp he).mono fun x =>
        VarIn.mono fun v => NamedBelow.mono (fun q hq => List.mem_append_left _ hq) le_rfl
    · -- an entry of the new layer
      have hi' : tb.rhs.toList.length ≤ i := by simpa [hb.rhs_size] using hi
      rw [List.getElem?_append_right hi'] at he
      rw [List.getElem?_append_right (Nat.le_of_not_lt hi)] at hp
      rw [hlayer p (List.mem_of_getElem? hp)]
      exact hrv e (List.mem_of_getElem? he)

theorem Built.of_eq {state : List String} {tb T : Tables} {L : List (Nat × List Nat)}
    (hb : Built state tb L) (hrhs : T.rhs = tb.rhs) (hics : T.ics = tb.ics) : Built state T L := by
  obtain ⟨h1, h2, h3, h4, h5⟩ := hb
  rw [← hrhs] at h1 h3 h5
  rw [← hics] at h2 h4
  exact ⟨h1, h2, h3, h4, h5⟩

/-! ## One entry of a layer -/

/-- Changing one entry of a multi-index by `f` changes its order accordingly. -/
theorem sum_modify_add {m : List Nat} {a : Nat} (ha : a < m.length) (f : Nat → Nat) :
    (m.modify a f).sum + m[a] = m.sum + f m[a] := by
  induction m generalizing a with
  | nil => cases ha
  | cons e m ih =>
    cases a with
    | zero =>
      simp only [List.modify_zero_cons, List.sum_cons, List.getElem_cons_zero]
      omega
    | succ a =>
      have := ih (Nat.lt_of_succ_lt_succ ha)
      simp only [List.modify_succ_cons, List.sum_cons, List.getElem_cons_succ]
      omega

/-- A multi-index of positive order has a first positive entry. -/
theorem exists_findIdx?_pos {m : List Nat} (h : m.sum ≠ 0) :
    ∃ a, m.findIdx? (· > 0) = some a ∧ ∃ ha : a < m.length, 0 < m[a] := by
  cases hf : m.findIdx? (· > 0) with
  | none =>
    have hzero := List.findIdx?_eq_none_iff.1 hf
    exact absurd (List.sum_eq_zero fun x hx => by simpa using hzero x hx) h
  | some a =>
    obtain ⟨ha, hpos, -⟩ := List.findIdx?_eq_some_iff_getElem.1 hf
    exact ⟨a, rfl, ha, by simpa using hpos⟩

/-- The parent `m - e_a` of an index of layer `J + 1`, for the first positive entry `a` of `m`,
is an index of order `J` among the layers up to `J`. -/
theorem exists_parent {nArgs dim J k : Nat} {m : List Nat} (hn : 0 < nArgs)
    (hkm : (k, m) ∈ layerIndices nArgs dim (J + 1)) :
    ∃ a : Nat, m.findIdx? (· > 0) = some a ∧ a < nArgs ∧ (m.modify a (· - 1)).sum = J ∧
      ∃ p : Nat, (indicesUpTo nArgs dim J)[p]? = some (k, m.modify a (· - 1)) := by
  obtain ⟨hk, hlen, hsum⟩ := (mem_layerIndices hn).1 hkm
  dsimp only at hk hlen hsum
  obtain ⟨a, hfind, ha, hpos⟩ := exists_findIdx?_pos (m := m) (by omega)
  have hmod := sum_modify_add ha (· - 1)
  have hpsum : (m.modify a (· - 1)).sum = J := by omega
  refine ⟨a, hfind, hlen ▸ ha, hpsum, List.mem_iff_getElem?.1 ?_⟩
  exact (mem_indicesUpTo hn).2 ⟨hk, by simpa using hlen, by dsimp only; omega⟩

theorem VarArg.checkDiffArg_toExpr? {a : VarArg} {x : Expr} (h : a.toExpr? = some x) :
    checkDiffArg x = .ok () := by
  cases a <;> cases h <;> rfl


section Entry

variable {state : List String} {args : List VarArg}

/-- One entry of layer `J + 1`, once the layer is registered over the built layers up to `J`:
it succeeds, every operator of its right-hand side and initial value accepts its arguments, and
its right-hand side mentions only variables of order at most `J + 1`. -/
theorem entryOf_ok (hn : 0 < args.length) {tb : Tables} {J : Nat}
    (hind : Indexed state tb (indicesUpTo args.length state.length (J + 1)))
    (hbuilt : Built state tb (indicesUpTo args.length state.length J)) {k : Nat} {m : List Nat}
    (hkm : (k, m) ∈ layerIndices args.length state.length (J + 1)) (i : Nat) :
    ∃ rc, entryOf args tb (indicesUpTo args.length state.length J).length (J + 1) i k m = .ok rc ∧
      ArityOk rc.1 ∧ ArityOk rc.2 ∧
      AllNodes (VarIn (NamedBelow state (indicesUpTo args.length state.length (J + 1)) (J + 1)))
        rc.1 := by
  -- the parent `m - e_a` is built, at position `p`
  obtain ⟨a, hfind, ha, hpsum, p, hp⟩ := exists_parent hn hkm
  have hsucc : indicesUpTo args.length state.length (J + 1) =
      indicesUpTo args.length state.length J ++ layerIndices args.length state.length (J + 1) :=
    indicesUpTo_succ J
  rw [hsucc] at hind
  generalize hL : indicesUpTo args.length state.length J = L at hind hbuilt hsucc hp
  have hpL : p < L.length := (List.getElem?_eq_some_iff.1 hp).1
  have hp' : (L ++ layerIndices args.length state.length (J + 1))[p]? = some (k, m.modify a (· - 1)) := by
    rw [List.getElem?_append_left hpL, hp]
  obtain ⟨rhsP, hrhsP⟩ : ∃ e, tb.rhs[p]? = some e :=
    ⟨_, Array.getElem?_eq_getElem (by rw [hbuilt.rhs_size]; exact hpL)⟩
  obtain ⟨icP, hicP⟩ : ∃ e, tb.ics[p]? = some e :=
    ⟨_, Array.getElem?_eq_getElem (by rw [hbuilt.ics_size]; exact hpL)⟩
  unfold entryOf
  simp only [hfind, Option.getD_some, hind.lookup_getD hp', Array.getD_eq_getD_getElem?, hrhsP, hicP]
  -- the parent's right-hand side and initial value are built
  have hrhsArity : ArityOk rhsP := hbuilt.rhs_arity rhsP (Array.mem_of_getElem? hrhsP)
  have hicArity : ArityOk icP := hbuilt.ics_arity icP (Array.mem_of_getElem? hicP)
  have hvars := hbuilt.rhs_vars p _ rhsP hp hrhsP
  rw [hpsum] at hvars
  have hmono : ∀ v, NamedBelow state L J v →
      NamedBelow state (indicesUpTo args.length state.length (J + 1)) (J + 1) v :=
    fun v => NamedBelow.mono (fun q hq => hsucc ▸ List.mem_append_left _ hq) (Nat.le_succ J)
  generalize harg : (args.getD a VarArg.time).toExpr? = arg
  refine exists_bind_eq_ok (totalDerivative_ok (buildable_accepted.and (buildable_varIn _)) _
    ((arityOk_iff_allNodes.1 hrhsArity).and (hvars.mono fun x => VarIn.mono hmono))
    (fun x hx => VarArg.checkDiffArg_toExpr? (harg.trans hx)) ?_) fun rhsM hrhsM => ?_
  · -- each variable of the parent, of order at most `J`, has a variable one order up
    intro v hv
    obtain ⟨⟨qk, qm⟩, hqL, rfl, hqsum⟩ := allNodes_varIn_iff.1 hvars v hv
    obtain ⟨hqk, hqlen, -⟩ := (mem_indicesUpTo hn).1 (hL ▸ hqL)
    obtain ⟨idx, hidx⟩ := List.mem_iff_getElem?.1 hqL
    have hidx' : (L ++ layerIndices args.length state.length (J + 1))[idx]? = some (qk, qm) := by
      rw [List.getElem?_append_left (List.getElem?_eq_some_iff.1 hidx).1, hidx]
    have hup : (qk, qm.modify a (· + 1)) ∈ indicesUpTo args.length state.length (J + 1) := by
      have := sum_modify_add (show a < qm.length by dsimp only at hqlen; omega) (· + 1)
      rw [mem_indicesUpTo hn]
      refine ⟨hqk, by simpa using hqlen, ?_⟩
      dsimp only at hqsum ⊢
      omega
    obtain ⟨up, hupi⟩ := List.mem_iff_getElem?.1 (hsucc ▸ hup)
    refine ⟨idx, varName state (qk, qm.modify a (· + 1)), hind.byName_get? hidx', ?_, trivial,
      ⟨_, hup, rfl, ((mem_indicesUpTo hn).1 hup).2.2⟩⟩
    simp [hind.mindices_getElem?, hidx', (hind.lookup _ up).2 hupi, hind.names_getElem?_of hupi]
  have hrc : ∀ icM, ArityOk icM → ∃ rc, (pure (rhsM, icM) : Outcome (Expr × Expr)) = .ok rc ∧
      ArityOk rc.1 ∧ ArityOk rc.2 ∧
      AllNodes (VarIn (NamedBelow state (indicesUpTo args.length state.length (J + 1)) (J + 1)))
        rc.1 :=
    fun icM hicM => ⟨_, rfl, arityOk_iff_allNodes.2 (hrhsM.mono fun _ h => h.1), hicM,
      hrhsM.mono fun _ h => h.2⟩
  cases arg with
  | some x =>
    -- by a variable or a parameter: the derivative of the parent's initial value
    refine exists_bind_eq_ok (I := ArityOk)
      ⟨_, diff_eq_ok (VarArg.checkDiffArg_toExpr? harg), ?_⟩ hrc
    exact Expr.arityOk_diffBy x hicArity
  | none =>
    -- by the initial time: the flow at the start, the right-hand side at the initial values,
    -- is subtracted
    have hsubst : ArityOk (rhsP.subst (Substitution.ofList
        (((tb.names.toList.take L.length).zip tb.ics.toList).map fun x => (.var x.1, x.2)))) := by
      refine arityOk_subst (fun q hq => ?_) hrhsArity
      obtain ⟨r, hr, hq2⟩ := Substitution.image_of_mem_ofList hq
      obtain ⟨⟨v, ic⟩, hzip, rfl⟩ := List.mem_map.1 hr
      rw [hq2]
      exact hbuilt.ics_arity ic (Array.mem_toList_iff.1 (List.of_mem_zip hzip).2)
    obtain ⟨flow, hflow⟩ := normalise_ok hsubst
    refine exists_bind_eq_ok (I := ArityOk) ⟨flow, hflow, arityOk_of_normalise hsubst hflow⟩
      fun flow hflowOk => ?_
    refine exists_bind_eq_ok (I := ArityOk)
      ⟨_, diff_eq_ok checkDiffArg_time, Expr.arityOk_diffBy _ hicArity⟩ fun d hd => ?_
    have hsub : ArityOk (sub .anon d flow) := arityOk_iff_allNodes.2
      (allNodes_sub buildable_accepted (arityOk_iff_allNodes.1 hd) (arityOk_iff_allNodes.1 hflowOk))
    obtain ⟨icM, hicM⟩ := normalise_ok hsub
    exact exists_bind_eq_ok ⟨icM, hicM, arityOk_of_normalise hsub hicM⟩ hrc

/-- Adding layer `J + 1` to tables that index the layers up to `J` first registers the layer,
which keeps the right-hand sides and initial values, then builds the layer's entries over the
registered tables and appends them. -/
theorem addLayer_eq (hnodup : state.Nodup)
    (hplain : ∀ v ∈ state, Variable.isVariational v = false) (hn : 0 < args.length)
    {tb : Tables} {J : Nat} (hind : Indexed state tb (indicesUpTo args.length state.length J)) :
    ∃ T, Indexed state T (indicesUpTo args.length state.length (J + 1)) ∧ T.rhs = tb.rhs ∧
      T.ics = tb.ics ∧ addLayer args state.length args.length state tb (J + 1) =
        ((layerIndices args.length state.length (J + 1)).zipIdx.mapM fun ((k, m), i) =>
          entryOf args T (indicesUpTo args.length state.length J).length (J + 1) i k m) >>=
        fun built => pure { T with rhs := T.rhs ++ built.map (·.1), ics := T.ics ++ built.map (·.2) } := by
  have hsucc : indicesUpTo args.length state.length (J + 1) =
      indicesUpTo args.length state.length J ++ layerIndices args.length state.length (J + 1) :=
    indicesUpTo_succ J
  have hstart : tb.names.size = (indicesUpTo args.length state.length J).length := by
    rw [← Array.length_toList, hind.names, List.length_map]
  have hvalid : ∀ p ∈ indicesUpTo args.length state.length J ++
      layerIndices args.length state.length (J + 1), p.1 < state.length ∧ p.2.length = args.length :=
    fun p hp => by
      rw [← hsucc, mem_indicesUpTo hn] at hp
      exact ⟨hp.1, hp.2.1⟩
  have hpos : ∀ p ∈ layerIndices args.length state.length (J + 1), p.2.sum ≠ 0 := fun p hp => by
    rw [((mem_layerIndices hn).1 hp).2.2]
    omega
  have hnd : (indicesUpTo args.length state.length (J + 1)).Nodup := nodup_indicesUpTo hn (J + 1)
  rw [hsucc] at hnd
  unfold addLayer
  rw [hstart]
  dsimp only
  generalize hlayer : List.flatMap _ (multiIndices args.length (J + 1)) = layer
  have hlayer' : layerIndices args.length state.length (J + 1) = layer := hlayer
  subst hlayer'
  -- registering the layer extends the indexed list by it
  generalize hT : List.foldl _ tb _ = T
  have hindT := Indexed.register hnodup hplain hind hvalid hpos hnd (fun _ _ => rfl) hT
  obtain ⟨-, -, -, -, hrhsT, hicsT⟩ := foldl_register (fun _ _ => rfl) _ tb T hT
  rw [← hsucc] at hindT
  exact ⟨T, hindT, hrhsT, hicsT, rfl⟩

/-- Adding layer `J + 1` to tables that hold the layers up to `J` succeeds, and the tables then
hold the layers up to `J + 1`. -/
theorem addLayer_ok (hnodup : state.Nodup)
    (hplain : ∀ v ∈ state, Variable.isVariational v = false) (hn : 0 < args.length)
    {tb : Tables} {J : Nat} (hind : Indexed state tb (indicesUpTo args.length state.length J))
    (hbuilt : Built state tb (indicesUpTo args.length state.length J)) :
    ∃ tb', addLayer args state.length args.length state tb (J + 1) = .ok tb' ∧
      Indexed state tb' (indicesUpTo args.length state.length (J + 1)) ∧
      Built state tb' (indicesUpTo args.length state.length (J + 1)) := by
  have hsucc : indicesUpTo args.length state.length (J + 1) =
      indicesUpTo args.length state.length J ++ layerIndices args.length state.length (J + 1) :=
    indicesUpTo_succ J
  obtain ⟨T, hindT, hrhsT, hicsT, heq⟩ := addLayer_eq hnodup hplain hn hind
  have hbuiltT := hbuilt.of_eq hrhsT hicsT
  rw [heq]
  -- the entries are built over the registered tables, then appended
  refine exists_bind_eq_ok (exists_mapM_eq_ok (R := fun _ rc => ArityOk rc.1 ∧ ArityOk rc.2 ∧
      AllNodes (VarIn (NamedBelow state (indicesUpTo args.length state.length (J + 1)) (J + 1))) rc.1)
    fun ⟨⟨k, m⟩, i⟩ hx => entryOf_ok hn hindT hbuiltT (List.fst_mem_of_mem_zipIdx hx) i)
    fun built hentries => ⟨_, rfl, ⟨hindT.1, hindT.2, hindT.3, hindT.4⟩, ?_⟩
  have hQ := forall_mem_of_forall₂ hentries fun _ _ _ h => h
  have hlen : built.length = (layerIndices args.length state.length (J + 1)).length := by
    rw [← hentries.length_eq, List.length_zipIdx]
  rw [hsucc]
  refine hbuiltT.append rfl rfl (by rw [List.length_map, hlen]) (by rw [List.length_map, hlen])
    ?_ ?_ ?_ fun p hp => ((mem_layerIndices hn).1 hp).2.2
  · intro e he
    obtain ⟨rc, hrc, rfl⟩ := List.mem_map.1 he
    exact (hQ rc hrc).1
  · intro e he
    obtain ⟨rc, hrc, rfl⟩ := List.mem_map.1 he
    exact (hQ rc hrc).2.1
  · intro e he
    obtain ⟨rc, hrc, rfl⟩ := List.mem_map.1 he
    rw [← hsucc]
    exact (hQ rc hrc).2.2

/-- Adding the layers `1 … K` to tables that hold the zero layer succeeds, and the tables then
hold the layers up to `K`. -/
theorem foldlM_addLayer_ok (hnodup : state.Nodup)
    (hplain : ∀ v ∈ state, Variable.isVariational v = false) (hn : 0 < args.length)
    {tb : Tables} (hind : Indexed state tb (indicesUpTo args.length state.length 0))
    (hbuilt : Built state tb (indicesUpTo args.length state.length 0)) :
    ∀ K, ∃ tb', (List.range K).foldlM
        (fun tb j => addLayer args state.length args.length state tb (j + 1)) tb = .ok tb' ∧
      Indexed state tb' (indicesUpTo args.length state.length K) ∧
      Built state tb' (indicesUpTo args.length state.length K)
  | 0 => ⟨tb, rfl, hind, hbuilt⟩
  | K + 1 => by
    obtain ⟨tb', hrun, hind', hbuilt'⟩ := foldlM_addLayer_ok hnodup hplain hn hind hbuilt K
    obtain ⟨tb'', hlayer, hind'', hbuilt''⟩ := addLayer_ok hnodup hplain hn hind' hbuilt'
    refine ⟨tb'', ?_, hind'', hbuilt''⟩
    rw [List.range_succ, List.foldlM_append, hrun]
    simp only [List.foldlM_cons, List.foldlM_nil, bind, Except.bind, hlayer]
    rfl

end Entry

/-! ## The zero layer -/

section Start

variable {state : List String} {nArgs : Nat}

theorem varName_zero (k : Nat) : varName state (k, List.replicate nArgs 0) = state.getD k "" := by
  simp [varName]

/-- The originals in state order, named by `varName`. -/
theorem map_varName_indicesUpTo_zero (hn : 0 < nArgs) :
    (indicesUpTo nArgs state.length 0).map (varName state) = state := by
  rw [indicesUpTo_zero hn, List.map_map]
  refine List.ext_getElem (by simp) fun i h₁ h₂ => ?_
  simp [varName_zero, List.getElem?_eq_getElem h₂]

/-- The tables `ofSystem` starts from index the originals. -/
theorem Indexed.start (hnodup : state.Nodup) (hn : 0 < nArgs) {tb : Tables}
    (hnames : tb.names = state.toArray)
    (hmind : tb.mindices =
      ((List.range state.length).map fun k => (k, List.replicate nArgs 0)).toArray)
    (hlookup : tb.lookup = (List.range state.length).foldl
      (fun m k => m.insert (k, List.replicate nArgs 0) k) {})
    (hbyName : tb.byName = state.zipIdx.foldl (fun m p => m.insert p.1 p.2) {}) :
    Indexed state tb (indicesUpTo nArgs state.length 0) := by
  have hempty : ∀ {κ : Type} [BEq κ] [Hashable κ] (x : κ) (i : Nat),
      (({} : Std.HashMap κ Nat)[x]? = some i ↔ ([] : List κ)[i]? = some x) := by
    simp
  refine ⟨?_, ?_, ?_, ?_⟩
  · rw [hmind, List.toList_toArray, indicesUpTo_zero hn]
  · rw [hnames, List.toList_toArray, map_varName_indicesUpTo_zero hn]
  · intro p i
    have hkeys : ((List.range state.length).map fun k => ((k, List.replicate nArgs 0), k)).map
        Prod.fst = indicesUpTo nArgs state.length 0 := by
      rw [List.map_map, indicesUpTo_zero hn]
      rfl
    have hfold : (List.range state.length).foldl
        (fun m k => m.insert (k, List.replicate nArgs 0) k) ({} : Std.HashMap _ Nat) =
        ((List.range state.length).map fun k => ((k, List.replicate nArgs 0), k)).foldl
          (fun m p => m.insert p.1 p.2) {} := by
      rw [List.foldl_map]
    rw [hlookup, hfold, getElem?_foldl_insert_iff (hempty (κ := Nat × List Nat))
      (by rw [List.nil_append, hkeys]; exact nodup_indicesUpTo hn 0)
      (by simp [List.map_map, Function.comp_def, List.range_eq_range']), List.nil_append, hkeys]
  · intro v i
    rw [hbyName, getElem?_foldl_insert_iff (hempty (κ := String))
      (by rw [List.nil_append, List.zipIdx_map_fst]; exact hnodup)
      (by rw [List.zipIdx_map_snd]; simp), List.nil_append, List.zipIdx_map_fst,
      map_varName_indicesUpTo_zero hn]

/-- The tables `ofSystem` starts from build the originals: their right-hand sides are those of
the system, their initial values the variables themselves. -/
theorem Built.start (hn : 0 < nArgs) {rhs : List Expr} (hlen : rhs.length = state.length)
    (harity : ∀ f ∈ rhs, ArityOk f) (hvars : ∀ f ∈ rhs, ∀ v, Occurs (.var v) f → v ∈ state)
    {tb : Tables} (hrhs : tb.rhs = rhs.toArray) (hics : tb.ics = (state.map Expr.var).toArray) :
    Built state tb (indicesUpTo nArgs state.length 0) := by
  have hlenL : (indicesUpTo nArgs state.length 0).length = state.length := by
    simp [indicesUpTo_zero hn]
  refine ⟨?_, ?_, ?_, ?_, ?_⟩
  · rw [hrhs, List.size_toArray, hlen, hlenL]
  · rw [hics, List.size_toArray, List.length_map, hlenL]
  · intro e he
    rw [hrhs, List.mem_toArray] at he
    exact harity e he
  · intro e he
    rw [hics, List.mem_toArray] at he
    obtain ⟨v, -, rfl⟩ := List.mem_map.1 he
    exact fun _ _ _ _ hx => nomatch hx
  · -- every variable of an original right-hand side is an original
    intro i p e hp he
    rw [hrhs, List.getElem?_toArray] at he
    refine allNodes_varIn_iff.2 fun v hv => ?_
    obtain ⟨j, hj, rfl⟩ := List.getElem_of_mem (hvars e (List.mem_of_getElem? he) v hv)
    refine ⟨(j, List.replicate nArgs 0), ?_, by simp [varName_zero, List.getElem?_eq_getElem hj], ?_⟩
    · rw [indicesUpTo_zero hn]
      exact List.mem_map.2 ⟨j, List.mem_range.2 hj, rfl⟩
    · simp

end Start

end VarSystem

end TaylorOde
