import TaylorOde.Proofs.Decomposition.Cse
import TaylorOde.Proofs.Decomposition.Dce
import TaylorOde.Proofs.Decomposition.Reorder
import TaylorOde.Proofs.Decomposition.Builder
import TaylorOde.Proofs.Expr.Preparation
import Mathlib.Algebra.BigOperators.Ring.List
/-!
# Decompositions from end to end

`build` prepares its expressions (`preparedOf`), lowers them into a raw table (`ofPrepared`),
then runs the passes its options ask for (`runPasses`). `Decomposes` is what every table
along the way satisfies: it is well formed, its hidden dependencies have the shape their
recurrences assume, it fits 64-bit indices, its prefix holds the variables and the parameters
of the prepared expressions, and it reconstructs the prepared expressions. The raw table has
it (`Decomposes.of_ofPrepared`), every renumbering keeps it (`Decomposes.renumber`), so every
combination of passes keeps it (`Decomposes.runPasses`), and `check` accepts each of these
tables (`Decomposes.check`).

The main statements:

* `decompose_reconstructs`: decomposing one expression, or the right-hand sides of a system
  followed by extra expressions over its state, succeeds; every table the build passes
  through is accepted by `check`, is well formed, holds the variables and the parameters in
  its prefix, and reconstructs the prepared expressions.
* `decompose_hidden_shape`: every function entry of every decomposition lists as many hidden
  dependencies as its recurrence reads, in the shape the recurrence assumes.

Both speak of expressions as they are built: nodes cache their hashes, tags name nodes and
no tag extends another by a step of preparation (`WellTagged`). Both ask for room: the
distinct function nodes, listed in `N`, must be few enough for every entry to get a 64-bit
index.
-/

namespace TaylorOde

namespace Decomposition

open TaylorOde.Expr

/-! ## The passes and the prepared expressions -/

/-- The passes a build runs on the raw table: merging common subexpressions, then removing
dead entries, when `merge` is set; ordering entries by level when `order` is set. -/
def runPasses (merge order : Bool) (d : Decomposition) : Decomposition :=
  let d := if merge then (cse d).dce else d
  if order then d.reorder else d

/-- The prepared expressions of a build: each output split and power-expanded with its
position as the pass number. -/
def preparedOf (split : Nat) (outputs : List Expr) : List Expr :=
  outputs.zipIdx.map fun (e, i) => expandPow i (splitSumsWith i split e)

theorem mapM_prepare {split : Nat} (hsplit : 2 ≤ split) :
    ∀ l : List (Expr × Nat), l.mapM (fun (e, i) => e.prepare i split) =
      .ok (l.map fun (e, i) => expandPow i (splitSumsWith i split e))
  | [] => rfl
  | (e, i) :: l => by
    rw [List.mapM_cons, mapM_prepare hsplit l]
    simp only [prepare_eq hsplit]
    rfl

/-- With sums of at least two terms, a build prepares its outputs, lowers them and runs the
passes of its options. -/
theorem build_eq {names : List String} {outputs : List Expr} {opts : DecomposeOptions}
    (hsplit : 2 ≤ opts.sumSplit) :
    build names outputs opts =
      (ofPrepared names (preparedOf opts.sumSplit outputs)).map
        (runPasses opts.cse opts.reorder) := by
  unfold build
  rw [mapM_prepare hsplit]
  change (ofPrepared names (preparedOf opts.sumSplit outputs) >>= fun d =>
    pure (runPasses opts.cse opts.reorder d)) = _
  cases ofPrepared names (preparedOf opts.sumSplit outputs) <;> rfl

/-! ## What every table of a build satisfies -/

/-- A table decomposes prepared expressions over the variables `names`: it is well formed,
its hidden dependencies have the shape their recurrences assume, it fits 64-bit indices, its
prefix holds `names` and the parameters of the expressions, and it reconstructs them. -/
structure Decomposes (names : List String) (prepared : List Expr) (d : Decomposition) :
    Prop where
  wellFormed : d.WellFormed
  hiddenShape : d.HiddenShape
  fits : d.Fits
  varNames_eq : d.varNames = names
  params_eq : d.params = paramsOf prepared
  reconstruct : ArgsEq d.reconstruct prepared

namespace Decomposes

variable {names : List String} {prepared : List Expr} {d d' : Decomposition}

/-- A renumbering that does not grow the table keeps it decomposing the same expressions. -/
theorem renumber (h : Decomposes names prepared d) {r : Nat → Nat} {keep : Nat → Prop}
    (hr : Renumbering d d' r keep) (hsize : d'.size ≤ d.size) : Decomposes names prepared d' :=
  have hfit' : d'.Fits := Nat.le_trans hsize h.fits
  { wellFormed := hr.wellFormed h.wellFormed h.fits hfit' h.hiddenShape
    hiddenShape := hr.hiddenShape h.wellFormed h.fits h.hiddenShape
    fits := hfit'
    varNames_eq := hr.varNames_eq.trans h.varNames_eq
    params_eq := hr.params_eq.trans h.params_eq
    reconstruct := (hr.reconstruct h.wellFormed h.fits hfit' h.hiddenShape).trans h.reconstruct }

theorem cse_dce (h : Decomposes names prepared d) : Decomposes names prepared (cse d).dce := by
  obtain ⟨r, hr, hsize⟩ := cse_renumbering h.wellFormed
  have h₁ := h.renumber hr hsize
  obtain ⟨r', hr', hsize'⟩ := dce_renumbering h₁.wellFormed
  exact h₁.renumber hr' hsize'

theorem reorder (h : Decomposes names prepared d) : Decomposes names prepared d.reorder := by
  obtain ⟨r, hr, hsize⟩ := reorder_renumbering h.wellFormed
  exact h.renumber hr hsize.le

/-- Every combination of passes keeps a table decomposing the same expressions. -/
theorem runPasses (h : Decomposes names prepared d) (merge order : Bool) :
    Decomposes names prepared (Decomposition.runPasses merge order d) := by
  have h₁ : Decomposes names prepared (if merge then (cse d).dce else d) := by
    cases merge
    · exact h
    · exact h.cse_dce
  cases order
  · exact h₁
  · exact h₁.reorder

/-- `check` accepts a table that decomposes the expressions it is checked against. -/
theorem check (h : Decomposes names prepared d) : d.check prepared = .ok () :=
  check_ok h.wellFormed h.reconstruct

end Decomposes

/-! ## The raw table of prepared expressions -/

/-- The nodes of a list of expressions. -/
def NodeOf (es : List Expr) (x : Expr) : Prop := ∃ e ∈ es, Occurs x e

/-- The nodes of expressions as built form a family: closed under arguments, caching their
hashes, and structurally equal whenever they share a key. -/
theorem family_nodeOf {es : List Expr} (hhash : ∀ e ∈ es, e.HashOk)
    (hid : TagsIdentify es) : Builder.Family (NodeOf es) where
  args _ _ _ _ hx a ha := by
    obtain ⟨e, he, hocc⟩ := hx
    exact ⟨e, he, (Occurs.of_mem ha).trans hocc⟩
  hash _ _ _ _ hx := by
    obtain ⟨e, he, hocc⟩ := hx
    exact hhash e he _ _ _ _ hocc
  coherent a b ha hb hkey := hid.coherent a b ha hb hkey

/-- The keys of the nodes preparation builds for the nodes of `N`, over `n` passes. -/
def preparedKeys (split n : Nat) (N : List Expr) : List NodeKey :=
  ((List.range n).flatMap fun i => N.flatMap (prepNew i split)).map Expr.key

/-- The room the nodes of `N` and their arguments take: preparation builds at most five
nodes per node and argument, and each of them at most five entries. -/
def nodeWeight (N : List Expr) : Nat := (N.map fun x => x.args.length + 2).sum

theorem mem_preparedOf {split : Nat} {outputs : List Expr} {x : Expr}
    (hx : x ∈ preparedOf split outputs) :
    ∃ i, ∃ hi : i < outputs.length,
      x = expandPow i (splitSumsWith i split outputs[i]) := by
  obtain ⟨⟨e, i⟩, hei, rfl⟩ := List.mem_map.1 hx
  obtain ⟨-, hi, he⟩ := List.mem_zipIdx hei
  exact ⟨i, by simpa using hi, by simp [he]⟩

/-- The keys of the nodes preparation builds for a list of nodes cover the prepared
expressions when that list holds every function node of the outputs. -/
theorem covers_preparedKeys {split : Nat} {outputs N : List Expr}
    (hN : ∀ e ∈ outputs, ∀ n, Occurs n e → n.op?.isSome → n ∈ N) :
    Builder.Covers (preparedKeys split outputs.length N) (NodeOf (preparedOf split outputs)) := by
  intro t op args h hx
  obtain ⟨e', he', hocc⟩ := hx
  obtain ⟨i, hi, rfl⟩ := mem_preparedOf he'
  obtain ⟨n, hn, hnf, hy⟩ := prepare_occurs hocc rfl
  have hnN : n ∈ N := hN _ (List.getElem_mem hi) n hn hnf
  refine ⟨(Expr.func t op args h).key, ?_, BEq.rfl⟩
  exact List.mem_map.2 ⟨_, List.mem_flatMap.2 ⟨i, List.mem_range.2 hi,
    List.mem_flatMap.2 ⟨n, hnN, hy⟩⟩, rfl⟩

theorem length_preparedKeys_le {split : Nat} (hsplit : 2 ≤ split) (n : Nat) (N : List Expr) :
    (preparedKeys split n N).length ≤ n * (5 * nodeWeight N) := by
  have hpass : ∀ i, (N.flatMap (prepNew i split)).length ≤ 5 * nodeWeight N := by
    intro i
    rw [List.length_flatMap, nodeWeight, ← List.sum_map_mul_left]
    exact List.sum_le_sum fun x _ => length_prepNew_le i hsplit x
  rw [preparedKeys, List.length_map, List.length_flatMap]
  calc ((List.range n).map fun i => (N.flatMap (prepNew i split)).length).sum
      ≤ ((List.range n).map fun _ => 5 * nodeWeight N).sum :=
        List.sum_le_sum fun i _ => hpass i
    _ = n * (5 * nodeWeight N) := by simp

/-- Parameters are 32-bit indices, so a table holds at most `2 ^ 32` of them. -/
theorem length_paramsOf_le (prepared : List Expr) : (paramsOf prepared).length ≤ 2 ^ 32 := by
  have hsub : ((prepared.flatMap Expr.params).mergeSort (· ≤ ·)).eraseDups ⊆
      List.range (2 ^ 32) := by
    intro i hi
    simp only [List.mem_eraseDups, List.mem_mergeSort, List.mem_flatMap] at hi
    obtain ⟨e, -, he⟩ := hi
    obtain ⟨p, -, rfl⟩ := mem_params.1 he
    exact List.mem_range.2 p.toNat_lt
  have := ((nodup_eraseDups _).subperm hsub).length_le
  simpa [paramsOf] using this

section Raw

variable {names : List String} {outputs N : List Expr} {split : Nat}

/-- Preparation brings in no variable: every variable of a prepared expression is a variable
of its output. -/
theorem prepared_vars (hvars : ∀ e ∈ outputs, ∀ v, Occurs (.var v) e → v ∈ names) :
    ∀ e ∈ preparedOf split outputs, ∀ v, Occurs (.var v) e → v ∈ names := by
  intro e he v hv
  obtain ⟨i, hi, rfl⟩ := mem_preparedOf he
  rcases prepare_occurs_atom hv rfl with ⟨c, hc⟩ | hocc
  · cases hc
  · exact hvars _ (List.getElem_mem hi) v hocc

/-- The raw table of prepared expressions exists and decomposes them, for outputs as built
over non-elementary variables that cover them, when the nodes leave room for 64-bit
indices. -/
theorem Decomposes.of_ofPrepared (hsplit : 2 ≤ split)
    (hnames : ∀ v ∈ names, Variable.elementaryIndex? v = none)
    (hvars : ∀ e ∈ outputs, ∀ v, Occurs (.var v) e → v ∈ names)
    (htag : WellTagged outputs)
    (hN : ∀ e ∈ outputs, ∀ n, Occurs n e → n.op?.isSome → n ∈ N)
    (hroom : names.length + outputs.length * (25 * nodeWeight N + 1) + 2 ^ 33 ≤ 2 ^ 64) :
    ∃ d₀, ofPrepared names (preparedOf split outputs) = .ok d₀ ∧
      Decomposes names (preparedOf split outputs) d₀ := by
  obtain ⟨hhash, hid⟩ := htag.prepared split
  have hfam := family_nodeOf hhash hid
  have hK : Builder.Covers (preparedKeys split outputs.length N)
      (NodeOf (preparedOf split outputs)) := covers_preparedKeys hN
  have hU : ∀ e ∈ preparedOf split outputs, NodeOf (preparedOf split outputs) e :=
    fun e he => ⟨e, he, .refl⟩
  have hlen : (preparedOf split outputs).length = outputs.length := by simp [preparedOf]
  have hkeys := length_preparedKeys_le hsplit outputs.length N
  have hpars := length_paramsOf_le (preparedOf split outputs)
  have hroom' : names.length + (paramsOf (preparedOf split outputs)).length + 1 +
      5 * (preparedKeys split outputs.length N).length + (preparedOf split outputs).length ≤
      Variable.wordMax + 1 := by
    have hw : Variable.wordMax + 1 = 2 ^ 64 := rfl
    rw [hlen, hw]
    rw [Nat.mul_add, Nat.mul_one] at hroom
    have : 5 * (outputs.length * (5 * nodeWeight N)) = outputs.length * (25 * nodeWeight N) := by
      rw [← Nat.mul_assoc, Nat.mul_comm 5 outputs.length, Nat.mul_assoc, ← Nat.mul_assoc 5 5]
    omega
  obtain ⟨d₀, hd₀⟩ := ofPrepared_ok (prepared_vars hvars)
  obtain ⟨hwf, hshape, hfit, hvn, hps, -⟩ :=
    ofPrepared_wellFormed hnames hfam hK hU hroom' hd₀
  exact ⟨d₀, hd₀, hwf, hshape, hfit, hvn, hps,
    ofPrepared_reconstruct hnames hfam hK hU hroom' hd₀⟩

/-- A build of outputs as built, over non-elementary variables that cover them and with room
for 64-bit indices, succeeds, and every table its passes can go through decomposes the
prepared outputs. -/
theorem build_decomposes {opts : DecomposeOptions} (hsplit : 2 ≤ opts.sumSplit)
    (hnames : ∀ v ∈ names, Variable.elementaryIndex? v = none)
    (hvars : ∀ e ∈ outputs, ∀ v, Occurs (.var v) e → v ∈ names)
    (htag : WellTagged outputs)
    (hN : ∀ e ∈ outputs, ∀ n, Occurs n e → n.op?.isSome → n ∈ N)
    (hroom : names.length + outputs.length * (25 * nodeWeight N + 1) + 2 ^ 33 ≤ 2 ^ 64) :
    ∃ d₀, ofPrepared names (preparedOf opts.sumSplit outputs) = .ok d₀ ∧
      build names outputs opts = .ok (runPasses opts.cse opts.reorder d₀) ∧
      ∀ merge order, Decomposes names (preparedOf opts.sumSplit outputs)
        (runPasses merge order d₀) := by
  obtain ⟨d₀, hd₀, hdec⟩ := Decomposes.of_ofPrepared hsplit hnames hvars htag hN hroom
  refine ⟨d₀, hd₀, ?_, hdec.runPasses⟩
  rw [build_eq hsplit, hd₀]
  rfl

end Raw

/-! ## Decomposing one expression and a system -/

/-- A loop in `Except` whose steps either continue or fail succeeds exactly when every step
continues. -/
theorem forIn_except_eq_ok_iff {ε α : Type} (l : List α)
    (f : α → PUnit → Except ε (ForInStep PUnit))
    (hf : ∀ x, f x ⟨⟩ = .ok (.yield ⟨⟩) ∨ ∃ err, f x ⟨⟩ = .error err) :
    forIn l ⟨⟩ f = .ok ⟨⟩ ↔ ∀ x ∈ l, f x ⟨⟩ = .ok (.yield ⟨⟩) := by
  refine ⟨fun h => ?_, forIn_except_ok l f⟩
  induction l with
  | nil => simp
  | cons x xs ih =>
    rw [List.forIn_cons] at h
    rcases hf x with hx | ⟨err, hx⟩
    · rw [hx] at h
      intro y hy
      rcases List.mem_cons.1 hy with rfl | hy
      · exact hx
      · exact ih h y hy
    · rw [hx] at h
      cases h

/-- The state a validated system collects has no elementary name. -/
theorem collectState_plain : ∀ (eqs : List (Expr × Expr)) (seen state : List String),
    OdeSystem.collectState eqs seen = .ok state →
    (∀ v ∈ seen, Variable.elementaryIndex? v = none) →
    ∀ v ∈ state, Variable.elementaryIndex? v = none
  | [], seen, state, h, hseen => by
    simp only [OdeSystem.collectState, Except.ok.injEq] at h
    subst h
    simpa using hseen
  | (lhs, _) :: rest, seen, state, h, hseen => by
    cases lhs with
    | var v =>
      simp only [OdeSystem.collectState] at h
      split at h
      · cases h
      · rename_i hv
        split at h
        · cases h
        · refine collectState_plain rest (v :: seen) state h ?_
          intro w hw
          rcases List.mem_cons.1 hw with rfl | hw
          · simpa [Variable.isElementary] using hv
          · exact hseen w hw
    | _ => simp [OdeSystem.collectState] at h

/-- A list of equations is a system when it is not empty, its left-hand sides give a state,
and its right-hand sides mention state variables only. -/
theorem ofEquations_eq_ok {eqs : List (Expr × Expr)} {sys : OdeSystem} :
    OdeSystem.ofEquations eqs = .ok sys ↔ eqs ≠ [] ∧ ∃ state,
      OdeSystem.collectState eqs [] = .ok state ∧
      (∀ f ∈ eqs.map (fun q => q.2), ∀ v, Occurs (.var v) f → v ∈ state) ∧
      sys = ⟨state, eqs.map (fun q => q.2)⟩ := by
  unfold OdeSystem.ofEquations
  simp only [bind, Except.bind]
  by_cases hne : eqs.isEmpty
  · simp [throw, throwThe, MonadExceptOf.throw, List.isEmpty_iff.1 hne]
  simp only [hne, if_false, Bool.false_eq_true]
  cases hstate : OdeSystem.collectState eqs [] with
  | error err => simp
  | ok state =>
    simp only [Except.ok.injEq, exists_eq_left']
    split
    · -- the loop fails at a right-hand side that mentions a stranger
      rename_i err hloop
      simp only [reduceCtorEq, false_iff, not_and]
      rintro - hall
      rw [forIn_except_ok _ _ fun f hf => ?_] at hloop
      · cases hloop
      cases hfind : List.find? (fun v => !state.contains v) f.varNames with
      | some u =>
        have hu := List.find?_some hfind
        have hmem := hall f hf u (mem_varNames.1 (List.mem_of_find?_eq_some hfind))
        simp [hmem] at hu
      | none => rfl
    · -- the loop succeeds: every right-hand side mentions state variables only
      rename_i hloop
      have hsteps := (forIn_except_eq_ok_iff _ _ (fun f => by
        cases List.find? _ f.varNames <;> simp [throw, throwThe, MonadExceptOf.throw])).1 hloop
      have hall : ∀ f ∈ eqs.map (fun q => q.2), ∀ v, Occurs (.var v) f → v ∈ state := by
        intro f hf v hv
        have hfind := hsteps f hf
        cases hfv : List.find? (fun w => !state.contains w) f.varNames with
        | some u =>
          rw [hfv] at hfind
          cases hfind
        | none => simpa using List.find?_eq_none.1 hfv v (mem_varNames.2 hv)
      simp only [pure, Except.pure, Except.ok.injEq]
      exact ⟨fun h => ⟨by simpa using hne, hall, h.symm⟩, fun h => h.2.2.symm⟩

/-- A validated system: its state variables are not elementary, its right-hand sides mention
state variables only, and it has an equation. -/
theorem ofEquations_valid {eqs : List (Expr × Expr)} {sys : OdeSystem}
    (h : OdeSystem.ofEquations eqs = .ok sys) :
    (∀ v ∈ sys.state, Variable.elementaryIndex? v = none) ∧
      (∀ f ∈ sys.rhs, ∀ v, Occurs (.var v) f → v ∈ sys.state) ∧ sys.rhs ≠ [] := by
  obtain ⟨hne, state, hstate, hrhs, rfl⟩ := ofEquations_eq_ok.1 h
  exact ⟨collectState_plain eqs [] state hstate (by simp), hrhs, by simpa using hne⟩

/-- Decomposing one expression over non-elementary variables builds over its variables. -/
theorem ofExpr_eq {e : Expr} {opts : DecomposeOptions}
    (hnames : ∀ v ∈ e.varNames, Variable.elementaryIndex? v = none) :
    ofExpr e opts = build e.varNames [e] opts := by
  have hfind : e.varNames.find? Variable.isElementary = none :=
    List.find?_eq_none.2 fun v hv => by simp [Variable.isElementary, hnames v hv]
  simp only [ofExpr, hfind]

/-- Decomposing a system with extra expressions over its state builds over its state. -/
theorem ofSystem_eq {sys : OdeSystem} {extra : List Expr} {opts : DecomposeOptions}
    (hextra : ∀ f ∈ extra, ∀ v, Occurs (.var v) f → v ∈ sys.state) :
    ofSystem sys extra opts = build sys.state (sys.rhs ++ extra) opts := by
  unfold ofSystem
  simp only [bind, Except.bind]
  rw [forIn_except_ok extra _ fun f hf => ?_]
  have hfind : f.varNames.find? (fun v => (sys.indexOf? v).isNone) = none := by
    refine List.find?_eq_none.2 fun v hv => ?_
    have hmem := hextra f hf v (mem_varNames.1 hv)
    simp [OdeSystem.indexOf?, List.idxOf?_eq_none_iff, hmem]
  rw [hfind]
  rfl


/-- The variables of one expression cover it. -/
theorem vars_singleton (e : Expr) : ∀ f ∈ [e], ∀ v, Occurs (.var v) f → v ∈ e.varNames := by
  intro f hf v hv
  rw [List.mem_singleton.1 hf] at hv
  exact mem_varNames.2 hv

/-- A build of at least one output succeeds only when sums may keep two terms. -/
theorem two_le_sumSplit_of_build {names : List String} {outputs : List Expr}
    {opts : DecomposeOptions} {d : Decomposition} (h : build names outputs opts = .ok d)
    (hne : outputs ≠ []) : 2 ≤ opts.sumSplit := by
  obtain ⟨e, rest, rfl⟩ := List.exists_cons_of_ne_nil hne
  by_contra hlt
  have hprep : ∃ err, e.prepare 0 opts.sumSplit = .error err := by
    simp [prepare, splitSumsPass, Nat.lt_of_not_le hlt, bind, Except.bind]
  obtain ⟨err, herr⟩ := hprep
  unfold build at h
  simp [List.zipIdx_cons, List.mapM_cons, herr, bind, Except.bind] at h

theorem ofExpr_ok {e : Expr} {opts : DecomposeOptions} {d : Decomposition}
    (h : ofExpr e opts = .ok d) :
    (∀ v ∈ e.varNames, Variable.elementaryIndex? v = none) ∧ build e.varNames [e] opts = .ok d := by
  have hnames : ∀ v ∈ e.varNames, Variable.elementaryIndex? v = none := by
    intro v hv
    cases hfind : e.varNames.find? Variable.isElementary with
    | some u => simp [ofExpr, hfind, throw, throwThe, MonadExceptOf.throw, bind, Except.bind] at h
    | none => simpa [Variable.isElementary] using List.find?_eq_none.1 hfind v hv
  exact ⟨hnames, (ofExpr_eq hnames).symm.trans h⟩

theorem ofSystem_ok {sys : OdeSystem} {extra : List Expr} {opts : DecomposeOptions}
    {d : Decomposition} (h : ofSystem sys extra opts = .ok d) :
    (∀ f ∈ extra, ∀ v, Occurs (.var v) f → v ∈ sys.state) ∧
      build sys.state (sys.rhs ++ extra) opts = .ok d := by
  unfold ofSystem at h
  simp only [bind, Except.bind] at h
  split at h
  · cases h
  · rename_i hloop
    have hsteps := (forIn_except_eq_ok_iff _ _ (fun f => by
      cases List.find? _ f.varNames <;> simp [throw, throwThe, MonadExceptOf.throw])).1 hloop
    refine ⟨fun f hf v hv => ?_, h⟩
    have hfind := hsteps f hf
    cases hfv : f.varNames.find? (fun v => (sys.indexOf? v).isNone) with
    | some u =>
      rw [hfv] at hfind
      cases hfind
    | none =>
      have := List.find?_eq_none.1 hfv v (mem_varNames.2 hv)
      simpa [OdeSystem.indexOf?, List.idxOf?_eq_none_iff] using this

/-- Every function entry of a table in shape lists as many hidden dependencies as the
recurrence of its operator reads. -/
theorem length_hidden_of_hiddenShape {d : Decomposition} (h : d.HiddenShape) {i : Nat}
    (hlo : d.nPrefix ≤ i) (hhi : i < d.functionsEnd) :
    (d.entry i).hidden.length = ((d.entry i).op?.map Op.hiddenCount).getD 0 := by
  have hi := h i hlo hhi
  unfold HiddenShapeAt at hi
  unfold Entry.op?
  cases hrhs : (d.entry i).rhs with
  | func t op args hh =>
    rw [hrhs] at hi
    exact hi.length
  | _ =>
    rw [hrhs] at hi
    simp [hi, Expr.op?]

/-- Decomposing an expression over non-elementary variables, or the right-hand sides of a
validated system followed by extra expressions over its state, succeeds on expressions as
built when sums may keep two terms and the nodes leave room for 64-bit indices. The raw
table and every table the passes give from it are accepted by `check` against the prepared
expressions, are well formed, hold the variables (by name, or in state order) and then the
parameters of the prepared expressions in their prefix, and reconstruct the prepared
expressions. -/
theorem decompose_reconstructs :
    (∀ (e : Expr) (opts : DecomposeOptions) (N : List Expr), 2 ≤ opts.sumSplit →
      (∀ v ∈ e.varNames, Variable.elementaryIndex? v = none) → WellTagged [e] →
      (∀ n, Occurs n e → n.op?.isSome → n ∈ N) →
      e.varNames.length + (25 * nodeWeight N + 1) + 2 ^ 33 ≤ 2 ^ 64 →
      ∃ d₀, ofPrepared e.varNames (preparedOf opts.sumSplit [e]) = .ok d₀ ∧
        ofExpr e opts = .ok (runPasses opts.cse opts.reorder d₀) ∧
        ∀ merge order,
          (runPasses merge order d₀).check (preparedOf opts.sumSplit [e]) = .ok () ∧
          Decomposes e.varNames (preparedOf opts.sumSplit [e]) (runPasses merge order d₀)) ∧
    (∀ (eqs : List (Expr × Expr)) (sys : OdeSystem) (extra : List Expr)
      (opts : DecomposeOptions) (N : List Expr), OdeSystem.ofEquations eqs = .ok sys →
      (∀ f ∈ extra, ∀ v, Occurs (.var v) f → v ∈ sys.state) → 2 ≤ opts.sumSplit →
      WellTagged (sys.rhs ++ extra) →
      (∀ e ∈ sys.rhs ++ extra, ∀ n, Occurs n e → n.op?.isSome → n ∈ N) →
      sys.state.length + (sys.rhs ++ extra).length * (25 * nodeWeight N + 1) + 2 ^ 33 ≤
        2 ^ 64 →
      ∃ d₀, ofPrepared sys.state (preparedOf opts.sumSplit (sys.rhs ++ extra)) = .ok d₀ ∧
        ofSystem sys extra opts = .ok (runPasses opts.cse opts.reorder d₀) ∧
        ∀ merge order,
          (runPasses merge order d₀).check (preparedOf opts.sumSplit (sys.rhs ++ extra)) =
            .ok () ∧
          Decomposes sys.state (preparedOf opts.sumSplit (sys.rhs ++ extra))
            (runPasses merge order d₀)) := by
  constructor
  · intro e opts N hsplit hnames htag hN hroom
    obtain ⟨d₀, hd₀, hbuild, hdec⟩ := build_decomposes hsplit hnames (vars_singleton e) htag
      (fun f hf => List.mem_singleton.1 hf ▸ hN) (by simpa using hroom)
    exact ⟨d₀, hd₀, (ofExpr_eq hnames).trans hbuild, fun merge order =>
      ⟨(hdec merge order).check, hdec merge order⟩⟩
  · intro eqs sys extra opts N hsys hextra hsplit htag hN hroom
    obtain ⟨hplain, hrhs, -⟩ := ofEquations_valid hsys
    have hvars : ∀ f ∈ sys.rhs ++ extra, ∀ v, Occurs (.var v) f → v ∈ sys.state := by
      intro f hf
      rcases List.mem_append.1 hf with hf | hf
      · exact hrhs f hf
      · exact hextra f hf
    obtain ⟨d₀, hd₀, hbuild, hdec⟩ := build_decomposes hsplit hplain hvars htag hN hroom
    exact ⟨d₀, hd₀, (ofSystem_eq hextra).trans hbuild, fun merge order =>
      ⟨(hdec merge order).check, hdec merge order⟩⟩

/-! ## A decomposition of a shared node

`sin x * sin x` with its two factors one node: lowering meets the factor once, and the sine
brings its cosine partner. -/

/-- `sin x`, as one tagged node. -/
def sinX : Expr := node (.path [0]) .sin [.var "x"]

/-- `sin x * sin x`, the two factors one node. -/
def sinSquared : Expr := node (.path [1]) .mul [sinX, sinX]

theorem occurs_sinSquared {a : Expr} :
    Occurs a sinSquared ↔ a = sinSquared ∨ a = sinX ∨ a = .var "x" := by
  simp only [sinSquared, sinX, node, occurs_func_iff, occurs_var_iff, List.mem_cons,
    List.mem_nil_iff, or_false, exists_eq_or_imp, exists_eq_left]
  tauto

theorem varNames_sinSquared : sinSquared.varNames = ["x"] := by
  simp only [Expr.varNames, sinSquared, node, sinX, atoms, List.map_cons, List.map_nil,
    List.flatten_cons, List.flatten_nil, List.append_nil, List.cons_append, List.nil_append,
    Option.some.injEq, List.filterMap_cons_some, List.filterMap_nil]
  rw [List.mergeSort_of_pairwise (by decide)]
  decide

theorem wellTagged_sinSquared : WellTagged [sinSquared] := by
  have hpath : sinSquared.path? = some [1] ∧ sinX.path? = some [0] ∧
      (Expr.var "x").path? = none := ⟨rfl, rfl, rfl⟩
  refine ⟨fun e he => ?_, fun x y p hx hy hpx hpy => ?_, fun x y p k r hx hy hpx hpy => ?_⟩
  · rw [List.mem_singleton.1 he]
    refine HashOk.node fun a ha => ?_
    rw [List.mem_cons, List.mem_singleton, or_self] at ha
    subst ha
    refine HashOk.node fun b hb => ?_
    rw [List.mem_singleton.1 hb]
    intro t op args h ho
    cases occurs_var_iff.1 ho
  -- the two tags, `[1]` and `[0]`, name one node each and extend neither the other
  all_goals
    simp only [List.mem_singleton, exists_eq_left, occurs_sinSquared] at hx hy
    rcases hx with rfl | rfl | rfl <;> rcases hy with rfl | rfl | rfl <;>
      simp only [hpath, reduceCtorEq, Option.some.injEq] at hpx hpy
  all_goals
    subst hpx
    simp at hpy ⊢

theorem nodes_sinSquared : ∀ n, Occurs n sinSquared → n.op?.isSome → n ∈ [sinSquared, sinX] := by
  intro n hn hf
  rcases occurs_sinSquared.1 hn with rfl | rfl | rfl
  · simp
  · simp
  · simp [op?] at hf

theorem ofEquations_sinSquared :
    OdeSystem.ofEquations [(.var "x", sinSquared)] = .ok ⟨["x"], [sinSquared]⟩ := by
  refine ofEquations_eq_ok.2 ⟨by simp, ["x"], rfl, fun f hf v hv => ?_, rfl⟩
  rw [List.map_singleton, List.mem_singleton] at hf
  subst hf
  rw [← mem_varNames, varNames_sinSquared] at hv
  exact hv

theorem plain_sinSquared : ∀ v ∈ sinSquared.varNames, Variable.elementaryIndex? v = none := by
  rw [varNames_sinSquared]
  decide

theorem room_sinSquared :
    sinSquared.varNames.length + (25 * nodeWeight [sinSquared, sinX] + 1) + 2 ^ 33 ≤ 2 ^ 64 := by
  rw [varNames_sinSquared]
  simp [nodeWeight, sinSquared, sinX, node, Expr.args]

/-- `sin x * sin x` decomposes over `x`, alone and as the right-hand side of `x' = sin x * sin x`,
under the default options. -/
theorem sinSquared_decomposes :
    (2 ≤ ({} : DecomposeOptions).sumSplit ∧
      (∀ v ∈ sinSquared.varNames, Variable.elementaryIndex? v = none) ∧
      WellTagged [sinSquared] ∧
      (∀ n, Occurs n sinSquared → n.op?.isSome → n ∈ [sinSquared, sinX]) ∧
      sinSquared.varNames.length + (25 * nodeWeight [sinSquared, sinX] + 1) + 2 ^ 33 ≤ 2 ^ 64 ∧
      ∃ d₀, ofPrepared sinSquared.varNames (preparedOf 8 [sinSquared]) = .ok d₀ ∧
        ofExpr sinSquared {} = .ok (runPasses true true d₀) ∧
        ∀ merge order,
          (runPasses merge order d₀).check (preparedOf 8 [sinSquared]) = .ok () ∧
          Decomposes sinSquared.varNames (preparedOf 8 [sinSquared]) (runPasses merge order d₀)) ∧
    (OdeSystem.ofEquations [(.var "x", sinSquared)] = .ok ⟨["x"], [sinSquared]⟩ ∧
      ∃ d₀, ofPrepared ["x"] (preparedOf 8 [sinSquared]) = .ok d₀ ∧
        ofSystem ⟨["x"], [sinSquared]⟩ [] {} = .ok (runPasses true true d₀) ∧
        ∀ merge order,
          (runPasses merge order d₀).check (preparedOf 8 [sinSquared]) = .ok () ∧
          Decomposes ["x"] (preparedOf 8 [sinSquared]) (runPasses merge order d₀)) := by
  refine ⟨⟨by decide, plain_sinSquared, wellTagged_sinSquared, nodes_sinSquared, room_sinSquared,
    decompose_reconstructs.1 sinSquared {} [sinSquared, sinX] (by decide) plain_sinSquared
      wellTagged_sinSquared nodes_sinSquared room_sinSquared⟩,
    ofEquations_sinSquared, ?_⟩
  refine decompose_reconstructs.2 [(.var "x", sinSquared)] ⟨["x"], [sinSquared]⟩ [] {}
    [sinSquared, sinX] ofEquations_sinSquared (by simp) (by decide) wellTagged_sinSquared
    (fun e he => ?_) ?_
  · rw [List.append_nil, List.mem_singleton] at he
    subst he
    exact nodes_sinSquared
  · have := room_sinSquared
    rw [varNames_sinSquared] at this
    simpa using this

/-- Every decomposition of an expression, or of the right-hand sides of a validated system
followed by extra expressions, under any options, gives each function entry the hidden
dependencies its recurrence reads, as many as `Op.hiddenCount` says and in the shape the
recurrence assumes, when the expressions are as built and their nodes leave room for 64-bit
indices. -/
theorem decompose_hidden_shape :
    (∀ (e : Expr) (opts : DecomposeOptions) (N : List Expr) (d : Decomposition),
      WellTagged [e] → (∀ n, Occurs n e → n.op?.isSome → n ∈ N) →
      e.varNames.length + (25 * nodeWeight N + 1) + 2 ^ 33 ≤ 2 ^ 64 →
      ofExpr e opts = .ok d →
      d.HiddenShape ∧ ∀ i, d.nPrefix ≤ i → i < d.functionsEnd →
        (d.entry i).hidden.length = ((d.entry i).op?.map Op.hiddenCount).getD 0) ∧
    (∀ (eqs : List (Expr × Expr)) (sys : OdeSystem) (extra : List Expr)
      (opts : DecomposeOptions) (N : List Expr) (d : Decomposition),
      OdeSystem.ofEquations eqs = .ok sys → WellTagged (sys.rhs ++ extra) →
      (∀ e ∈ sys.rhs ++ extra, ∀ n, Occurs n e → n.op?.isSome → n ∈ N) →
      sys.state.length + (sys.rhs ++ extra).length * (25 * nodeWeight N + 1) + 2 ^ 33 ≤
        2 ^ 64 →
      ofSystem sys extra opts = .ok d →
      d.HiddenShape ∧ ∀ i, d.nPrefix ≤ i → i < d.functionsEnd →
        (d.entry i).hidden.length = ((d.entry i).op?.map Op.hiddenCount).getD 0) := by
  -- a successful build has the hidden dependencies in shape, hence their number
  have shaped : ∀ {names : List String} {outputs : List Expr} {opts : DecomposeOptions}
      {N : List Expr} {d : Decomposition}, build names outputs opts = .ok d → outputs ≠ [] →
      (∀ v ∈ names, Variable.elementaryIndex? v = none) →
      (∀ e ∈ outputs, ∀ v, Occurs (.var v) e → v ∈ names) → WellTagged outputs →
      (∀ e ∈ outputs, ∀ n, Occurs n e → n.op?.isSome → n ∈ N) →
      names.length + outputs.length * (25 * nodeWeight N + 1) + 2 ^ 33 ≤ 2 ^ 64 →
      d.HiddenShape ∧ ∀ i, d.nPrefix ≤ i → i < d.functionsEnd →
        (d.entry i).hidden.length = ((d.entry i).op?.map Op.hiddenCount).getD 0 := by
    intro names outputs opts N d h hne hnames hvars htag hN hroom
    obtain ⟨d₀, -, hbuild, hdec⟩ := build_decomposes (two_le_sumSplit_of_build h hne) hnames
      hvars htag hN hroom
    rw [hbuild, Except.ok.injEq] at h
    subst h
    have hshape := (hdec opts.cse opts.reorder).hiddenShape
    exact ⟨hshape, fun i hlo hhi => length_hidden_of_hiddenShape hshape hlo hhi⟩
  constructor
  · intro e opts N d htag hN hroom h
    obtain ⟨hnames, hbuild⟩ := ofExpr_ok h
    exact shaped hbuild (List.cons_ne_nil e []) hnames (vars_singleton e) htag
      (fun f hf => List.mem_singleton.1 hf ▸ hN) (by simpa using hroom)
  · intro eqs sys extra opts N d hsys htag hN hroom h
    obtain ⟨hextra, hbuild⟩ := ofSystem_ok h
    obtain ⟨hplain, hrhs, hsome⟩ := ofEquations_valid hsys
    have hne : sys.rhs ++ extra ≠ [] := fun hnil => hsome (List.append_eq_nil_iff.1 hnil).1
    refine shaped hbuild hne hplain (fun f hf => ?_) htag hN hroom
    rcases List.mem_append.1 hf with hf | hf
    · exact hrhs f hf
    · exact hextra f hf

/-- The decompositions of `sin x * sin x`, alone and as the right-hand side of
`x' = sin x * sin x`, under the default options, have their hidden dependencies in shape. -/
theorem sinSquared_hidden_shape :
    (∃ d, ofExpr sinSquared {} = .ok d ∧ WellTagged [sinSquared] ∧
      (∀ n, Occurs n sinSquared → n.op?.isSome → n ∈ [sinSquared, sinX]) ∧
      sinSquared.varNames.length + (25 * nodeWeight [sinSquared, sinX] + 1) + 2 ^ 33 ≤ 2 ^ 64 ∧
      d.HiddenShape ∧ ∀ i, d.nPrefix ≤ i → i < d.functionsEnd →
        (d.entry i).hidden.length = ((d.entry i).op?.map Op.hiddenCount).getD 0) ∧
    (∃ d, OdeSystem.ofEquations [(.var "x", sinSquared)] = .ok ⟨["x"], [sinSquared]⟩ ∧
      ofSystem ⟨["x"], [sinSquared]⟩ [] {} = .ok d ∧
      d.HiddenShape ∧ ∀ i, d.nPrefix ≤ i → i < d.functionsEnd →
        (d.entry i).hidden.length = ((d.entry i).op?.map Op.hiddenCount).getD 0) := by
  have hN : ∀ e ∈ [sinSquared], ∀ n, Occurs n e → n.op?.isSome → n ∈ [sinSquared, sinX] :=
    fun e he => List.mem_singleton.1 he ▸ nodes_sinSquared
  have hroom : ["x"].length + [sinSquared].length * (25 * nodeWeight [sinSquared, sinX] + 1) +
      2 ^ 33 ≤ 2 ^ 64 := by
    have := room_sinSquared
    rw [varNames_sinSquared] at this
    simpa using this
  have hvars : ∀ f ∈ [sinSquared], ∀ v, Occurs (.var v) f → v ∈ ["x"] :=
    varNames_sinSquared ▸ vars_singleton sinSquared
  obtain ⟨d₀, -, hbuild, -⟩ := build_decomposes (show 2 ≤ ({} : DecomposeOptions).sumSplit by decide)
    (varNames_sinSquared ▸ plain_sinSquared) hvars wellTagged_sinSquared hN hroom
  have hexpr : ofExpr sinSquared {} = .ok (runPasses true true d₀) :=
    (ofExpr_eq plain_sinSquared).trans (varNames_sinSquared ▸ hbuild)
  have hsys : ofSystem ⟨["x"], [sinSquared]⟩ [] {} = .ok (runPasses true true d₀) :=
    (ofSystem_eq (by simp)).trans hbuild
  refine ⟨⟨_, hexpr, wellTagged_sinSquared, nodes_sinSquared, room_sinSquared,
    decompose_hidden_shape.1 sinSquared {} _ _ wellTagged_sinSquared nodes_sinSquared
      room_sinSquared hexpr⟩, ⟨_, ofEquations_sinSquared, hsys,
    decompose_hidden_shape.2 _ _ [] {} [sinSquared, sinX] _ ofEquations_sinSquared
      wellTagged_sinSquared hN hroom hsys⟩⟩

end Decomposition

end TaylorOde
