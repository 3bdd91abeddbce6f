import TaylorOde.Proofs.Ir.Blocks
import TaylorOde.Proofs.Decomposition.Table
import Mathlib
/-!
# The reference evaluation of a decomposition

`Decomposition.reference p` fills a tape of `N` entries per order, `N` the end of the function
entries, with the Taylor coefficients of orders `0 … p`, order after order, as a list of
`Tape.Update`s:

* above order 0, state variable `k` gets its output's coefficient of the order below times
  `1/n`, or, for a literal output `c`, `c` at order 1 and zero above (`stateUpdate`);
* parameter `k` gets `pars[index]` at order 0, NaN when there is none, and zero above
  (`paramUpdate`);
* then, by increasing index, the entry of the time gets `t`, one and zero at orders 0, 1 and
  above, and an operator entry the recurrence of its operator evaluated directly against the
  tape (`entryUpdate`).

Each update reads only the cells it names. For the recurrence of an entry these are its
references up to order `n` and itself and its hidden dependencies below order `n`
(`entryReads`); that the value depends on them alone follows from building the recurrence as
code, whose loads are its reads (`entryValue_congr`).

On a well-formed table the evaluation is causal: every read is of an order-0 state cell, which
it never writes, or of a cell written before (`causal_reference`); and it writes the cells
`nVars, nVars + 1, …, (p + 1) N - 1` in this order, each once (`cells_reference`).
-/

namespace TaylorOde

namespace Decomposition

open Tape CodeBuilder IrModule

variable {α : Type} [Scalar α]

/-! ## The updates -/

/-- The cells the order-`n` coefficient of entry `i` may read, on a tape of `functionsEnd`
entries per order: a reference up to order `n`, the entry itself or a hidden dependency below
order `n`. -/
def entryReads (d : Decomposition) (i n c : Nat) : Prop :=
  ∃ j k, c = k * d.functionsEnd + j ∧
    (j ∈ (d.entry i).refs ∧ k ≤ n ∨ (j = i ∨ j ∈ (d.entry i).hidden) ∧ k < n)

/-- The order-`n` coefficient of entry `i`, computed from the tape `T`: the time is `t` at
order 0, one at order 1 and zero above; an operator entry takes the recurrence of its operator
over its arguments and hidden dependencies, read directly from `T`, or NaN where the recurrence
does not apply. -/
def entryValue (d : Decomposition) (t : α) (i n : Nat) (T : Array α) : α :=
  match (d.entry i).rhs with
  | .time =>
    match n with
    | 0 => t
    | 1 => Scalar.ofFloat 1.0
    | _ => Scalar.ofFloat 0.0
  | .func _ op args _ =>
    (coefficient (CoeffOps.onTape d.functionsEnd none T) op (.coeff (.fixed i)) (args.map operand)
      ((d.entry i).hidden.map fun h => .coeff (.fixed h)) n).toOption.getD (Scalar.nan : α)
  | _ => Scalar.nan

/-- The order-`n` coefficient of entry `i`. -/
def entryUpdate (d : Decomposition) (t : α) (i n : Nat) : Update α where
  cell := n * d.functionsEnd + i
  reads := d.entryReads i n
  value := d.entryValue t i n

/-- The order-`n` coefficient, `n > 0`, of state variable `k`, whose right-hand side is the
output `out`, on a tape of `N` entries per order: the output's coefficient of the order below
over `n`, or, for a literal output, the literal at order 1 and zero above. -/
def stateUpdate (N : Nat) (out : OutputRef) (k n : Nat) : Update α :=
  match out with
  | .entry j =>
    { cell := n * N + k
      reads := fun c => c = (n - 1) * N + j
      value := fun T => Scalar.ofFloat (Const.inv n).toFloat * T[(n - 1) * N + j]?.getD Scalar.nan }
  | .number c =>
    { cell := n * N + k
      reads := fun _ => False
      value := fun _ => if n == 1 then Scalar.ofFloat c else Scalar.ofFloat (Const.nat 0).toFloat }

/-- The order-`n` coefficient of the `k`-th parameter, of index `p`, which follows the `nVars`
state variables: the parameter's value at order 0, NaN when there is none, and zero above. -/
def paramUpdate (pars : Array α) (N nVars : Nat) (p : UInt32) (k n : Nat) : Update α where
  cell := n * N + (nVars + k)
  reads _ := False
  value _ := if n == 0 then pars[p.toNat]?.getD Scalar.nan else Scalar.ofFloat (Const.nat 0).toFloat

/-- The updates of the prefix at order `n`: the state variables above order 0, then the
parameters. -/
def prefixUpdates (d : Decomposition) (pars : Array α) (n : Nat) : List (Update α) :=
  (if n > 0 then
    (d.outputRefs.take d.varNames.length).zipIdx.map fun o => stateUpdate d.functionsEnd o.1 o.2 n
  else []) ++
    d.params.zipIdx.map fun q => paramUpdate pars d.functionsEnd d.varNames.length q.1 q.2 n

/-- The updates of order `n`: the prefix, then every function entry by increasing index. -/
def orderUpdates (d : Decomposition) (pars : Array α) (t : α) (n : Nat) : List (Update α) :=
  d.prefixUpdates pars n ++ d.functions.map fun i => d.entryUpdate t i n

/-- The updates of orders `0 … p`, one order after another. -/
def referenceUpdates (d : Decomposition) (p : Nat) (pars : Array α) (t : α) : List (Update α) :=
  (List.range (p + 1)).flatMap (d.orderUpdates pars t)

/-- The tape the reference evaluation leaves: the updates of orders `0 … p` applied to `tape`,
with the parameters `pars` and the time `t`. -/
def reference (d : Decomposition) (p : Nat) (tape pars : Array α) (t : α) : Array α :=
  applyAll (d.referenceUpdates p pars t) tape

/-! ## Each update reads the cells it names -/

section Sound

variable {d : Decomposition}

@[simp] theorem stateUpdate_cell (N : Nat) (out : OutputRef) (k n : Nat) :
    (stateUpdate N out k n : Update α).cell = n * N + k := by
  cases out <;> rfl

theorem stateUpdate_sound (N : Nat) (out : OutputRef) (k n : Nat) :
    (stateUpdate N out k n : Update α).Sound := by
  intro T T' hT
  cases out with
  | entry j => exact congrArg (fun x => _ * Option.getD x _) (hT _ rfl)
  | number c => rfl

theorem paramUpdate_sound (pars : Array α) (N nVars : Nat) (p : UInt32) (k n : Nat) :
    (paramUpdate pars N nVars p k n).Sound :=
  fun _ _ _ => rfl

/-- An operand of an argument is loaded from the cell of the entry it names, if any. -/
theorem readsIn_operand {N : Nat} {R : Nat → Prop} {a : Expr} {k : Nat}
    (h : ∀ j, a.elemIndex? = some j → R (k * N + j)) : ReadsIn N none R (operand a, k) := by
  unfold operand
  cases ha : a.elemIndex? with
  | some j =>
    intro c hc
    simp only [cell, resolve, Option.map_some, Option.some.injEq] at hc
    exact hc ▸ h j ha
  | none => split <;> trivial

/-- The recurrence of an operator entry reads its references up to order `n` and itself and its
hidden dependencies below order `n`. -/
theorem reads_entry {i n : Nat} {tag : NodeTag} {op : Op} {args : List Expr} {hh : UInt64}
    (hrhs : (d.entry i).rhs = .func tag op args hh) :
    CoeffOps.LogsOnly.Reads (ReadsIn d.functionsEnd none (d.entryReads i n))
      CodeBuilder.ops.isConstant (.coeff (.fixed i)) (args.map operand)
      ((d.entry i).hidden.map fun h => .coeff (.fixed h)) n where
  arg a ha k hk _ := by
    obtain ⟨e, he, rfl⟩ := List.mem_map.1 ha
    exact readsIn_operand fun j hj => ⟨j, k, rfl, .inl ⟨(mem_refs_iff hrhs).2 ⟨e, he, hj⟩, hk⟩⟩
  self k hk _ := by
    intro c hc
    simp only [cell, resolve, Option.map_some, Option.some.injEq] at hc
    exact ⟨i, k, hc.symm, .inr ⟨.inl rfl, hk⟩⟩
  hid h hh k hk _ := by
    obtain ⟨j, hj, rfl⟩ := List.mem_map.1 hh
    intro c hc
    simp only [cell, resolve, Option.map_some, Option.some.injEq] at hc
    exact ⟨j, k, hc.symm, .inr ⟨.inr hj, hk⟩⟩

/-- The value of an entry depends only on the cells it reads: whether the recurrence applies
does not depend on the tape, and where it does, it is the value of code that loads those
cells only. -/
theorem entryValue_congr (t : α) (i n : Nat) {T T' : Array α}
    (hT : ∀ c, d.entryReads i n c → T[c]? = T'[c]?) :
    d.entryValue t i n T = d.entryValue t i n T' := by
  unfold entryValue
  cases hrhs : (d.entry i).rhs with
  | time => rfl
  | func tag op args hh =>
    simp only
    cases hx : coefficient CodeBuilder.ops op (.coeff (.fixed i)) (args.map operand)
        ((d.entry i).hidden.map fun h => .coeff (.fixed h)) n with
    | error e =>
      have herr : ∀ X : Array α, ∃ e, coefficient (CoeffOps.onTape d.functionsEnd none X) op
          (.coeff (.fixed i)) (args.map operand)
          ((d.entry i).hidden.map fun h => .coeff (.fixed h)) n = .error e :=
        fun X => (coefficient_isError_iff _ _ _ _ _ _).2
          ((coefficient_isError_iff CodeBuilder.ops _ _ _ _ _).1 ⟨e, hx⟩)
      obtain ⟨e₁, h₁⟩ := herr T
      obtain ⟨e₂, h₂⟩ := herr T'
      rw [h₁, h₂]
      rfl
    | ok x =>
      let env : RunEnv α := ⟨d.functionsEnd, none, #[], t⟩
      refine Builds.value_congr env (x := x) (y := fun X => (coefficient (CoeffOps.onTape d.functionsEnd none X)
        op (.coeff (.fixed i)) (args.map operand) ((d.entry i).hidden.map fun h => .coeff (.fixed h))
        n).toOption.getD (Scalar.nan : α)) (fun X => ?_) hT
      obtain ⟨y, hy, hb⟩ : ∃ y, coefficient (CoeffOps.onTape env.n env.row X) op (.coeff (.fixed i))
          (args.map operand) ((d.entry i).hidden.map fun h => .coeff (.fixed h)) n = .ok y ∧
          Builds env X _ X #[] x y (Defines env X) :=
        builds_coefficient (reads_entry hrhs) hx
      simp only [env] at hy
      rw [hy]
      exact hb
  | _ => rfl

theorem entryUpdate_sound (t : α) (i n : Nat) : (d.entryUpdate t i n).Sound :=
  fun _ _ hT => entryValue_congr t i n hT

theorem orderUpdates_sound (pars : Array α) (t : α) (n : Nat) :
    ∀ u ∈ d.orderUpdates pars t n, u.Sound := by
  intro u hu
  simp only [orderUpdates, prefixUpdates, List.mem_append, List.mem_map] at hu
  rcases hu with (hu | ⟨q, -, rfl⟩) | ⟨i, -, rfl⟩
  · split at hu
    · obtain ⟨o, -, rfl⟩ := List.mem_map.1 hu
      exact stateUpdate_sound _ _ _ _
    · cases hu
  · exact paramUpdate_sound _ _ _ _ _ _
  · exact entryUpdate_sound t i n

end Sound

/-! ## The cells written -/

/-- The entries whose order-`n` cells the evaluation leaves as given: the state variables at
order 0, whose values are the initial state. -/
def given (d : Decomposition) (n : Nat) : Nat := if n = 0 then d.varNames.length else 0

theorem map_zipIdx_add {β : Type} (l : List β) (a : Nat) :
    (l.zipIdx.map fun q => a + q.2) = List.range' a l.length := by
  rw [show (fun q : β × Nat => a + q.2) = (a + ·) ∘ Prod.snd from rfl, ← List.map_map,
    List.zipIdx_map_snd, List.map_add_range', Nat.add_zero]

theorem length_outputRefs (d : Decomposition) : d.outputRefs.length = d.size - d.functionsEnd := by
  simp [outputRefs, outputs, size]

theorem cell_lt_mul {N j k n : Nat} (hj : j < N) (hk : k < n) : k * N + j < n * N :=
  calc k * N + j < k * N + N := by omega
    _ = (k + 1) * N := by ring
    _ ≤ n * N := Nat.mul_le_mul_right N hk

theorem pairwise_lt_functions (d : Decomposition) : d.functions.Pairwise (· < ·) :=
  List.pairwise_lt_range.map _ fun _ _ h => by omega

section Cells

variable {d : Decomposition} (hwf : d.WellFormed) (hout : d.varNames.length ≤ d.nOutputs)
  (pars : Array α) (t : α)
include hwf

omit hwf in
theorem given_le_nPrefix (n : Nat) : d.given n ≤ d.nPrefix := by
  unfold given nPrefix
  split <;> omega

include hout in
/-- The prefix of order `n` writes its cells one after another: the state variables above
order 0, then the parameters. -/
theorem cells_prefixUpdates (n : Nat) :
    (d.prefixUpdates pars n).map Update.cell =
      List.range' (n * d.functionsEnd + d.given n) (d.nPrefix - d.given n) := by
  have hlen : (d.outputRefs.take d.varNames.length).length = d.varNames.length := by
    have := hwf.size_le
    rw [List.length_take, length_outputRefs]
    unfold functionsEnd size at *
    omega
  have hpars : (d.params.zipIdx.map fun q =>
      paramUpdate pars d.functionsEnd d.varNames.length q.1 q.2 n).map Update.cell =
      List.range' (n * d.functionsEnd + d.varNames.length) d.params.length := by
    rw [List.map_map, ← map_zipIdx_add]
    simp only [Function.comp_def, paramUpdate, Nat.add_assoc]
  unfold prefixUpdates given nPrefix
  rw [List.map_append, hpars]
  by_cases hn : n = 0
  · simp [hn]
  · have hstate : ((d.outputRefs.take d.varNames.length).zipIdx.map fun o =>
        (stateUpdate d.functionsEnd o.1 o.2 n : Update α)).map Update.cell =
        List.range' (n * d.functionsEnd) (d.outputRefs.take d.varNames.length).length := by
      rw [List.map_map, ← map_zipIdx_add]
      simp only [Function.comp_def, stateUpdate_cell]
    rw [hlen] at hstate
    rw [if_pos (Nat.pos_of_ne_zero hn), hstate, if_neg hn, Nat.add_zero, Nat.sub_zero,
      List.range'_append_1]

omit hwf in
/-- The function entries of order `n` write theirs in increasing order. -/
theorem cells_entryUpdates (n : Nat) :
    (d.functions.map fun i => d.entryUpdate t i n).map Update.cell =
      List.range' (n * d.functionsEnd + d.nPrefix) (d.functionsEnd - d.nPrefix) := by
  have hcell : (Update.cell ∘ fun i => d.entryUpdate t i n) ∘ (· + d.nPrefix) =
      fun k => n * d.functionsEnd + d.nPrefix + k := by
    funext k
    simp only [Function.comp_def, entryUpdate]
    omega
  rw [List.map_map, functions, List.map_map, hcell, List.range_eq_range', List.map_add_range',
    Nat.add_zero]

include hout in
/-- Order `n` writes the cells of its order one after another, all but the given ones. -/
theorem cells_orderUpdates (n : Nat) :
    (d.orderUpdates pars t n).map Update.cell =
      List.range' (n * d.functionsEnd + d.given n) (d.functionsEnd - d.given n) := by
  have h₁ := given_le_nPrefix (d := d) n
  have h₂ := hwf.nPrefix_le_functionsEnd
  rw [orderUpdates, List.map_append, cells_prefixUpdates hwf hout, cells_entryUpdates,
    show n * d.functionsEnd + d.nPrefix =
      n * d.functionsEnd + d.given n + (d.nPrefix - d.given n) by omega, List.range'_append_1]
  congr 1
  omega

include hout in
/-- The reference evaluation writes the cells `nVars, nVars + 1, …, (p + 1) N - 1` in this
order, each once. -/
theorem cells_reference (p : Nat) :
    (d.referenceUpdates p pars t).map Update.cell =
      List.range' d.varNames.length ((p + 1) * d.functionsEnd - d.varNames.length) := by
  have hle : d.varNames.length ≤ d.functionsEnd := by
    have := hwf.nPrefix_le_functionsEnd
    unfold nPrefix at this
    omega
  induction p with
  | zero =>
    rw [referenceUpdates, List.range_one, List.flatMap_singleton,
      cells_orderUpdates hwf hout]
    simp [given]
  | succ p ih =>
    rw [referenceUpdates, List.range_succ, List.flatMap_append, List.flatMap_singleton,
      List.map_append, ← referenceUpdates, ih, cells_orderUpdates hwf hout]
    have hmul : (p + 1) * d.functionsEnd + d.functionsEnd = (p + 1 + 1) * d.functionsEnd := by
      ring
    have hstep : d.varNames.length ≤ (p + 1) * d.functionsEnd :=
      le_trans hle (Nat.le_mul_of_pos_left _ (Nat.succ_pos p))
    simp only [given, Nat.add_one_ne_zero, if_false, Nat.add_zero, Nat.sub_zero]
    have hsplit : List.range' ((p + 1) * d.functionsEnd) d.functionsEnd =
        List.range' (d.varNames.length + ((p + 1) * d.functionsEnd - d.varNames.length))
          d.functionsEnd := by
      rw [Nat.add_sub_cancel' hstep]
    rw [hsplit, List.range'_append_1]
    congr 1
    omega

/-! ## The evaluation is causal -/

/-- The cells known when order `n` starts: the given order-0 state cells and every cell of the
orders below. -/
def KnownBefore (d : Decomposition) (n c : Nat) : Prop :=
  c < d.varNames.length ∨ c < n * d.functionsEnd

omit hout in
/-- An output names an entry before the end of the function entries. -/
theorem lt_of_entry_mem_outputRefs {j : Nat} (h : OutputRef.entry j ∈ d.outputRefs) :
    j < d.functionsEnd := by
  obtain ⟨o, ho, hj⟩ := List.mem_map.1 h
  obtain ⟨m, hm⟩ := List.mem_iff_getElem?.1 ho
  rw [outputs_getElem?] at hm
  have hsize : d.functionsEnd + m < d.size := by
    rcases Nat.lt_or_ge (d.functionsEnd + m) d.size with hlt | hge
    · exact hlt
    · rw [Array.getElem?_eq_none hge] at hm
      cases hm
  have hok := hwf.output_entry _ (Nat.le_add_right _ _) hsize
  rw [entry_of_getElem? hm] at hok
  -- only an output naming an elementary variable is an entry reference
  cases hidx : o.rhs.elemIndex? with
  | some j' =>
    simp only [hidx, OutputRef.entry.injEq] at hj
    exact hj ▸ hok.refsBelow j' hidx
  | none =>
    simp only [hidx] at hj
    split at hj <;> simp_all

theorem causal_prefixUpdates (n : Nat) : Causal (d.KnownBefore n) (d.prefixUpdates pars n) := by
  refine causal_of_reads fun u hu c hc => ?_
  rcases List.mem_append.1 hu with hu | hu
  · split at hu
    · obtain ⟨⟨out, k⟩, ho, rfl⟩ := List.mem_map.1 hu
      obtain ⟨-, -, hout⟩ := List.mem_zipIdx ho
      cases out with
      | entry j =>
        have hj := lt_of_entry_mem_outputRefs hwf
          (List.mem_of_mem_take (hout ▸ List.getElem_mem _))
        have : c = (n - 1) * d.functionsEnd + j := hc
        exact .inr (this ▸ cell_lt_mul hj (by omega))
      | number v => exact hc.elim
    · cases hu
  · obtain ⟨q, -, rfl⟩ := List.mem_map.1 hu
    exact hc.elim

include hout in
/-- A read of the order-`n` coefficient of function entry `i` is of a cell known before order
`n`, of a cell of the prefix of order `n`, or of the order-`n` cell of a function entry that `i`
refers to. -/
theorem entryReads_cases {i n c : Nat} (hi : i ∈ d.functions) (hc : d.entryReads i n c) :
    d.KnownBefore n c ∨ c ∈ (d.prefixUpdates pars n).map Update.cell ∨
      ∃ j ∈ (d.entry i).refs, d.nPrefix ≤ j ∧ c = n * d.functionsEnd + j := by
  obtain ⟨hlo, hhi⟩ := mem_functions.1 hi
  obtain ⟨j, k, rfl, ⟨hj, hk⟩ | ⟨hj, hk⟩⟩ := hc
  · have hji : j < i := (hwf.function_entry i hlo hhi).refsBelow.lt_of_mem_refs hj
    rcases Nat.lt_or_ge k n with hkn | hkn
    · exact .inl (.inr (cell_lt_mul (by omega) hkn))
    · obtain rfl : k = n := by omega
      by_cases hjp : j < d.nPrefix
      · by_cases hg : d.given k ≤ j
        · refine .inr (.inl ?_)
          rw [cells_prefixUpdates hwf hout, List.mem_range'_1]
          omega
        · -- at order 0 the state cells are given
          have hk0 : k = 0 ∧ j < d.varNames.length := by
            unfold given at hg
            split at hg <;> omega
          obtain ⟨rfl, hjv⟩ := hk0
          exact .inl (.inl (by simpa using hjv))
      · exact .inr (.inr ⟨j, hj, by omega, rfl⟩)
  · -- the entry itself and its hidden dependencies, below order `n`
    have hjN : j < d.functionsEnd := by
      rcases hj with rfl | hj
      · exact hhi
      · exact (hwf.hidden_entry i hlo hhi j hj).2.1
    exact .inl (.inr (cell_lt_mul hjN hk))

include hout in
/-- Within an order, every read is of a cell known before it, of the prefix, or of an entry
of lower index. -/
theorem causal_orderUpdates (n : Nat) : Causal (d.KnownBefore n) (d.orderUpdates pars t n) := by
  refine causal_append.2 ⟨causal_prefixUpdates hwf pars n, ?_⟩
  refine causal_map_of_pairwise (pairwise_lt_functions d) _ fun i hi c hc => ?_
  rcases entryReads_cases hwf hout pars hi hc with hk | hp | ⟨j, hj, hjp, rfl⟩
  · exact .inl (.inl hk)
  · exact .inl (.inr hp)
  · obtain ⟨hlo, hhi⟩ := mem_functions.1 hi
    have hji : j < i := (hwf.function_entry i hlo hhi).refsBelow.lt_of_mem_refs hj
    exact .inr ⟨j, mem_functions.2 ⟨hjp, by omega⟩, by omega, by omega, rfl⟩

include hout in
/-- A cell known before order `n` is given or written by an order below. -/
theorem knownBefore_written {n c : Nat} (hc : d.KnownBefore n c) :
    c < d.varNames.length ∨ ∃ k < n, c ∈ (d.orderUpdates pars t k).map Update.cell := by
  rcases hc with hc | hc
  · exact .inl hc
  · by_cases hv : c < d.varNames.length
    · exact .inl hv
    · have hN : 0 < d.functionsEnd := Nat.pos_of_ne_zero fun h => by simp [h] at hc
      refine .inr ⟨c / d.functionsEnd, Nat.div_lt_of_lt_mul (by rwa [Nat.mul_comm] at hc), ?_⟩
      rw [cells_orderUpdates hwf hout, List.mem_range'_1]
      have h₁ := Nat.div_add_mod c d.functionsEnd
      have h₂ := Nat.mod_lt c hN
      rw [Nat.mul_comm] at h₁
      by_cases h0 : c / d.functionsEnd = 0
      · simp only [given, h0, if_true, Nat.zero_mul, Nat.zero_add] at h₁ ⊢
        omega
      · simp only [given, h0, if_false]
        omega

include hout in
/-- Every read of the reference evaluation is of a given order-0 state cell or of a cell that
an update before it writes. -/
theorem causal_reference (p : Nat) :
    Causal (· < d.varNames.length) (d.referenceUpdates p pars t) :=
  causal_flatMap_range d.KnownBefore (fun _ _ hc => knownBefore_written hwf hout pars t hc) (p + 1)
    fun n _ => causal_orderUpdates hwf hout pars t n

end Cells

end Decomposition

end TaylorOde
