import TaylorOde.Proofs.Ir.Emission
import Mathlib
/-!
# Emitted code computes the reference coefficients

A module that `emit` builds from a well-formed decomposition with at most one time entry
performs, order after order, the updates of the reference evaluation: in scalar mode in the
reference order, in compact mode rearranged within each order (`moduleUpdates_perm`). Both
orders are causal from the order-0 state cells (`causal_moduleUpdates`), and the updates write
the cells `nVars, …, (order + 1) N - 1`, each once (`cells_moduleUpdates_perm`). Then:

* the module leaves the tape that the reference evaluation leaves, for every tape, parameters
  and time (`emitted_run_eq_reference`): two causal orders of the same updates, each cell
  written once and none given, agree (`Tape.applyAll_perm`);
* a run reads only order-0 state cells or cells written before in the same run, writes every
  other cell of the orders `0 … order` once and nothing else, and so gives one output tape for
  all input tapes that agree on the order-0 state cells (`emitted_tape_discipline`).

Decompositions of ODE systems are well formed with one time entry at most
(`ofSystem_timeUnique`), so both statements hold of every module emitted from one.
-/

namespace TaylorOde

namespace Decomposition

open Tape IrModule TaylorOde.Expr

variable {α : Type} [Scalar α] {d : Decomposition}

section Updates

variable (hwf : d.WellFormed) (ht : d.TimeUnique)
include hwf ht

/-- A module performs the updates of the reference evaluation, rearranged within each order in
compact mode. -/
theorem moduleUpdates_perm (compact : Bool) (pars : Array α) (t : α) (order : Nat) :
    (d.moduleUpdates compact pars t order).Perm (d.referenceUpdates order pars t) := by
  unfold moduleUpdates referenceUpdates
  cases compact with
  | false => exact List.Perm.refl _
  | true => exact List.Perm.flatMap_left _ fun n _ => compactUpdates_perm hwf ht pars t n

/-- Every update a module performs reads only the cells it names. -/
theorem moduleUpdates_sound (compact : Bool) (pars : Array α) (t : α) (order : Nat) :
    ∀ u ∈ d.moduleUpdates compact pars t order, u.Sound := by
  intro u hu
  have hu' := (moduleUpdates_perm hwf ht compact pars t order).subset hu
  rw [referenceUpdates, List.mem_flatMap] at hu'
  obtain ⟨n, -, hn⟩ := hu'
  exact orderUpdates_sound pars t n u hn

variable (hout : d.varNames.length ≤ d.nOutputs)
include hout

/-- A module writes the cells `nVars, nVars + 1, …, (order + 1) N - 1`, each once. -/
theorem cells_moduleUpdates_perm (compact : Bool) (pars : Array α) (t : α) (order : Nat) :
    ((d.moduleUpdates compact pars t order).map Update.cell).Perm
      (List.range' d.varNames.length ((order + 1) * d.functionsEnd - d.varNames.length)) := by
  rw [← cells_reference hwf hout pars t order]
  exact (moduleUpdates_perm hwf ht compact pars t order).map _

/-- Every read of the updates of a module, in either mode, is of an order-0 state cell or of a
cell that an update before it writes. -/
theorem causal_moduleUpdates (compact : Bool) (pars : Array α) (t : α) (order : Nat) :
    Causal (· < d.varNames.length) (d.moduleUpdates compact pars t order) := by
  refine causal_flatMap_range d.KnownBefore (fun n c hc => ?_) (order + 1) fun n _ => ?_
  · -- a cell known before order `n` is given, or written by an order below in either mode
    rcases knownBefore_written hwf hout pars t hc with hv | ⟨k, hk, hmem⟩
    · exact .inl hv
    · refine .inr ⟨k, hk, ?_⟩
      cases compact with
      | false => exact hmem
      | true => exact ((compactUpdates_perm hwf ht pars t k).map Update.cell).mem_iff.2 hmem
  · cases compact with
    | false => exact causal_orderUpdates hwf hout pars t n
    | true => exact causal_compactUpdates hwf ht hout pars t n

/-- The cells a module writes are no order-0 state cells and are written once each. -/
theorem cells_moduleUpdates (compact : Bool) (pars : Array α) (t : α) (order : Nat) :
    ((d.moduleUpdates compact pars t order).map Update.cell).Nodup ∧
      ∀ u ∈ d.moduleUpdates compact pars t order, ¬u.cell < d.varNames.length := by
  have hperm := cells_moduleUpdates_perm hwf ht hout compact pars t order
  refine ⟨hperm.nodup_iff.2 List.nodup_range', fun u hu hlt => ?_⟩
  have hmem := hperm.subset (List.mem_map_of_mem hu)
  rw [List.mem_range'_1] at hmem
  omega

end Updates

/-! ## The module and the reference evaluation -/

/-- The module emitted from a decomposition of an ODE system, in either mode, for any order and
scalar format, leaves on every tape, with any parameters and time, the tape that the reference
evaluation leaves. Decompositions of ODE systems are well formed with one time entry at most,
the decompositions for which this holds. -/
theorem emitted_run_eq_reference :
    (∀ (eqs : List (Expr × Expr)) (sys : OdeSystem) (extra : List Expr) (opts : DecomposeOptions)
      (N : List Expr) (d : Decomposition),
      OdeSystem.ofEquations eqs = .ok sys → WellTagged (sys.rhs ++ extra) →
      (∀ e ∈ sys.rhs ++ extra, ∀ n, Occurs n e → n.op?.isSome → n ∈ N) →
      sys.state.length + (sys.rhs ++ extra).length * (25 * nodeWeight N + 1) + 2 ^ 33 ≤ 2 ^ 64 →
      ofSystem sys extra opts = .ok d → d.WellFormed ∧ d.TimeUnique) ∧
    ∀ (d : Decomposition) (kind : FloatKind) (order : Nat) (compact : Bool) (m : IrModule),
      d.WellFormed → d.TimeUnique → d.emit kind order compact = .ok m →
      ∀ (tape pars : Array α) (t : α), m.run tape pars t = d.reference order tape pars t := by
  refine ⟨fun eqs sys extra opts N d hsys htag hN hroom h =>
    ofSystem_timeUnique hsys htag hN hroom h, fun d kind order compact m hwf ht h tape pars t => ?_⟩
  obtain ⟨hout, -⟩ := emit_eq_ok h
  obtain ⟨hnodup, hgiven⟩ := cells_moduleUpdates hwf ht hout compact pars t order
  rw [(emit_performs h pars t).1, reference]
  -- two causal orders of the same updates, each cell written once and none given
  exact applyAll_perm (moduleUpdates_perm hwf ht compact pars t order) hnodup hgiven
    (moduleUpdates_sound hwf ht compact pars t order)
    (causal_moduleUpdates hwf ht hout compact pars t order)
    (causal_reference hwf hout pars t order) tape

/-! ## How a run uses the tape -/

/-- A run of the module emitted from a decomposition of an ODE system, in either mode and for any
order, reads only order-0 state cells and cells it wrote before, writes every other cell of the
orders `0 … order` once and no other cell, and so leaves one tape for all tapes of those orders
that agree on the order-0 state cells, whatever the scalars, parameters and time. Decompositions
of ODE systems are well formed with one time entry at most, the decompositions for which this
holds. -/
theorem emitted_tape_discipline :
    (∀ (eqs : List (Expr × Expr)) (sys : OdeSystem) (extra : List Expr) (opts : DecomposeOptions)
      (N : List Expr) (d : Decomposition),
      OdeSystem.ofEquations eqs = .ok sys → WellTagged (sys.rhs ++ extra) →
      (∀ e ∈ sys.rhs ++ extra, ∀ n, Occurs n e → n.op?.isSome → n ∈ N) →
      sys.state.length + (sys.rhs ++ extra).length * (25 * nodeWeight N + 1) + 2 ^ 33 ≤ 2 ^ 64 →
      ofSystem sys extra opts = .ok d → d.WellFormed ∧ d.TimeUnique) ∧
    ∀ (d : Decomposition) (kind : FloatKind) (order : Nat) (compact : Bool) (m : IrModule),
      d.WellFormed → d.TimeUnique → d.emit kind order compact = .ok m →
      (∀ pre c post, m.accesses = pre ++ Access.read c :: post →
        c < d.varNames.length ∨ Access.write c ∈ pre) ∧
      (∀ c, m.accesses.count (Access.write c) =
        if d.varNames.length ≤ c ∧ c < (order + 1) * d.functionsEnd then 1 else 0) ∧
      ∀ (tape tape' pars : Array α) (t : α), tape.size = (order + 1) * d.functionsEnd →
        tape'.size = tape.size → (∀ c < d.varNames.length, tape[c]? = tape'[c]?) →
        m.run tape pars t = m.run tape' pars t := by
  refine ⟨fun eqs sys extra opts N d hsys htag hN hroom h =>
    ofSystem_timeUnique hsys htag hN hroom h, fun d kind order compact m hwf ht h => ?_⟩
  obtain ⟨hout, -⟩ := emit_eq_ok h
  have hle : d.varNames.length ≤ (order + 1) * d.functionsEnd := by
    have := hwf.nPrefix_le_functionsEnd
    unfold nPrefix at this
    exact le_trans (by omega) (Nat.le_mul_of_pos_left _ (Nat.succ_pos order))
  -- the accesses do not depend on the scalars: read them off the updates at no parameters
  have htrace := (emit_performs h (#[] : Array α) Scalar.zero).2
  have hcells := cells_moduleUpdates_perm hwf ht hout compact (#[] : Array α) Scalar.zero order
  refine ⟨fun pre c post hacc => htrace.read_written
    (causal_moduleUpdates hwf ht hout compact #[] Scalar.zero order) hacc, fun c => ?_,
    fun tape tape' pars t hsize hsize' hstate => ?_⟩
  · rw [htrace.count_write c, hcells.count_eq c]
    split_ifs with hc
    · exact List.count_eq_one_of_mem List.nodup_range' (List.mem_range'_1.2 (by omega))
    · refine List.count_eq_zero_of_not_mem fun hmem => hc ?_
      rw [List.mem_range'_1] at hmem
      omega
  · -- every cell of the tape is a given state cell or a written one
    rw [(emit_performs h pars t).1, (emit_performs h pars t).1]
    refine Array.ext_getElem? fun c => ?_
    by_cases hc : c < tape.size
    · refine applyAll_congr (moduleUpdates_sound hwf ht compact pars t order)
        (causal_moduleUpdates hwf ht hout compact pars t order) hsize'.symm hstate c ?_
      by_cases hv : c < d.varNames.length
      · exact .inl hv
      · refine .inr ((cells_moduleUpdates_perm hwf ht hout compact pars t order).mem_iff.2 ?_)
        rw [List.mem_range'_1]
        omega
    · rw [Array.getElem?_eq_none (by rw [size_applyAll]; omega),
        Array.getElem?_eq_none (by rw [size_applyAll]; omega)]

/-! ## The decomposition of `x' = t x` -/

/-- The decomposition of `x' = t · x`: the state `x`, the time, their product, and the output
naming the product. -/
def timeProduct : Decomposition where
  entries := #[⟨.var "x", []⟩, ⟨.time, []⟩, ⟨.func .anon .mul [Expr.elem 1, Expr.elem 0] 0, []⟩,
    ⟨Expr.elem 2, []⟩]
  varNames := ["x"]
  params := []
  nOutputs := 1

/-- One state variable, no parameters, function entries `1` and `2`, and one output. -/
theorem timeProduct_layout :
    timeProduct.nPrefix = 1 ∧ timeProduct.functionsEnd = 3 ∧ timeProduct.size = 4 :=
  ⟨rfl, rfl, rfl⟩

theorem timeProduct_wellFormed : timeProduct.WellFormed where
  size_le := by decide
  plain_names := by decide +kernel
  var_entry k hk := by
    obtain rfl : k = 0 := by simpa [timeProduct] using hk
    rfl
  param_entry k hk := absurd hk (Nat.not_lt_zero k)
  function_entry i hlo hhi := by
    obtain rfl | rfl : i = 1 ∨ i = 2 := by
      rw [timeProduct_layout.1] at hlo
      rw [timeProduct_layout.2.1] at hhi
      omega
    · trivial
    · -- the product of the time and the state, both entries before it
      show ∀ a ∈ [Expr.elem 1, Expr.elem 0], ArgOk 2 a
      intro a ha
      rcases List.mem_pair.1 ha with rfl | rfl
      · exact .inl ⟨1, by decide +kernel, by omega⟩
      · exact .inl ⟨0, by decide +kernel, by omega⟩
  hidden_entry i hlo hhi h hh := by
    obtain rfl | rfl : i = 1 ∨ i = 2 := by
      rw [timeProduct_layout.1] at hlo
      rw [timeProduct_layout.2.1] at hhi
      omega
    all_goals cases hh
  output_entry i hlo hhi := by
    obtain rfl : i = 3 := by
      rw [timeProduct_layout.2.1] at hlo
      rw [timeProduct_layout.2.2] at hhi
      omega
    exact .inl ⟨2, by decide +kernel, by decide⟩

theorem timeProduct_timeUnique : timeProduct.TimeUnique := by
  -- the only function entry standing for the time is the first
  have key : ∀ k ∈ timeProduct.functions, (timeProduct.entry k).rhs = .time → k = 1 := by
    intro k hk hrhs
    obtain rfl | rfl : k = 1 ∨ k = 2 := by
      rw [mem_functions, timeProduct_layout.1, timeProduct_layout.2.1] at hk
      omega
    · rfl
    · cases hrhs
  intro i j hi hj hti htj
  rw [key i hi hti, key j hj htj]

/-- `x' = t · x` compiles to IR for binary64 scalars up to order two, in either mode. -/
theorem timeProduct_emit (compact : Bool) :
    ∃ m, timeProduct.emit .binary64 2 compact = .ok m := by
  have hok : (timeProduct.emit .binary64 2 compact).isOk = true := by
    cases compact <;> decide +kernel
  cases hm : timeProduct.emit .binary64 2 compact with
  | ok m => exact ⟨m, rfl⟩
  | error e =>
    rw [hm] at hok
    cases hok

/-- Up to order two, both modules of `x' = t · x` leave the tape of the reference evaluation in
binary64. -/
theorem timeProduct_run_eq_reference :
    timeProduct.WellFormed ∧ timeProduct.TimeUnique ∧
      ∀ compact, ∃ m, timeProduct.emit .binary64 2 compact = .ok m ∧
        ∀ (tape pars : Array Float) (t : Float),
          m.run tape pars t = timeProduct.reference 2 tape pars t := by
  refine ⟨timeProduct_wellFormed, timeProduct_timeUnique, fun compact => ?_⟩
  obtain ⟨m, hm⟩ := timeProduct_emit compact
  exact ⟨m, hm, emitted_run_eq_reference.2 _ _ _ _ m timeProduct_wellFormed
    timeProduct_timeUnique hm⟩

/-- Up to order two, both modules of `x' = t · x` read only the state cell and cells written
before, write the other eight cells of the tape once each, and leave one tape in binary64 for
all tapes that agree on the state cell. -/
theorem timeProduct_tape_discipline :
    timeProduct.WellFormed ∧ timeProduct.TimeUnique ∧
      ∀ compact, ∃ m, timeProduct.emit .binary64 2 compact = .ok m ∧
        (∀ pre c post, m.accesses = pre ++ Access.read c :: post →
          c < timeProduct.varNames.length ∨ Access.write c ∈ pre) ∧
        (∀ c, m.accesses.count (Access.write c) =
          if timeProduct.varNames.length ≤ c ∧ c < (2 + 1) * timeProduct.functionsEnd then 1
          else 0) ∧
        ∀ (tape tape' pars : Array Float) (t : Float),
          tape.size = (2 + 1) * timeProduct.functionsEnd → tape'.size = tape.size →
          (∀ c < timeProduct.varNames.length, tape[c]? = tape'[c]?) →
          m.run tape pars t = m.run tape' pars t := by
  refine ⟨timeProduct_wellFormed, timeProduct_timeUnique, fun compact => ?_⟩
  obtain ⟨m, hm⟩ := timeProduct_emit compact
  exact ⟨m, hm, emitted_tape_discipline.2 _ _ _ _ m timeProduct_wellFormed
    timeProduct_timeUnique hm⟩

end Decomposition

end TaylorOde
