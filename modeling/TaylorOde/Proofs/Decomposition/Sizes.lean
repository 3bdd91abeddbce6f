import TaylorOde.Proofs.Decomposition.Pipeline
import TaylorOde.Ir.Emit
/-!
# The sizes of a decomposition

Code compiled from a decomposition indexes the tape by entry, so its layout rests on a few
counts: the prefix holds the variables and the parameters, then come the function entries,
then one output per expression. A table has room for its layout (`Roomy`) when the prefix and
the outputs fit in it; the function range then starts after the prefix and the outputs end
the table.

Unlike well-formedness, room asks nothing of the expressions: every raw table has it
(`ofPrepared_roomy`), and every pass keeps it along with the variables and the number of
outputs (`cse_roomy`, `dce_roomy`, `reorder_roomy`). Hence a decomposition of a system with
extra expressions has one output per right-hand side and per extra expression, its
variables in state order in front (`ofSystem_roomy`), and code emitted from it counts its
entries up to the outputs (`emit_dims`).
-/

namespace TaylorOde

namespace Decomposition

open TaylorOde.Expr

/-- A table has room for its prefix and its outputs. -/
def Roomy (d : Decomposition) : Prop := d.nPrefix + d.nOutputs ≤ d.size

variable {d : Decomposition}

/-- In a table with room, the function range starts after the prefix and the outputs fill the
rest. -/
theorem Roomy.bounds (h : d.Roomy) :
    d.nPrefix ≤ d.functionsEnd ∧ d.functionsEnd + d.nOutputs = d.size := by
  unfold Roomy at h
  unfold Decomposition.functionsEnd
  simp only [size] at h ⊢
  omega

/-- A table with room lists one output reference per output. -/
theorem Roomy.length_outputRefs (h : d.Roomy) : d.outputRefs.length = d.nOutputs := by
  obtain ⟨-, hfe⟩ := h.bounds
  simp only [outputRefs, outputs, List.length_map, List.length_drop, Array.length_toList]
  simp only [size] at hfe
  omega

/-! ## The raw table -/

namespace Builder

variable {b b' : Builder} {x : Expr}

theorem extends_push {rhs : Expr} {hidden : List Nat} : Extends b (b.push rhs hidden).1 := by
  refine ⟨by simp [push], fun j hj => ?_⟩
  simp only [push]
  rw [Array.getElem?_push_lt hj, Array.getElem?_eq_getElem hj]

theorem lowerArgs_extends {args : List Expr}
    (ih : ∀ a ∈ args, ∀ (b b' : Builder) (x : Expr), (lower a).run b = .ok (x, b') →
      Extends b b') :
    ∀ (b b' : Builder) (xs : List Expr), (args.mapM lower).run b = .ok (xs, b') →
      Extends b b' := by
  induction args with
  | nil =>
    intro b b' xs h
    obtain ⟨rfl, rfl⟩ := run_mapM_nil.1 h
    exact Extends.refl _
  | cons a args iha =>
    intro b b' xs h
    obtain ⟨x, b₁, xs', ha, hrest, rfl⟩ := run_mapM_cons.1 h
    exact (ih a List.mem_cons_self b b₁ x ha).trans
      (iha (fun a' ha' => ih a' (List.mem_cons_of_mem _ ha')) b₁ b' xs' hrest)

/-- Lowering only appends entries, whatever the expression. -/
theorem lower_extends (e : Expr) : ∀ (b b' : Builder) (x : Expr), (lower e).run b = .ok (x, b') →
    Extends b b' := by
  induction e using Expr.recArgs with
  | num n =>
    intro b b' x h
    obtain ⟨-, rfl⟩ := lower_num_run.1 h
    exact Extends.refl _
  | var v =>
    intro b b' x h
    obtain ⟨_, -, -, rfl⟩ := lower_var_run.1 h
    exact Extends.refl _
  | param p =>
    intro b b' x h
    obtain ⟨_, -, -, rfl⟩ := lower_param_run.1 h
    exact Extends.refl _
  | time =>
    intro b b' x h
    rcases lower_time_run.1 h with ⟨-, rfl⟩ | ⟨-, -, rfl⟩
    · exact Extends.refl _
    · exact extends_push
  | func t op args hh ih =>
    intro b b' x h
    rcases lower_func_run.1 h with ⟨-, rfl⟩ | ⟨-, xs, b₁, hargs, -, rfl⟩
    · exact Extends.refl _
    · exact (lowerArgs_extends ih b b₁ xs hargs).trans extends_append

end Builder

open Decomposition.Builder in
/-- The raw table holds the variables and the parameters, then the entries of the nodes, then
one output per prepared expression. -/
theorem ofPrepared_roomy {names : List String} {prepared : List Expr}
    (h : ofPrepared names prepared = .ok d) :
    d.varNames = names ∧ d.nOutputs = prepared.length ∧ d.Roomy := by
  obtain ⟨refs, b, hrun, rfl⟩ := ofPrepared_eq_ok.1 h
  have hext : Extends (start names (paramsOf prepared)) b :=
    lowerArgs_extends (fun a _ => lower_extends a) _ _ _ hrun
  have hstart : (start names (paramsOf prepared)).entries.size =
      names.length + (paramsOf prepared).length := start_size
  have hlen := run_mapM_length hrun
  refine ⟨rfl, rfl, ?_⟩
  have := hext.1
  simp only [Roomy, nPrefix, size, Array.size_append, List.size_toArray, List.length_map, hlen]
  omega

/-! ## The passes -/

/-- A step of `cse` keeps a prefix entry and an output. -/
theorem cseStep_out_size (acc : CseState) (i : Nat) :
    acc.2.1.size + (if i < d.nPrefix ∨ d.functionsEnd ≤ i then 1 else 0) ≤
      (d.cseStep acc i).2.1.size := by
  obtain ⟨remap, out, seen⟩ := acc
  by_cases hp : i < d.nPrefix
  · simp [cseStep, hp]
  by_cases hf : d.functionsEnd ≤ i
  · simp [cseStep, hp, hf]
  simp only [cseStep, hp, hf, if_false, or_self, Nat.add_zero]
  split <;> simp

/-- `cse` keeps the prefix and the outputs. -/
theorem cse_size_ge (hnp : d.nPrefix ≤ d.functionsEnd) :
    min d.size d.nPrefix + (d.size - d.functionsEnd) ≤ (cse d).size := by
  -- the walk has kept every prefix entry and every output it has passed
  have hwalk := foldl_range_induction d.cseStep 0 d.size
    (fun m s => min m d.nPrefix + (m - d.functionsEnd) ≤ s.2.1.size)
    (s := (Array.replicate d.size 0, #[], {})) (by simp) fun m t _ ht => by
      rw [Nat.zero_add]
      have hstep := cseStep_out_size (d := d) t m
      by_cases hp : m < d.nPrefix <;> by_cases hf : d.functionsEnd ≤ m <;>
        simp only [hp, hf, or_true, or_false, if_true, if_false] at hstep <;>
        omega
  simp only [Nat.zero_add, List.map_id_fun', id_eq] at hwalk
  simpa [cse, size] using hwalk

theorem cse_roomy (h : d.Roomy) : (cse d).Roomy := by
  obtain ⟨hnp, hfe⟩ := h.bounds
  have hge := cse_size_ge hnp
  unfold Roomy at h ⊢
  have : (cse d).nPrefix = d.nPrefix := rfl
  have : (cse d).nOutputs = d.nOutputs := rfl
  omega

theorem dce_roomy (h : d.Roomy) : d.dce.Roomy := by
  obtain ⟨hnp, hfe⟩ := h.bounds
  have hL := liveSet_inv hnp
  let q := fun j : Nat => d.liveSet[j]?.getD false
  have hpre : ∀ j < d.nPrefix, q j = true := fun j hj => by
    simp [q, hL.prefix_live j hj]
  have hout : ∀ j, d.functionsEnd ≤ j → j < d.functionsEnd + d.nOutputs → q j = true :=
    fun j hlo hhi => by simp [q, hL.output_live j hlo (by omega)]
  -- the prefix and the outputs are live, so they are kept
  have hkept : d.nPrefix + d.nOutputs ≤ (List.range d.size).countP q :=
    calc d.nPrefix + d.nOutputs = (List.range d.nPrefix).countP q + d.nOutputs := by
          rw [countP_range_of_all hpre]
      _ ≤ (List.range d.functionsEnd).countP q + d.nOutputs :=
          Nat.add_le_add_right (countP_range_mono hnp) _
      _ = (List.range (d.functionsEnd + d.nOutputs)).countP q :=
          (countP_range_add_of_all hout).symm
      _ = (List.range d.size).countP q := by rw [hfe]
  unfold Roomy
  rw [dce_size, ← List.countP_eq_length_filter]
  exact hkept

theorem foldl_place_size (l : List Nat) (acc : Array Nat × Array Nat) :
    (l.foldl place acc).2.size = acc.2.size + l.length := by
  induction l generalizing acc with
  | nil => rfl
  | cons i l ih =>
    rw [List.foldl_cons, ih]
    simp only [place, Array.size_push, List.length_cons]
    omega

theorem foldl_reorderLevel_size (levels : Array Nat) (L : List Nat)
    (acc : Array Nat × Array Nat) :
    acc.2.size ≤ (L.foldl (d.reorderLevel levels) acc).2.size := by
  induction L generalizing acc with
  | nil => exact Nat.le_refl _
  | cons ℓ L ih =>
    rw [List.foldl_cons]
    refine Nat.le_trans ?_ (ih _)
    simp only [reorderLevel, foldl_place_size]
    omega

/-- `reorder` starts from the prefix and places every output. -/
theorem reorder_size_ge : d.nPrefix + (d.size - d.functionsEnd) ≤ d.reorder.size := by
  unfold reorder
  simp only [size, Array.size_map, foldl_place_size, List.length_drop, List.length_range]
  have hlevels := foldl_reorderLevel_size (d := d) d.levels
    (List.range (d.functions.foldl (fun m i => m.max (d.levels[i]?.getD 0)) 0 + 1))
    (Array.range d.entries.size, Array.range d.nPrefix)
  simp only [Array.size_range] at hlevels
  omega

theorem reorder_roomy (h : d.Roomy) : d.reorder.Roomy := by
  have hge := reorder_size_ge (d := d)
  obtain ⟨-, hfe⟩ := h.bounds
  unfold Roomy at h ⊢
  have : d.reorder.nPrefix = d.nPrefix := rfl
  have : d.reorder.nOutputs = d.nOutputs := rfl
  omega

/-- Every combination of passes keeps the variables, the number of outputs and the room. -/
theorem runPasses_roomy (h : d.Roomy) (merge order : Bool) :
    (runPasses merge order d).varNames = d.varNames ∧
      (runPasses merge order d).nOutputs = d.nOutputs ∧ (runPasses merge order d).Roomy := by
  cases merge <;> cases order
  · exact ⟨rfl, rfl, h⟩
  · exact ⟨rfl, rfl, reorder_roomy h⟩
  · exact ⟨rfl, rfl, dce_roomy (cse_roomy h)⟩
  · exact ⟨rfl, rfl, reorder_roomy (dce_roomy (cse_roomy h))⟩

/-! ## Builds -/

/-- A build with sums of at least two terms gives a table with room, its variables in front
and one output per expression. -/
theorem build_roomy {names : List String} {outputs : List Expr} {opts : DecomposeOptions}
    (hsplit : 2 ≤ opts.sumSplit) (h : build names outputs opts = .ok d) :
    d.varNames = names ∧ d.nOutputs = outputs.length ∧ d.Roomy := by
  rw [build_eq hsplit] at h
  cases hraw : ofPrepared names (preparedOf opts.sumSplit outputs) with
  | error e =>
    rw [hraw] at h
    cases h
  | ok d₀ =>
    rw [hraw] at h
    cases h
    obtain ⟨hvars, houts, hroom⟩ := ofPrepared_roomy hraw
    obtain ⟨hvars', houts', hroom'⟩ := runPasses_roomy hroom opts.cse opts.reorder
    refine ⟨hvars'.trans hvars, ?_, hroom'⟩
    rw [houts', houts]
    simp [preparedOf]

/-- The decomposition of a system with extra expressions has room, the state variables in
front and one output per right-hand side and per extra expression. -/
theorem ofSystem_roomy {sys : OdeSystem} {extra : List Expr} {opts : DecomposeOptions}
    (hsplit : 2 ≤ opts.sumSplit) (h : ofSystem sys extra opts = .ok d) :
    d.varNames = sys.state ∧ d.nOutputs = sys.rhs.length + extra.length ∧ d.Roomy := by
  obtain ⟨hvars, houts, hroom⟩ := build_roomy hsplit (ofSystem_ok h).2
  exact ⟨hvars, by rw [houts, List.length_append], hroom⟩

/-- Emitted code computes the orders it was asked for, over the entries before the outputs. -/
theorem emit_dims {kind : FloatKind} {order : Nat} {compact : Bool} {ir : IrModule}
    (h : d.emit kind order compact = .ok ir) :
    ir.order = order ∧ ir.nEntries = d.functionsEnd := by
  unfold emit at h
  simp only [bind, Except.bind] at h
  split at h
  · cases h
  split at h
  · cases h
  split at h
  · cases h
  · split at h
    · cases h
    · cases h
      exact ⟨rfl, rfl⟩

end Decomposition

end TaylorOde
