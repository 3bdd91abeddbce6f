import TaylorOde.Proofs.Ir.Kernels
import TaylorOde.Proofs.Integrator.Shape
import Mathlib
/-!
# What an emitted module computes

`emit` writes, for each order `n`, a straight block and, in compact mode, the kernels of the
order. The straight block stores the prefix (`emitPrefix`) first: the state coefficients above
order 0, each the output one order below scaled by `1/n` or a literal's coefficient, then the
parameters, their values at order 0 and zero above. Each store is one update of the tape, and
`emitPrefix_performs` says the prefix block performs `prefixUpdates`, the prefix of the
reference evaluation. After it come the function entries, each one store:
`emitEntry_performs` says the store of an entry performs its update, and `straight_performs` that
the straight block performs the prefix and then its entries' updates. Last, `emit_eq_ok` takes an
emitted module apart into the blocks of each order (`orderBlocks`), and `orderBlocks_performs`
says the blocks of an order perform its updates, in the reference order or the compact one; so
an emitted module runs as those updates, order after order (`emit_performs`).
-/

namespace TaylorOde

/-- A loop that appends to an array what each item computes, stopping at the first failure,
ends with the array followed by every item's part. -/
theorem forIn_append_eq {δ β ε : Type} {g : δ → Except ε (List β)}
    {f : δ → Array β → Except ε (ForInStep (Array β))}
    (hf : ∀ a acc, f a acc = (fun bs => ForInStep.yield (acc ++ bs.toArray)) <$> g a) :
    ∀ {l : List δ} {acc r : Array β}, forIn l acc f = .ok r →
      ∃ bss, List.Forall₂ (fun a bs => g a = .ok bs) l bss ∧ r = acc ++ bss.flatten.toArray
  | [], acc, r, h => by
    refine ⟨[], .nil, ?_⟩
    cases h
    simp
  | a :: l, acc, r, h => by
    rw [List.forIn_cons, hf] at h
    cases hg : g a with
    | error e =>
      rw [hg] at h
      cases h
    | ok bs =>
      rw [hg] at h
      obtain ⟨bss, hbss, rfl⟩ := forIn_append_eq hf h
      exact ⟨bs :: bss, .cons hg hbss, by simp⟩

namespace Decomposition

open Tape CodeBuilder IrModule

variable {α : Type} [Scalar α] {d : Decomposition}

/-! ## Stores -/

section Stores

variable {env : RunEnv α}

theorem run_bind_pure_fst {β γ : Type} (x : StateM CodeBuilder β) (r : γ) (b : CodeBuilder) :
    ((x >>= fun _ => pure r).run b).1 = r := rfl

/-- A program followed by a result performs what the program does. -/
theorem Performs.bind_pure {β γ : Type} {x : StateM CodeBuilder β} {us : List (Update α)}
    (h : Performs env x us) (r : γ) : Performs env (x >>= fun _ => pure r) us := by
  have h' := h.bind (f := fun _ => pure r) fun _ => Performs.pure r
  rwa [List.append_nil] at h'

/-- A store that ends a step of a loop performs its update, and the loop goes on. -/
theorem performs_store_yield {P : Operand × Nat → Prop} {x : StateM CodeBuilder Nat}
    {u : Update α} {s : Slot} {k : Nat}
    (hx : ∀ start T, Builds env start P T #[] x (u.value T) (Defines env start))
    (hP : ∀ s' k' c, P (.coeff s', k') → cell env.n env.row s' k' = some c → u.reads c)
    (hcell : cell env.n env.row s k = some u.cell) :
    Performs env ((x >>= fun v => store s k v) >>= fun _ => pure (ForInStep.yield PUnit.unit)) [u] :=
  Performs.bind_pure (performs_store hx hP hcell) _

/-- A store of a value that loads nothing from the tape, the same on every tape. -/
theorem performs_store_fixed {x : StateM CodeBuilder Nat} {u : Update α} {s : Slot} {k : Nat}
    {v : α} (hv : ∀ T, u.value T = v)
    (hx : ∀ start T, Builds env start (fun _ => False) T #[] x v (Defines env start))
    (hcell : cell env.n env.row s k = some u.cell) :
    Performs env (x >>= fun v => store s k v) [u] :=
  performs_store (fun start T => hv T ▸ hx start T) (fun _ _ _ h => h.elim) hcell

/-- The same store ending a step of a loop. -/
theorem performs_store_fixed_yield {x : StateM CodeBuilder Nat} {u : Update α} {s : Slot}
    {k : Nat} {v : α} (hv : ∀ T, u.value T = v)
    (hx : ∀ start T, Builds env start (fun _ => False) T #[] x v (Defines env start))
    (hcell : cell env.n env.row s k = some u.cell) :
    Performs env ((x >>= fun v => store s k v) >>= fun _ => pure (ForInStep.yield PUnit.unit)) [u] :=
  Performs.bind_pure (performs_store_fixed hv hx hcell) _

/-- A loop whose steps each perform one update performs them in order. -/
theorem Performs.forIn_map {δ : Type} {l : List δ}
    {f : δ → PUnit → StateM CodeBuilder (ForInStep PUnit)} {u : δ → Update α}
    (hf : ∀ a ∈ l, Performs env (f a ⟨⟩) [u a]) (hy : ∀ a ∈ l, ∀ b, ((f a ⟨⟩).run b).1 = .yield ⟨⟩) :
    Performs env (forIn l ⟨⟩ f) (l.map u) := by
  rw [List.map_eq_flatMap]
  exact Performs.forIn hf hy

/-- A step taken only when `p` holds, before a program always run. -/
theorem Performs.ite_bind {β γ : Type} {p : Prop} [Decidable p] {x : StateM CodeBuilder β}
    {y : StateM CodeBuilder γ} {us vs : List (Update α)} (hx : p → Performs env x us)
    (hy : Performs env y vs) :
    Performs env (if p then x >>= fun _ => y else y) ((if p then us else []) ++ vs) := by
  by_cases hp : p
  · rw [if_pos hp, if_pos hp]
    exact (hx hp).bind fun _ => hy
  · rw [if_neg hp, if_neg hp]
    exact hy

end Stores

/-! ## The prefix -/

section Prefix

variable {env : RunEnv α}

/-- The state coefficient of order `n > 0` from an output entry: the entry's coefficient one
order below, scaled by the constant `1/n`. -/
theorem builds_state (j k n : Nat) (start T : Array α) :
    Builds env start (ReadsIn env.n env.row fun c => c = (n - 1) * env.n + j) T #[]
      (do
        let prev ← CodeBuilder.ops.load (.coeff (.fixed j)) (n - 1)
        let inv ← CodeBuilder.ops.constant (.inv n)
        CodeBuilder.ops.binary .mul inv prev)
      ((stateUpdate env.n (.entry j) k n : Update α).value T) (Defines env start) := by
  have hload : ReadsIn env.n env.row (fun c => c = (n - 1) * env.n + j)
      (.coeff (.fixed j), n - 1) := by
    intro c hc
    simp only [cell, resolve, Option.map_some, Option.some.injEq] at hc
    exact hc.symm
  exact (builds_load hload).bind fun _ _ _ _ hprev =>
    (builds_constantOf (.inv n)).bind fun _ hc _ _ hinv =>
      builds_binary .mul hinv (Defines.mono hc hprev)

/-- The prefix of order `n` stores the state coefficients above order 0, then the parameters. -/
theorem emitPrefix_performs (pars : Array α) (t : α) (n : Nat) :
    Performs ⟨d.functionsEnd, none, pars, t⟩ (d.emitPrefix d.outputRefs n)
      (d.prefixUpdates pars n) := by
  unfold emitPrefix prefixUpdates
  dsimp only
  refine Performs.ite_bind (fun _ => Performs.forIn_map (fun ⟨out, k⟩ _ => ?_) fun ⟨out, k⟩ _ b => ?_)
    (Performs.bind_pure (Performs.forIn_map (fun ⟨p, k⟩ _ => ?_) fun ⟨p, k⟩ _ b => ?_) _)
  · -- a state coefficient: from an output entry, or from a literal
    cases out with
    | entry j =>
      dsimp only
      simp only [← bind_assoc]
      exact performs_store_yield (fun start T => builds_state j k n start T)
        (fun _ _ c h hc => h c hc) rfl
    | number c =>
      dsimp only
      split
      · rename_i h1
        simp only [← bind_assoc]
        exact performs_store_fixed_yield (v := Scalar.ofFloat c) (fun _ => by simp [stateUpdate, h1])
          (fun _ _ => builds_constant c) rfl
      · rename_i h1
        simp only [← bind_assoc]
        exact performs_store_fixed_yield (v := Scalar.ofFloat (Const.nat 0).toFloat)
          (fun _ => by simp [stateUpdate, h1]) (fun _ _ => builds_constantOf (.nat 0)) rfl
  · cases out with
    | entry j => rfl
    | number c =>
      dsimp only
      split <;> rfl
  · -- a parameter: its value at order 0, zero above
    dsimp only
    split
    · rename_i h0
      simp only [← bind_assoc]
      exact performs_store_fixed_yield (v := pars[p.toNat]?.getD Scalar.nan)
        (fun _ => by simp [paramUpdate, h0]) (fun _ _ => builds_push trivial fun _ _ _ => ⟨by simp [Instr.operands], rfl⟩) rfl
    · rename_i h0
      simp only [← bind_assoc]
      exact performs_store_fixed_yield (v := Scalar.ofFloat (Const.nat 0).toFloat)
        (fun _ => by simp [paramUpdate, h0]) (fun _ _ => builds_constantOf (.nat 0)) rfl
  · dsimp only
    split <;> rfl

end Prefix

/-! ## The function entries -/

section Entries

/-- The store of one function entry performs the entry's update: the time from the time register
and the constants one and zero, an operator entry from its recurrence. -/
theorem emitEntry_performs {i n : Nat} {s : StateM CodeBuilder Unit} (h : d.emitEntry i n = .ok s)
    (pars : Array α) (t : α) :
    Performs ⟨d.functionsEnd, none, pars, t⟩ s [d.entryUpdate t i n] := by
  unfold emitEntry at h
  dsimp only at h
  split at h
  · rename_i hrhs
    cases h
    -- the time: the register at order 0, one at order 1, zero above
    rcases n with _ | _ | n
    · exact performs_store_fixed (v := t) (fun _ => by simp [entryUpdate, entryValue, hrhs])
        (fun _ _ => builds_push trivial fun _ _ _ => ⟨by simp [Instr.operands], rfl⟩) rfl
    · exact performs_store_fixed (v := Scalar.ofFloat 1.0)
        (fun _ => by simp [entryUpdate, entryValue, hrhs]) (fun _ _ => builds_constant 1.0) rfl
    · exact performs_store_fixed (v := Scalar.ofFloat 0.0)
        (fun _ => by simp [entryUpdate, entryValue, hrhs]) (fun _ _ => builds_constant 0.0) rfl
  · rename_i tag op args hh hrhs
    cases hc : coefficient CodeBuilder.ops op (.coeff (.fixed i)) (args.map operand)
        ((d.entry i).hidden.map fun h => .coeff (.fixed h)) n with
    | error e =>
      rw [hc] at h
      cases h
    | ok x =>
      rw [hc] at h
      cases h
      -- an operator entry: its recurrence, reading what the entry reads
      let env : RunEnv α := ⟨d.functionsEnd, none, pars, t⟩
      refine performs_store (P := ReadsIn env.n env.row (d.entryReads i n))
        (fun start T => ?_) (fun _ _ _ h hc => h _ hc) rfl
      obtain ⟨y, hy, hb⟩ : ∃ y, coefficient (CoeffOps.onTape env.n env.row T) op
          (.coeff (.fixed i)) (args.map operand) ((d.entry i).hidden.map fun h => .coeff (.fixed h))
          n = .ok y ∧ Builds env start _ T #[] x y (Defines env start) :=
        builds_coefficient (reads_entry hrhs) hc
      have hval : (d.entryUpdate t i n).value T = y := by
        simp only [entryUpdate, entryValue, hrhs]
        exact congrArg (fun r => r.toOption.getD (Scalar.nan : α)) hy
      rw [hval]
      exact hb
  · cases h

/-- The straight block of an order performs the prefix and then the updates of its entries, in
the order they are listed. -/
theorem straight_performs {n : Nat} {entries : List Nat} {steps : List (StateM CodeBuilder Unit)}
    (h : entries.mapM (fun i => d.emitEntry i n) = .ok steps) (pars : Array α) (t : α) :
    Performs ⟨d.functionsEnd, none, pars, t⟩
      (do
        d.emitPrefix d.outputRefs n
        for s in steps do s)
      (d.prefixUpdates pars n ++ entries.map fun i => d.entryUpdate t i n) := by
  have hsteps := (Expr.mapM_except_eq_ok _ _ _).1 h
  refine (emitPrefix_performs pars t n).bind fun _ => ?_
  rw [List.map_eq_flatMap, List.flatMap_def]
  refine Performs.forIn_forall₂ ?_ fun s _ b => run_bind_pure_fst s _ b
  rw [List.forall₂_map_right_iff]
  exact hsteps.flip.imp fun s i hs => Performs.bind_pure (emitEntry_performs hs pars t) _

end Entries

/-! ## The module -/

section Module

/-- The blocks that one order adds: its straight block, then in compact mode its kernels. -/
def orderBlocks (d : Decomposition) (compact : Bool) (n : Nat) : Outcome (List Block) := do
  let entries := if compact then d.timeEntry.toList else d.functions
  let steps ← entries.mapM fun i => d.emitEntry i n
  let code := ((do
      d.emitPrefix d.outputRefs n
      for s in steps do s).run {}).2.code
  if compact then (fun ks => .straight code :: ks) <$> d.emitKernels d.levels n
  else pure [.straight code]

/-- An emitted module: the number of outputs covers the state, the tape has one entry per
function entry and order, and the blocks are those of the orders `0 … order`, in turn. -/
theorem emit_eq_ok {d : Decomposition} {kind : FloatKind} {order : Nat} {compact : Bool}
    {m : IrModule} (h : d.emit kind order compact = .ok m) :
    d.varNames.length ≤ d.nOutputs ∧ m.nEntries = d.functionsEnd ∧
      ∃ bss, List.Forall₂ (fun n bs => d.orderBlocks compact n = .ok bs) (List.range (order + 1)) bss ∧
        m.blocks = bss.flatten := by
  unfold emit at h
  by_cases hout : d.nOutputs < d.varNames.length
  · simp [hout, throw, throwThe, MonadExceptOf.throw, bind, Except.bind] at h
  rw [if_neg hout] at h
  obtain ⟨-, -, h⟩ := outcome_bind_eq_ok.1 h
  obtain ⟨blocks, hfor, h⟩ := outcome_bind_eq_ok.1 h
  by_cases hov : (d.params.any fun p => decide (p.toNat + 1 = UInt32.size)) = true
  · rw [if_pos hov] at h
    obtain ⟨_, h1, -⟩ := outcome_bind_eq_ok.1 h
    cases h1
  rw [if_neg hov] at h
  cases h
  have key := forIn_append_eq (g := d.orderBlocks compact) (fun a acc => ?_) hfor
  · obtain ⟨bss, hbss, hr⟩ := key
    exact ⟨by omega, rfl, bss, hbss, by simp [hr]⟩
  · -- one order: the straight block, then in compact mode the kernels
    cases compact with
    | false =>
      simp only [orderBlocks, Bool.false_eq_true, if_false, Functor.map_map, bind_pure_comp]
      congr 1
    | true =>
      simp only [orderBlocks, if_true, map_bind, Functor.map_map, bind_pure_comp]
      congr 1
      funext steps
      congr 1
      funext ks
      simp

/-- The blocks of one order perform its updates: the reference order in scalar mode, the compact
order in compact mode. -/
theorem orderBlocks_performs {compact : Bool} {n : Nat} {bs : List Block}
    (h : d.orderBlocks compact n = .ok bs) (pars : Array α) (t : α) :
    ∃ uss, List.Forall₂ (BlockPerforms d.functionsEnd pars t) bs uss ∧
      uss.flatten = if compact then d.compactUpdates pars t n else d.orderUpdates pars t n := by
  unfold orderBlocks at h
  obtain ⟨steps, hsteps, h⟩ := outcome_bind_eq_ok.1 h
  cases compact with
  | false =>
    cases h
    exact ⟨[_], .cons (blockPerforms_straight (straight_performs hsteps pars t)) .nil, by
      simp [orderUpdates]⟩
  | true =>
    cases hk : d.emitKernels d.levels n with
    | error e =>
      rw [hk] at h
      cases h
    | ok ks =>
      rw [hk] at h
      cases h
      have hloops := (List.forall₂_and_left _ _).2 ⟨fun g hg => hg, emitKernels_eq_ok hk⟩
      refine ⟨_ :: (d.kernelGroups d.levels).map (fun g => g.map fun m => d.entryUpdate t m.2 n),
        .cons (blockPerforms_straight (straight_performs hsteps pars t)) ?_, ?_⟩
      · rw [List.forall₂_map_right_iff]
        exact hloops.flip.imp fun b g hg => kernelLoop_performs hg.1 hg.2 pars t
      · simp [compactUpdates, ← List.map_flatten, flatten_kernelGroups]

/-- The updates a module of orders `0 … order` performs, order after order. -/
def moduleUpdates (d : Decomposition) (compact : Bool) (pars : Array α) (t : α) (order : Nat) :
    List (Update α) :=
  (List.range (order + 1)).flatMap fun n =>
    if compact then d.compactUpdates pars t n else d.orderUpdates pars t n

/-- An emitted module runs as its updates, order after order, and touches the tape as they
read and write it. -/
theorem emit_performs {kind : FloatKind} {order : Nat} {compact : Bool} {m : IrModule}
    (h : d.emit kind order compact = .ok m) (pars : Array α) (t : α) :
    (∀ tape, m.run tape pars t = applyAll (d.moduleUpdates compact pars t order) tape) ∧
      Traces (d.moduleUpdates compact pars t order) m.accesses := by
  obtain ⟨-, hN, bss, hbss, hblocks⟩ := emit_eq_ok h
  -- the blocks of each order perform that order's updates
  have key : ∀ {ns : List Nat} {bss : List (List Block)},
      List.Forall₂ (fun n bs => d.orderBlocks compact n = .ok bs) ns bss →
      ∃ usss : List (List (List (Update α))),
        List.Forall₂ (List.Forall₂ (BlockPerforms d.functionsEnd pars t)) bss usss ∧
        usss.map List.flatten =
          ns.map fun n => if compact then d.compactUpdates pars t n else d.orderUpdates pars t n := by
    intro ns bss hbss
    induction hbss with
    | nil => exact ⟨[], .nil, rfl⟩
    | cons hb _ ih =>
      obtain ⟨uss, huss, hflat⟩ := orderBlocks_performs hb pars t
      obtain ⟨usss, hF, hmap⟩ := ih
      exact ⟨uss :: usss, .cons huss hF, by simp [hflat, hmap]⟩
  obtain ⟨usss, hF, hmap⟩ := key hbss
  have hall : List.Forall₂ (BlockPerforms m.nEntries pars t) m.blocks usss.flatten := by
    rw [hblocks, hN]
    exact List.rel_flatten hF
  have hflat : usss.flatten.flatten = d.moduleUpdates compact pars t order := by
    rw [moduleUpdates, List.flatMap_def, ← hmap, List.flatten_flatten]
  rw [← hflat]
  exact run_eq_applyAll hall

end Module

end Decomposition

end TaylorOde
