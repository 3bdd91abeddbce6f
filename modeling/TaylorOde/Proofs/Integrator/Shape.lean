import TaylorOde.Proofs.Decomposition.Outputs
import TaylorOde.Proofs.Integrator.Order
import TaylorOde.Proofs.Integrator.CallbackProtocol
import Mathlib
/-!
# The shape of an integrator

A step indexes the tape at `m * N + k` for every order `m` up to the integrator's order and
every state component `k`, where `N` is the number of entries of the compiled code; it reads
the outputs of the events after those of the state, the coefficients of an output at
`m * N + i` for the entry `i` it refers to, and the cooldown of every terminal event; and it
deduces the step size from the orders `p - 1` and `p`. These reads are in range because of
the integrator's shape (`Integrator.Shaped`): the state has one component per equation, the
outputs one per equation and per event, each a literal or an entry of the code, the tape `N`
cells per order, the cooldowns one per terminal event, the parameters cover every parameter
the system and the events mention, the order lies between `minOrder` and `maxOrder`, and the
state fits in front of the entries.

`build_shaped` shows that `Builder.build` returns integrators of that shape, and every public
operation keeps it, because none changes the system, the events, the outputs, the code or the
order, and none changes the size of the state, the tape, the cooldowns or the parameters
(`SameShape`, `Operation.apply_sameShape`). Step callbacks act during a propagation through the
scope they are given, whose state they may change but not resize (`call_state_size`), so the
propagations keep the shape too.

## Shape of the proof

* one step: the tape is rewritten in place (`computeTape_size`), and a step either gives up or
  commits a new state of the old size (`stepFrom_sameShape`);
* a propagation: every turn of its loop keeps the shape (`advance_inl_sameShape`,
  `advance_inr_sameShape`, `callbackTurn_sameShape`), hence the loop (`loop_sameShape`) and
  every propagation (`propagateCore_sameShape`);
* a run of operations: by induction on the operations (`run_sameShape`).
-/

namespace TaylorOde

/-! ## Settings -/

theorem outcome_bind_eq_ok {β γ : Type} {x : Outcome β} {f : β → Outcome γ} {c : γ} :
    (x >>= f) = .ok c ↔ ∃ b, x = .ok b ∧ f b = .ok c := by
  cases x <;> simp [bind, Except.bind]

theorem bind_unit_eq_ok {x y : Outcome Unit} :
    (x >>= fun _ => y) = .ok () ↔ x = .ok () ∧ y = .ok () := by
  cases x <;> simp [bind, Except.bind]

theorem ensure_eq_ok {ok : Bool} {message : String} {u : Unit} :
    ensure ok message = .ok u ↔ ok = true := by
  cases ok <;> simp [ensure]

namespace TaylorConfig

theorem forM_ensure_eq_ok {β : Type} {x : Option β} {p : β → Bool} {m : β → String} :
    x.forM (fun b => ensure (p b) (m b)) = .ok () ↔ ∀ b, x = some b → p b = true := by
  cases x <;> simp [Option.forM, ensure_eq_ok, pure, Except.pure]

/-- A configuration passes `validate` exactly when every setting lies in its range. -/
theorem validate_eq_ok {c : TaylorConfig} :
    c.validate = .ok () ↔
      (∀ tol, c.tol = some tol → (tol.isFinite && tol > 0.0) = true) ∧
      (∀ o, c.order = some o → minOrder ≤ o ∧ o ≤ maxOrder) ∧
      (c.safetyFactor > 0.0 && c.safetyFactor ≤ 1.0) = true ∧ 2 ≤ c.sumSplit := by
  simp only [validate, bind_unit_eq_ok, forM_ensure_eq_ok, ensure_eq_ok, Bool.and_eq_true,
    decide_eq_true_eq]

end TaylorConfig

/-! ## Instruments keep the size of the state -/

namespace StepCallback

variable {α : Type} [Scalar α]

omit [Scalar α] in
theorem foldl_modify_size (indices : List Nat) (f : α → α) (xs : Array α) :
    (indices.foldl (fun st i => st.modify i f) xs).size = xs.size := by
  induction indices generalizing xs with
  | nil => rfl
  | cons i rest ih => rw [List.foldl_cons, ih, Array.size_modify]

omit [Scalar α] in
/-- An instrument's pre-hook leaves the state as it is. -/
theorem instrumentPreHook_state (c : StepCallback) (s : CallbackScope α) :
    (c.instrumentPreHook s).2.2.state = s.state := by
  unfold instrumentPreHook
  split
  · dsimp only
    split <;> rfl
  · split <;> rfl
  · rfl

/-- An instrument's call changes the entries of the state, never its size. -/
theorem instrumentCall_state_size (c : StepCallback) (s : CallbackScope α) :
    (c.instrumentCall s).2.2.state.size = s.state.size := by
  unfold instrumentCall
  split
  · exact foldl_modify_size _ reduceAngle s.state
  · rfl
  · rename_i p
    dsimp only
    split
    · rfl
    · cases p.scaleState <;> cases p.bumpTime <;> simp [CallbackScope.updateReading]
  · rfl

end StepCallback

/-! ## Running the code keeps the size of the tape -/

namespace IrModule

variable {α : Type} [Scalar α]

theorem runBody_size (n : Nat) (code : Array Instr) (row : Option KernelRow) (pars : Array α)
    (time : α) (tape : Array α) : (runBody n code row pars time tape).size = tape.size := by
  unfold runBody
  refine Array.foldl_induction
    (motive := fun _ (acc : Array α × Array α) => acc.2.size = tape.size) rfl
    fun i acc hacc => ?_
  generalize code[i] = ins
  -- only a store writes the tape, and only inside it
  cases ins with
  | storeCoeff s o v =>
    simp only [exec]
    split
    · split
      · rw [Array.size_set!, hacc]
      · exact hacc
    · exact hacc
  | _ => exact hacc

theorem run_size (m : IrModule) (tape : Array α) (pars : Array α) (time : α) :
    (m.run tape pars time).size = tape.size := by
  unfold run
  induction m.blocks generalizing tape with
  | nil => rfl
  | cons b rest ih =>
    rw [List.foldl_cons, ih]
    cases b with
    | straight code => exact runBody_size _ _ _ _ _ _
    | loop body rows =>
      dsimp only
      induction rows generalizing tape with
      | nil => rfl
      | cons r rows ihr => rw [List.foldl_cons, ihr, runBody_size]

end IrModule

namespace Integrator

variable {α : Type} [Scalar α]

/-! ## The shape -/

/-- The expressions of the events, terminal ones first, as the code computes them. -/
def eventExprs (ta : Integrator α) : List Expr :=
  ta.terminal.toList.map (·.expr) ++ ta.nonTerminal.toList.map (·.expr)

/-- The sizes a step relies on. -/
structure Shaped (ta : Integrator α) : Prop where
  state_size : ta.state.size = ta.system.dimension
  outputs_size : ta.outputs.size = ta.system.dimension + ta.terminal.size + ta.nonTerminal.size
  tape_size : ta.tape.size = (ta.order + 1) * ta.ir.nEntries
  cooldowns_size : ta.cooldowns.size = ta.terminal.size
  pars_cover : ∀ e ∈ ta.system.rhs ++ ta.eventExprs, ∀ p ∈ e.params, p < ta.pars.size
  order_ge : minOrder ≤ ta.order
  order_le : ta.order ≤ maxOrder
  dimension_le : ta.system.dimension ≤ ta.ir.nEntries
  outputs_below : ∀ (j i : Nat), ta.outputs[j]? = some (OutputRef.entry i) → i < ta.ir.nEntries

/-- `ta'` has the layout of `ta`: the same system, events, outputs, code and order, and a
state, tape, cooldowns and parameters of the same sizes. -/
structure SameShape (ta ta' : Integrator α) : Prop where
  system : ta'.system = ta.system
  terminal : ta'.terminal = ta.terminal
  nonTerminal : ta'.nonTerminal = ta.nonTerminal
  outputs : ta'.outputs = ta.outputs
  ir : ta'.ir = ta.ir
  order : ta'.order = ta.order
  state_size : ta'.state.size = ta.state.size
  tape_size : ta'.tape.size = ta.tape.size
  cooldowns_size : ta'.cooldowns.size = ta.cooldowns.size
  pars_size : ta'.pars.size = ta.pars.size

namespace SameShape

variable {ta ta₁ ta₂ ta₃ : Integrator α}

omit [Scalar α] in
theorem refl (ta : Integrator α) : SameShape ta ta :=
  ⟨rfl, rfl, rfl, rfl, rfl, rfl, rfl, rfl, rfl, rfl⟩

omit [Scalar α] in
theorem trans (h₁ : SameShape ta₁ ta₂) (h₂ : SameShape ta₂ ta₃) : SameShape ta₁ ta₃ where
  system := h₂.system.trans h₁.system
  terminal := h₂.terminal.trans h₁.terminal
  nonTerminal := h₂.nonTerminal.trans h₁.nonTerminal
  outputs := h₂.outputs.trans h₁.outputs
  ir := h₂.ir.trans h₁.ir
  order := h₂.order.trans h₁.order
  state_size := h₂.state_size.trans h₁.state_size
  tape_size := h₂.tape_size.trans h₁.tape_size
  cooldowns_size := h₂.cooldowns_size.trans h₁.cooldowns_size
  pars_size := h₂.pars_size.trans h₁.pars_size

omit [Scalar α] in
/-- The shape is a matter of the layout only. -/
theorem shaped (h : SameShape ta ta') (hs : ta.Shaped) : ta'.Shaped where
  state_size := by rw [h.state_size, h.system, hs.state_size]
  outputs_size := by rw [h.outputs, h.system, h.terminal, h.nonTerminal, hs.outputs_size]
  tape_size := by rw [h.tape_size, h.order, h.ir, hs.tape_size]
  cooldowns_size := by rw [h.cooldowns_size, h.terminal, hs.cooldowns_size]
  pars_cover := by
    have hev : ta'.eventExprs = ta.eventExprs := by simp only [eventExprs, h.terminal, h.nonTerminal]
    rw [h.pars_size, h.system, hev]
    exact hs.pars_cover
  order_ge := h.order ▸ hs.order_ge
  order_le := h.order ▸ hs.order_le
  dimension_le := by rw [h.system, h.ir]; exact hs.dimension_le
  outputs_below := by rw [h.outputs, h.ir]; exact hs.outputs_below

end SameShape

omit [Scalar α] in
/-- Taking back what an instrument changed keeps the layout when the state keeps its size. -/
theorem withScope_sameShape (ta : Integrator α) {s : CallbackScope α}
    (hs : s.state.size = ta.state.size) : SameShape ta (ta.withScope s) :=
  ⟨rfl, rfl, rfl, rfl, rfl, rfl, hs, rfl, rfl, rfl⟩

end Integrator

/-! ## The closures of the code

A closure gets the whole integrator. What the shape needs of the code is that its closures keep
the layout (`KeepsShape`); `PublicRun` below shows that closures which act through the public
operations do. -/

namespace CallbackCode

variable {α : Type}

/-- `ta'` is what one run of a closure of `code` makes of `ta`: the pre-hook or the call of a
step callback, or the callback of an event at a crossing. -/
inductive Makes (code : CallbackCode α) (ta : Integrator α) : Integrator α → Prop
  | preHook (id memo : Nat) : Makes code ta (code.preHook id memo ta).1
  | call (id memo : Nat) : Makes code ta (code.call id memo ta).1
  | terminal (id : Nat) (dir : EventDirection) : Makes code ta (code.terminal id ta dir).1
  | nonTerminal (id : Nat) (t : α) (dir : EventDirection) :
      Makes code ta (code.nonTerminal id ta t dir)

/-- The closures of `code` keep the layout of the integrator they run on. -/
def KeepsShape (code : CallbackCode α) : Prop :=
  ∀ ta ta', code.Makes ta ta' → Integrator.SameShape ta ta'

end CallbackCode

/-! ## Step callbacks keep the layout -/

namespace StepCallback

open Integrator

variable {α : Type} [code : CallbackCode α]

mutual

/-- A pre-hook keeps the layout: an instrument leaves the state as it is, a set runs its
members one after another, and a closure keeps it by the code's own guarantee. -/
theorem preHook_sameShape (hcode : code.KeepsShape) :
    ∀ (c : StepCallback) (ta : Integrator α), SameShape ta (c.preHook ta).ta
  | .angleReducer vars indices, ta => withScope_sameShape ta
    (congrArg Array.size (instrumentPreHook_state (.angleReducer vars indices) ta.scope))
  | .set members, ta => preHookAll_sameShape hcode members ta
  | .countdown _ _, ta => withScope_sameShape ta rfl
  | .probe p, ta => withScope_sameShape ta
    (congrArg Array.size (instrumentPreHook_state (.probe p) ta.scope))
  | .closure id memo, _ => hcode _ _ (.preHook id memo)

theorem preHookAll_sameShape (hcode : code.KeepsShape) :
    ∀ (cs : List StepCallback) (ta : Integrator α), SameShape ta (preHookAll cs ta).2.2
  | [], ta => SameShape.refl ta
  | c :: rest, ta => by
    simp only [preHookAll]
    split
    · exact preHook_sameShape hcode c ta
    · exact (preHook_sameShape hcode c ta).trans (preHookAll_sameShape hcode rest _)

end

variable [Scalar α]

mutual

/-- A call keeps the layout: an instrument changes the entries of the state, never its size. -/
theorem call_sameShape (hcode : code.KeepsShape) :
    ∀ (c : StepCallback) (ta : Integrator α), SameShape ta (c.call ta).ta
  | .angleReducer vars indices, ta => withScope_sameShape ta
    (instrumentCall_state_size (.angleReducer vars indices) ta.scope)
  | .set members, ta => callAll_sameShape hcode members true ta
  | .countdown _ _, ta => withScope_sameShape ta rfl
  | .probe p, ta => withScope_sameShape ta (instrumentCall_state_size (.probe p) ta.scope)
  | .closure id memo, _ => hcode _ _ (.call id memo)

theorem callAll_sameShape (hcode : code.KeepsShape) :
    ∀ (cs : List StepCallback) (keep : Bool) (ta : Integrator α),
      SameShape ta (callAll cs keep ta).2.2
  | [], _, ta => SameShape.refl ta
  | c :: rest, keep, ta => by
    simp only [callAll]
    split
    · exact call_sameShape hcode c ta
    · exact (call_sameShape hcode c ta).trans (callAll_sameShape hcode rest _ _)

end

end StepCallback

namespace Integrator

variable {α : Type} [Scalar α]

/-! ## One step -/

theorem computeTape_size (ta : Integrator α) : ta.computeTape.size = ta.tape.size := by
  unfold computeTape
  rw [IrModule.run_size]
  refine Array.foldl_induction (motive := fun _ (t : Array α) => t.size = ta.tape.size) rfl
    fun i t ht => ?_
  rw [Array.size_set!, ht]

theorem evalStep_length (ta : Integrator α) (delta : α) :
    (ta.evalStep delta).length = ta.state.size := by
  simp [evalStep]

omit [Scalar α] in
/-- Writing journal entries one after another keeps the layout. -/
theorem foldl_sameShape {β : Type} (f : Integrator α → β → Integrator α)
    (hf : ∀ ta b, SameShape ta (f ta b)) (l : List β) (ta : Integrator α) :
    SameShape ta (l.foldl f ta) := by
  induction l generalizing ta with
  | nil => exact SameShape.refl ta
  | cons b l ih => exact (hf ta b).trans (ih (f ta b))

section Code

variable [code : CallbackCode α] (hcode : code.KeepsShape)
include hcode

omit [Scalar α] in
/-- The callback of a terminal event keeps the layout: the journal grows, or a closure runs. -/
theorem runTerminalCallback_sameShape (ta : Integrator α) (i : Nat) (dir : EventDirection) :
    SameShape ta (ta.runTerminalCallback i dir).1 := by
  unfold runTerminalCallback
  split
  · exact ⟨rfl, rfl, rfl, rfl, rfl, rfl, rfl, rfl, rfl, rfl⟩
  · exact hcode _ _ (.terminal _ _)
  · exact SameShape.refl ta

omit [Scalar α] in
/-- The callback of a non-terminal event keeps the layout. -/
theorem runNonTerminalCallback_sameShape (ta : Integrator α) (hit : EventHit α) :
    SameShape ta (ta.runNonTerminalCallback hit) := by
  unfold runNonTerminalCallback
  split
  · exact ⟨rfl, rfl, rfl, rfl, rfl, rfl, rfl, rfl, rfl, rfl⟩
  · exact hcode _ _ (.nonTerminal _ _ _)
  · exact SameShape.refl ta

/-- Committing a state of the old size keeps the layout: the cooldown of the terminal event
is replaced, not added, and the event callbacks keep it. -/
theorem commitStep_sameShape (ta : Integrator α) {next : List α}
    (hnext : next.length = ta.state.size) (hs : α) (hits : List (EventHit α))
    (first : Option (Nat × Crossing α × α)) :
    SameShape ta (ta.commitStep next hs hits first).1 := by
  unfold commitStep
  dsimp only
  refine SameShape.trans ?_
    (foldl_sameShape _ (runNonTerminalCallback_sameShape hcode) _ _)
  have hstate : next.toArray.size = ta.state.size := by simp [hnext]
  split
  · exact ⟨rfl, rfl, rfl, rfl, rfl, rfl, hstate, rfl, rfl, rfl⟩
  · refine SameShape.trans ?_ (runTerminalCallback_sameShape hcode _ _ _)
    exact ⟨rfl, rfl, rfl, rfl, rfl, rfl, hstate, rfl, Array.size_set! .., rfl⟩

/-- A step either gives up, changing nothing, or commits a state of the old size. -/
theorem stepFrom_sameShape (ta : Integrator α) (limit : α) (forward : Bool) :
    SameShape ta (ta.stepFrom limit forward).1 := by
  unfold stepFrom
  cases ta.stepPlan limit forward with
  | none => exact SameShape.refl ta
  | some plan => exact commitStep_sameShape hcode ta (evalStep_length ta _) _ _ _

theorem stepCore_sameShape (ta : Integrator α) (limit : α) (forward : Bool) :
    SameShape ta (ta.stepCore limit forward).1 := by
  have htape : SameShape ta { ta with tape := ta.computeTape } :=
    ⟨rfl, rfl, rfl, rfl, rfl, rfl, rfl, computeTape_size ta, rfl, rfl⟩
  exact htape.trans (stepFrom_sameShape hcode _ limit forward)

theorem stepWith_sameShape {ta ta' : Integrator α} {dt : α} {r : StepReport α}
    (h : ta.stepWith dt = .ok (ta', r)) : SameShape ta ta' := by
  unfold stepWith at h
  split at h
  · cases h
  · have hcore : (ta.stepCore (Scalar.abs dt) (Scalar.le Scalar.zero dt)).1 = ta' :=
      congrArg Prod.fst (Except.ok.inj h)
    rw [← hcore]
    exact stepCore_sameShape hcode ta _ _

end Code

omit [Scalar α] in
theorem updateState_sameShape {ta ta' : Integrator α} {state : List α}
    (h : ta.updateState state = .ok ta') : SameShape ta ta' := by
  unfold updateState at h
  split at h
  · cases h
  · rename_i hlen
    cases h
    have hsize : state.length = ta.state.size := by simpa using hlen
    exact ⟨rfl, rfl, rfl, rfl, rfl, rfl, by simp [hsize], rfl, rfl, rfl⟩

/-! ## Propagation -/

theorem setTime_sameShape (ta : Integrator α) (t : α) : SameShape ta (ta.setTime t) :=
  ⟨rfl, rfl, rfl, rfl, rfl, rfl, rfl, rfl, rfl, rfl⟩

omit [Scalar α] in
theorem releaseCallback_sameShape (ta : Integrator α) (opts : PropagateOptions α) :
    SameShape ta (ta.releaseCallback opts) := by
  unfold releaseCallback
  split
  · exact ⟨rfl, rfl, rfl, rfl, rfl, rfl, rfl, rfl, rfl, rfl⟩
  · exact SameShape.refl ta

omit [Scalar α] in
theorem propagateEnd_sameShape (own : Bool) (ps : PropagateState α)
    (outcome : Outcome StepOutcome) : SameShape ps.ta (propagateEnd own ps outcome).1 := by
  have hown : SameShape ps.ta (if own then { ps.ta with callback := ps.callback } else ps.ta) := by
    split
    · exact ⟨rfl, rfl, rfl, rfl, rfl, rfl, rfl, rfl, rfl, rfl⟩
    · exact SameShape.refl _
  unfold propagateEnd
  cases outcome <;> exact hown

section Code

variable [code : CallbackCode α] (hcode : code.KeepsShape)
include hcode

theorem runCallback_sameShape (ps : PropagateState α) :
    SameShape ps.ta (runCallback ps).1.ta := by
  unfold runCallback
  split
  · exact SameShape.refl _
  · rename_i cb _
    have hcall := StepCallback.call_sameShape hcode cb ps.ta
    dsimp only
    split
    · exact hcall
    · split <;> exact hcall

theorem callbackTurn_sameShape (ps : PropagateState α) (report : StepReport α) :
    SameShape ps.ta (callbackTurn ps report).1.ta := by
  unfold callbackTurn
  split
  · exact SameShape.refl _
  · exact runCallback_sameShape hcode ps

section Turn

variable {tEnd : α} {maxSteps : Option Nat} {maxDeltaT : α} {forward : Bool}
  {ps ps' : PropagateState α}

/-- A turn that ends before committing a step ends after at most a step that gave up. -/
theorem advance_inl_sameShape {o : StepOutcome}
    (h : advance tEnd maxSteps maxDeltaT forward ps = .inl (ps', o)) : SameShape ps.ta ps'.ta := by
  unfold advance at h
  dsimp only at h
  split at h
  · cases h
    exact SameShape.refl _
  split at h
  · cases h
    exact SameShape.refl _
  split at h
  · cases h
    exact stepCore_sameShape hcode _ _ _
  · cases h

/-- A committed step, and the final time set when it reached it, keep the layout. -/
theorem advance_inr_sameShape {report : StepReport α} {reached : Bool}
    (h : advance tEnd maxSteps maxDeltaT forward ps = .inr (ps', report, reached)) :
    SameShape ps.ta ps'.ta := by
  unfold advance at h
  dsimp only at h
  split at h
  · cases h
  split at h
  · cases h
  split at h
  · cases h
  cases h
  have hstep := stepCore_sameShape hcode ps.ta (Scalar.min (Scalar.abs ((tEnd - ps.ta.time.1) -
    ps.ta.time.2)) maxDeltaT) forward
  split
  · exact hstep.trans (setTime_sameShape _ _)
  · exact hstep

theorem settle_inl_sameShape {report : StepReport α} {reached : Bool} {r : Outcome StepOutcome}
    (h : settle ps report reached = .inl (ps', r)) : SameShape ps.ta ps'.ta := by
  rw [(settle_eq_inl h).1]
  exact callbackTurn_sameShape hcode ps report

theorem settle_inr_sameShape {report : StepReport α} {reached : Bool}
    (h : settle ps report reached = .inr ps') : SameShape ps.ta ps'.ta := by
  rw [(settle_eq_inr h).1]
  exact callbackTurn_sameShape hcode ps report

end Turn

/-- Every turn of the loop keeps the layout, so the loop does. -/
theorem loop_sameShape (tEnd : α) (maxSteps : Option Nat) (maxDeltaT : α) (forward : Bool) :
    ∀ (fuel : Nat) (ps : PropagateState α),
      SameShape ps.ta (propagateLoop tEnd maxSteps maxDeltaT forward fuel ps).1.ta
  | 0, ps => SameShape.refl _
  | fuel + 1, ps => by
    rw [propagateLoop]
    cases hadv : advance tEnd maxSteps maxDeltaT forward ps with
    | inl p =>
      obtain ⟨ps₁, o⟩ := p
      exact advance_inl_sameShape hcode hadv
    | inr p =>
      obtain ⟨ps₁, report, reached⟩ := p
      have h₁ := advance_inr_sameShape hcode hadv
      dsimp only
      cases hset : settle ps₁ report reached with
      | inl r =>
        obtain ⟨ps₂, r⟩ := r
        exact h₁.trans (settle_inl_sameShape hcode hset)
      | inr ps₂ =>
        exact (h₁.trans (settle_inr_sameShape hcode hset)).trans
          (loop_sameShape tEnd maxSteps maxDeltaT forward fuel ps₂)

/-- Setting the own callback aside keeps the layout, and so does the pre-hook. -/
theorem propagateStart_sameShape (ta : Integrator α) (opts : PropagateOptions α)
    (cursor : Option (GridCursor α)) : SameShape ta (propagateStart ta opts cursor).1.ta := by
  have hown := releaseCallback_sameShape ta opts
  unfold propagateStart
  dsimp only
  generalize ta.releaseCallback opts = ta₁ at hown ⊢
  split
  · exact hown
  · rename_i c _
    exact hown.trans (StepCallback.preHook_sameShape hcode c ta₁)

theorem propagateCore_sameShape (ta : Integrator α) (tEnd : α) (opts : PropagateOptions α)
    (cursor : Option (GridCursor α)) : SameShape ta (ta.propagateCore tEnd opts cursor).1 := by
  unfold propagateCore
  split
  · exact SameShape.refl ta
  · rename_i maxDeltaT _
    have hstart := propagateStart_sameShape hcode ta opts cursor
    dsimp only
    generalize propagateStart ta opts cursor = start at hstart ⊢
    obtain ⟨ps₀, pre⟩ := start
    dsimp only at hstart ⊢
    refine SameShape.trans hstart ?_
    split
    · exact propagateEnd_sameShape _ _ _
    · exact (loop_sameShape hcode tEnd opts.maxSteps maxDeltaT _ _ ps₀).trans
        (propagateEnd_sameShape _ _ _)

theorem propagateUntil_sameShape (ta : Integrator α) (tEnd : α) (opts : PropagateOptions α) :
    SameShape ta (ta.propagateUntil tEnd opts).1 :=
  propagateCore_sameShape hcode ta tEnd opts none

theorem propagateGrid_sameShape (ta : Integrator α) (grid : List α) (opts : PropagateOptions α) :
    SameShape ta (ta.propagateGrid grid opts).1 := by
  unfold propagateGrid
  split
  · exact SameShape.refl ta
  · exact propagateCore_sameShape hcode ta _ opts _

end Code

/-! ## Operations -/

/-- The public operations on an integrator. -/
inductive Operation (α : Type) where
  | step
  | stepBackward
  | stepWith (dt : α)
  | propagateUntil (tEnd : α) (opts : PropagateOptions α)
  | propagateFor (delta : α) (opts : PropagateOptions α)
  | propagateGrid (grid : List α) (opts : PropagateOptions α)
  | updateState (state : List α)
  | writeState (k : Nat) (x : α)
  | writePar (k : Nat) (x : α)
  | setTime (t : α)
  | setCallback (cb : Callback)
  | resetCooldowns

namespace Operation

variable [code : CallbackCode α]

/-- The integrator after an operation; an operation that is refused leaves it as it was. -/
def apply (ta : Integrator α) : Operation α → Integrator α
  | .step => ta.step.1
  | .stepBackward => ta.stepBackward.1
  | .stepWith dt =>
    match ta.stepWith dt with
    | .ok (ta', _) => ta'
    | .error _ => ta
  | .propagateUntil tEnd opts => (ta.propagateUntil tEnd opts).1
  | .propagateFor delta opts => (ta.propagateFor delta opts).1
  | .propagateGrid grid opts => (ta.propagateGrid grid opts).1
  | .updateState state =>
    match ta.updateState state with
    | .ok ta' => ta'
    | .error _ => ta
  | .writeState k x => ta.writeState k x
  | .writePar k x => ta.writePar k x
  | .setTime t => ta.setTime t
  | .setCallback cb => ta.setCallback cb
  | .resetCooldowns => ta.resetCooldowns

/-- No operation changes the layout when the closures it runs keep it. -/
theorem apply_sameShape (hcode : code.KeepsShape) (ta : Integrator α) (op : Operation α) :
    SameShape ta (apply ta op) := by
  cases op with
  | step => exact stepCore_sameShape hcode ta _ _
  | stepBackward => exact stepCore_sameShape hcode ta _ _
  | stepWith dt =>
    simp only [apply]
    cases h : ta.stepWith dt with
    | ok p => exact stepWith_sameShape hcode h
    | error e => exact SameShape.refl ta
  | propagateUntil tEnd opts => exact propagateUntil_sameShape hcode ta tEnd opts
  | propagateFor delta opts => exact propagateUntil_sameShape hcode ta _ opts
  | propagateGrid grid opts => exact propagateGrid_sameShape hcode ta grid opts
  | updateState state =>
    simp only [apply]
    cases h : ta.updateState state with
    | ok ta' => exact updateState_sameShape h
    | error e => exact SameShape.refl ta
  | writeState k x => exact ⟨rfl, rfl, rfl, rfl, rfl, rfl, Array.size_set! .., rfl, rfl, rfl⟩
  | writePar k x => exact ⟨rfl, rfl, rfl, rfl, rfl, rfl, rfl, rfl, rfl, Array.size_set! ..⟩
  | setTime t => exact setTime_sameShape ta t
  | setCallback cb => exact ⟨rfl, rfl, rfl, rfl, rfl, rfl, rfl, rfl, rfl, rfl⟩
  | resetCooldowns => exact ⟨rfl, rfl, rfl, rfl, rfl, rfl, rfl, rfl, Array.size_map .., rfl⟩

end Operation

/-! ## Public runs

A closure may run any public operation on the integrator it gets, a propagation with callbacks
of its own included, whose closures may do the same. A public run records such a sequence of
operations with the code each one runs with, and asks of that code that every run of its
closures be a public run in turn, so that the closures' runs nest finitely deep. -/

/-- A run of public operations leads `ta` to `ta'`, each operation running with a code whose
closures make public runs themselves. -/
inductive PublicRun : Integrator α → Integrator α → Prop
  | nil (ta : Integrator α) : PublicRun ta ta
  | cons {ta ta' : Integrator α} (code : CallbackCode α)
      (closures : ∀ ta₁ ta₂, code.Makes ta₁ ta₂ → PublicRun ta₁ ta₂) (op : Operation α)
      (rest : PublicRun (@Operation.apply α _ code ta op) ta') : PublicRun ta ta'

/-- A public run keeps the layout. The induction is on the run: the closures an operation runs
make public runs, which keep the layout by the induction hypothesis, so the operation keeps it
too. -/
theorem PublicRun.sameShape {ta ta' : Integrator α} (h : PublicRun ta ta') : SameShape ta ta' := by
  induction h with
  | nil ta => exact SameShape.refl ta
  | cons code _ op _ hclosures hrest =>
    have hcode : code.KeepsShape := hclosures
    exact (@Operation.apply_sameShape α _ code hcode _ op).trans hrest

end Integrator

namespace CallbackCode

variable {α : Type} [Scalar α]

/-- The closures of `code` act on the integrator through public operations only: every run of
one is a public run. -/
def ActsPublicly (code : CallbackCode α) : Prop :=
  ∀ ta ta', code.Makes ta ta' → Integrator.PublicRun ta ta'

/-- The closures of a program that links none of its own change nothing, so they act
publicly. -/
theorem inert_actsPublicly : (inert : CallbackCode α).ActsPublicly := by
  intro ta ta' hm
  cases hm <;> exact .nil ta

end CallbackCode

namespace Integrator

variable {α : Type} [Scalar α]

/-- A run of operations with a code whose closures act publicly is a public run. -/
theorem PublicRun.of_operations [code : CallbackCode α] (hcode : code.ActsPublicly) :
    ∀ (ops : List (Operation α)) (ta : Integrator α), PublicRun ta (ops.foldl Operation.apply ta)
  | [], ta => .nil ta
  | op :: ops, _ => .cons code hcode op (of_operations hcode ops _)

/-! ## Building -/

omit [Scalar α] in
/-- The parameter count a builder asks for covers every parameter that the system and the
extra expressions mention. -/
theorem Builder.lt_parametersNeeded (b : Builder α) (extra : List Expr) {e : Expr}
    (he : e ∈ b.system.rhs ++ extra) {p : Nat} (hp : p ∈ e.params) :
    p < b.parametersNeeded extra := by
  have hextra : b.system.nParams ≤ b.parametersNeeded extra ∧
      ∀ q ∈ extra.flatMap Expr.params, q + 1 ≤ b.parametersNeeded extra :=
    Decomposition.le_foldl_max (· + 1) _ _
  rcases List.mem_append.1 he with he | he
  · have hsys : ∀ q ∈ b.system.rhs.flatMap Expr.params, q + 1 ≤ b.system.nParams :=
      (Decomposition.le_foldl_max (· + 1) _ 0).2
    have := hsys p (List.mem_flatMap.2 ⟨e, he, hp⟩)
    omega
  · have := hextra.2 p (List.mem_flatMap.2 ⟨e, he, hp⟩)
    omega

theorem build_shaped {b : Builder α} {ta : Integrator α}
    (hsys : b.system.rhs.length = b.system.dimension) (h : b.build = .ok ta) : ta.Shaped := by
  unfold Builder.build at h
  dsimp only at h
  -- every check passed, and the decomposition and the code were built
  obtain ⟨⟨⟩, hval, h⟩ := outcome_bind_eq_ok.1 h
  obtain ⟨state, -, h⟩ := outcome_bind_eq_ok.1 h
  obtain ⟨⟨⟩, hlen, h⟩ := outcome_bind_eq_ok.1 h
  obtain ⟨⟨⟩, -, h⟩ := outcome_bind_eq_ok.1 h
  obtain ⟨⟨⟩, hpars, h⟩ := outcome_bind_eq_ok.1 h
  obtain ⟨dc, hdc, h⟩ := outcome_bind_eq_ok.1 h
  obtain ⟨ir, hir, h⟩ := outcome_bind_eq_ok.1 h
  cases h
  obtain ⟨-, horder, -, hsplit⟩ := TaylorConfig.validate_eq_ok.1 hval
  have hlen' : state.length = b.system.dimension := by simpa using ensure_eq_ok.1 hlen
  have hpars' := of_decide_eq_true (ensure_eq_ok.1 hpars)
  obtain ⟨hvars, houts, hroom⟩ := Decomposition.ofSystem_roomy hsplit hdc
  obtain ⟨hord, hents⟩ := Decomposition.emit_dims hir
  obtain ⟨hnp, -⟩ := hroom.bounds
  refine ⟨?_, ?_, ?_, ?_, ?_, (orderFor_range horder _).1, (orderFor_range horder _).2, ?_, ?_⟩
  · simpa using hlen'
  · simp only [List.size_toArray, hroom.length_outputRefs, houts, List.length_append,
      List.length_map, hsys]
    omega
  · simp [IrModule.tapeLen, hord, Nat.mul_comm]
  · simp
  · -- the parameter vector covers what the system and the events mention
    intro e he p hp
    have hev : e ∈ b.system.rhs ++ (b.terminal.map (·.expr) ++ b.nonTerminal.map (·.expr)) := by
      simpa [eventExprs] using he
    have := Builder.lt_parametersNeeded b _ hev hp
    simp only [List.size_toArray]
    omega
  · simp only [OdeSystem.dimension, hents, ← hvars]
    unfold Decomposition.nPrefix at hnp
    omega
  · intro j i hj
    rw [hents]
    exact Decomposition.ofSystem_outputRefs_below hsplit hdc (by simpa using hj)

/-! ## What a step reads -/

/-- Every index a step reads is in range: the coefficients of every order of the state on the
tape, the outputs of the events after those of the state, and the cooldowns of the terminal
events; and the order is positive, so that the step size can be taken from the order below. -/
structure StepReadsInRange (ta : Integrator α) : Prop where
  tape : ∀ m ≤ ta.order, ∀ k < ta.state.size, m * ta.ir.nEntries + k < ta.tape.size
  terminal : ∀ i < ta.terminal.size, ta.state.size + i < ta.outputs.size ∧ i < ta.cooldowns.size
  nonTerminal : ∀ i < ta.nonTerminal.size,
    ta.state.size + ta.terminal.size + i < ta.outputs.size
  output_tape : ∀ (j i : Nat), ta.outputs[j]? = some (OutputRef.entry i) →
    ∀ m ≤ ta.order, m * ta.ir.nEntries + i < ta.tape.size
  order_pred : ta.order - 1 + 1 = ta.order

omit [Scalar α] in
/-- The tape holds the coefficients of every entry in every order. -/
theorem Shaped.tape_index {ta : Integrator α} (h : ta.Shaped) {m k : Nat} (hm : m ≤ ta.order)
    (hk : k < ta.ir.nEntries) : m * ta.ir.nEntries + k < ta.tape.size := by
  -- the coefficients of order `m` end before those of order `m + 1`
  have hrow : (m + 1) * ta.ir.nEntries ≤ (ta.order + 1) * ta.ir.nEntries :=
    Nat.mul_le_mul_right _ (Nat.succ_le_succ hm)
  rw [h.tape_size]
  rw [Nat.succ_mul] at hrow
  omega

omit [Scalar α] in
theorem Shaped.stepReadsInRange {ta : Integrator α} (h : ta.Shaped) : ta.StepReadsInRange where
  tape m hm k hk := by
    have := h.dimension_le
    rw [h.state_size] at hk
    exact h.tape_index hm (by omega)
  terminal i hi := by
    rw [h.outputs_size, h.state_size, h.cooldowns_size]
    omega
  nonTerminal i hi := by
    rw [h.outputs_size, h.state_size]
    omega
  output_tape j i hj m hm := h.tape_index hm (h.outputs_below j i hj)
  order_pred := by
    have := h.order_ge
    unfold minOrder at this
    omega

/-- Every integrator that `Builder.build` returns for a system with one right-hand side per
state variable has the shape, and keeps it through any public run: steps in either direction
and of bounded size, propagations of every kind, state updates, writes to the state and the
parameters, time and callback changes and cooldown resets, in any number, with the step
callbacks and the event callbacks that run during them making such operations of their own.
So every step it takes reads the tape, the outputs and the cooldowns in range. -/
theorem shaped_after_operations :
    (∀ (b : Builder α) (ta : Integrator α), b.system.rhs.length = b.system.dimension →
      b.build = .ok ta → ta.Shaped) ∧
    (∀ ta ta' : Integrator α, ta.Shaped → PublicRun ta ta' →
      ta'.Shaped ∧ ta'.StepReadsInRange) := by
  refine ⟨fun b ta hsys hbuild => build_shaped hsys hbuild, fun ta ta' hshaped hrun => ?_⟩
  have hshaped' := hrun.sameShape.shaped hshaped
  exact ⟨hshaped', hshaped'.stepReadsInRange⟩

/-- A code whose step-callback closure writes the number of its calls so far into the first
parameter, whose terminal-event closure takes a step of its own and lets the propagation carry
on, and whose non-terminal-event closure resets the cooldowns. -/
@[reducible] def kickCode : CallbackCode ℚ where
  preHook _ memo ta := (ta, memo, .ok ())
  call _ memo ta := (ta.writePar 0 memo, memo + 1, .ok true)
  terminal _ ta _ := (ta.step.1, true)
  nonTerminal _ ta _ _ := ta.resetCooldowns

/-- An integrator for the spring `x' = v, v' = -(p₀ x)` with the stiffness `p₀ = 4` as a
parameter, a terminal event at `x = 0` and a non-terminal event at `v = 0`, each with a closure
of `kickCode`, and a closure of `kickCode` as its step callback. Its code has four entries, the
state, `p₀ x` and `-(p₀ x)`; the blocks are left empty, the shape not depending on them. -/
def springIntegrator : Integrator ℚ :=
  { system := ⟨["x", "v"], [.var "v", .node .anon .neg [.node .anon .mul [.param 0, .var "x"]]]⟩,
    variational := none, state := #[1, 0], time := (0, 0), pars := #[4], tol := 1 / 10 ^ 16,
    order := 2, config := {}, dc := default, outputs := #[.entry 1, .entry 3, .entry 0, .entry 1],
    ir := { order := 2, nEntries := 4, nParams := 1, compact := false, blocks := [] },
    tape := Array.replicate 12 0,
    terminal := #[{ expr := .var "x", callback := some (.closure 0) }],
    nonTerminal := #[{ expr := .var "v", callback := some (.closure 1) }],
    cooldowns := #[none], lastH := 0, lastHits := [], callback := some (.closure 0 0),
    journal := #[], readings := #[] }

/-- The spring's integrator after a propagation to time 10 with its own callback, a step and a
write to the stiffness, the closures being those of `kickCode`. -/
def springAfter : Integrator ℚ :=
  [.propagateUntil 10 {}, .step, .writePar 0 9].foldl (@Operation.apply ℚ _ kickCode)
    springIntegrator

/-- The spring's integrator has the shape, its run with `kickCode` is a public run, since the
closures of `kickCode` run public operations with no closures of their own, and so the
integrator after it has the shape and reads in range. -/
theorem spring_shaped_after_run :
    springIntegrator.Shaped ∧ PublicRun springIntegrator springAfter ∧ springAfter.Shaped ∧
      springAfter.StepReadsInRange := by
  have hcode : kickCode.ActsPublicly := by
    intro ta ta' hm
    cases hm with
    | preHook id memo => exact .nil ta
    | call id memo =>
      exact .cons .inert CallbackCode.inert_actsPublicly (.writePar 0 memo) (.nil _)
    | terminal id dir => exact .cons .inert CallbackCode.inert_actsPublicly .step (.nil _)
    | nonTerminal id t dir =>
      exact .cons .inert CallbackCode.inert_actsPublicly .resetCooldowns (.nil _)
  have hpars : ∀ e ∈ springIntegrator.system.rhs ++ springIntegrator.eventExprs,
      ∀ p ∈ e.params, p < springIntegrator.pars.size := by
    intro e he p hp
    obtain ⟨q, hq, rfl⟩ := Expr.mem_params.1 hp
    simp only [springIntegrator, eventExprs, List.mem_append, List.mem_cons, List.mem_nil_iff,
      or_false, List.map_cons, List.map_nil] at he
    rcases he with (rfl | rfl) | rfl | rfl
    all_goals simp [Expr.node, Expr.occurs_func_iff, Expr.occurs_var_iff] at hq
    -- the stiffness is the only parameter
    cases hq.eq_of_args_nil rfl
    decide
  have houts : ∀ (j i : Nat), springIntegrator.outputs[j]? = some (OutputRef.entry i) →
      i < springIntegrator.ir.nEntries := by
    intro j i h
    rcases j with _ | _ | _ | _ | j <;> simp [springIntegrator] at h ⊢ <;> omega
  have hshaped : springIntegrator.Shaped :=
    { state_size := rfl, outputs_size := rfl, tape_size := rfl, cooldowns_size := rfl,
      pars_cover := hpars, order_ge := by decide, order_le := by decide,
      dimension_le := by decide, outputs_below := houts }
  have hrun : PublicRun springIntegrator springAfter :=
    @PublicRun.of_operations ℚ _ kickCode hcode _ springIntegrator
  exact ⟨hshaped, hrun, shaped_after_operations.2 _ _ hshaped hrun⟩

end Integrator

end TaylorOde
