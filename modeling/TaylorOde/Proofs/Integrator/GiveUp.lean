import TaylorOde.Proofs.Integrator.CallbackProtocol
/-!
# Steps that give up

A step checks its coefficients, its size and the state it reaches for non-finite values
before it commits anything, so a step that gives up (`nonFinite`) leaves the integrator as it
was but for the tape: the state, both words of the time, the last step and its hits, the
cooldowns and the journal, where the event callbacks leave their trace
(`stepCore_of_nonFinite`).

In a propagation, a step that gives up ends the run at once. Whichever turn of the loop it
comes in, the loop ends there with `nonFinite`: the step is not counted, the step callback is
not called after it, and the calls of the run are those of the turns before
(`LoopReaches.propagateLoop_of_givesUp`). `LoopReaches` names the turns a run of the loop passes through.

Main statement: `nonFinite_step_commits_nothing`.
-/

namespace TaylorOde

namespace Integrator

variable {α : Type} [Scalar α] [CallbackCode α]

open Scalar

/-! ## One step -/

section Step

variable {ta : Integrator α} {limit : α} {forward : Bool}

omit [CallbackCode α] in
/-- A step that commits reports a size, a time limit or a terminal event, never `nonFinite`. -/
theorem stepPlan_outcome_ne : ∀ r ∈ ta.stepPlan limit forward, r.2.1 ≠ .nonFinite := by
  unfold stepPlan
  split
  · nofun
  dsimp only
  -- the size check gives the time limit or success
  generalize hsize : (if Scalar.le limit ta.deducedStep = true then (limit, StepOutcome.timeLimit)
    else (ta.deducedStep, StepOutcome.success)) = size
  obtain ⟨h0, o0⟩ := size
  have ho0 : o0 ≠ .nonFinite := by
    split at hsize <;> cases hsize <;> nofun
  dsimp only
  split
  · nofun
  intro r hr
  obtain ⟨-, hr⟩ := Option.ite_none_left_eq_some.1 hr
  cases hr
  -- a terminal crossing replaces the outcome by its event
  rcases ta.firstTerminal h0 forward with _ | ⟨i, c, g⟩
  · exact ho0
  · nofun

/-- A step from the tape gives up exactly when its plan finds a non-finite value, and then it
changes nothing. -/
theorem stepFrom_of_nonFinite (h : (ta.stepFrom limit forward).2.outcome = .nonFinite) :
    ta.stepPlan limit forward = none ∧ (ta.stepFrom limit forward).1 = ta := by
  unfold stepFrom at h ⊢
  rcases hplan : ta.stepPlan limit forward with _ | ⟨hs, o, hits, first⟩
  · exact ⟨rfl, rfl⟩
  · rw [hplan] at h
    exact absurd h (stepPlan_outcome_ne _ hplan)

/-- A step whose coefficients are not all finite gives up. -/
theorem stepFrom_of_not_finiteCoefficients (h : ta.finiteCoefficients = false) :
    ta.stepFrom limit forward = (ta, ⟨.nonFinite, zero, false⟩) := by
  have hplan : ta.stepPlan limit forward = none := by
    unfold stepPlan
    rw [h]
    rfl
  unfold stepFrom
  rw [hplan]

/-- A step that gives up changes nothing but the tape. -/
theorem stepCore_of_nonFinite (h : (ta.stepCore limit forward).2.outcome = .nonFinite) :
    (ta.stepCore limit forward).1 = { ta with tape := ta.computeTape } :=
  (stepFrom_of_nonFinite h).2

end Step

/-! ## A turn of the loop -/

/-- The magnitude of the time still to go to `tEnd`. -/
def remainingTime (tEnd : α) (ta : Integrator α) : α :=
  Scalar.abs ((tEnd - ta.time.1) - ta.time.2)

/-- The turn of the loop at `ps` takes a step, being neither at the step limit nor at the
final time, and that step gives up. -/
def GivesUp (tEnd : α) (maxSteps : Option Nat) (maxDeltaT : α) (forward : Bool)
    (ps : PropagateState α) : Prop :=
  maxSteps.any (ps.nSteps ≥ ·) = false ∧ Scalar.eq (remainingTime tEnd ps.ta) zero = false ∧
    (ps.ta.stepCore (Scalar.min (remainingTime tEnd ps.ta) maxDeltaT) forward).2.outcome =
      .nonFinite

/-- The state a turn whose step gave up ends the loop in: that of the turn, with the tape of the
step. -/
def givenUp (ps : PropagateState α) : PropagateState α :=
  { ps with ta := { ps.ta with tape := ps.ta.computeTape } }

section Turn

variable {tEnd : α} {maxSteps : Option Nat} {maxDeltaT : α} {forward : Bool}
  {ps : PropagateState α}

/-- A turn whose step gives up ends the propagation with `nonFinite`, before any booking. -/
theorem advance_of_givesUp (h : GivesUp tEnd maxSteps maxDeltaT forward ps) :
    advance tEnd maxSteps maxDeltaT forward ps = .inl (givenUp ps, .nonFinite) := by
  obtain ⟨hlimit, hzero, hstep⟩ := h
  have hcore := stepCore_of_nonFinite hstep
  unfold advance
  simp only [remainingTime] at hlimit hzero hstep hcore
  rw [if_neg (by simp [hlimit]), if_neg (by simp [hzero])]
  dsimp only
  rcases hr : ps.ta.stepCore (Scalar.min (Scalar.abs ((tEnd - ps.ta.time.1) - ps.ta.time.2))
    maxDeltaT) forward with ⟨ta', report⟩
  rw [hr] at hstep hcore
  dsimp only at hstep hcore ⊢
  rw [hstep, hcore]
  rfl

/-- The run of the loop from a turn whose step gives up: it ends there, with no call. -/
theorem propagateLoop_givesUp_here (fuel : Nat) (h : GivesUp tEnd maxSteps maxDeltaT forward ps) :
    propagateLoop tEnd maxSteps maxDeltaT forward (fuel + 1) ps = (givenUp ps, .ok .nonFinite) ∧
      loopCalls tEnd maxSteps maxDeltaT forward (fuel + 1) ps = [] := by
  rw [propagateLoop, loopCalls, advance_of_givesUp h]
  exact ⟨rfl, rfl⟩

end Turn

/-! ## The turns of a run -/

/-- `LoopReaches fuel ps calls k psk`: a run of the loop from `ps` with `fuel` turns left
reaches the turn that starts at `psk` with `k` turns left, after turns that each committed a
step and let the run go on, calling the callback `calls`. -/
inductive LoopReaches (tEnd : α) (maxSteps : Option Nat) (maxDeltaT : α) (forward : Bool) :
    Nat → PropagateState α → List (CallRecord α) → Nat → PropagateState α → Prop
  | here (fuel : Nat) (ps : PropagateState α) : LoopReaches tEnd maxSteps maxDeltaT forward fuel ps [] fuel ps
  | turn {fuel k : Nat} {ps ps₁ ps₂ psk : PropagateState α} {report : StepReport α}
      {reached : Bool} {calls : List (CallRecord α)}
      (hadv : advance tEnd maxSteps maxDeltaT forward ps = .inr (ps₁, report, reached))
      (hset : settle ps₁ report reached = .inr ps₂)
      (rest : LoopReaches tEnd maxSteps maxDeltaT forward fuel ps₂ calls k psk) :
      LoopReaches tEnd maxSteps maxDeltaT forward (fuel + 1) ps
        ((stepCall ps₁ report).toList ++ calls) k psk

/-- The callback's part in a turn does not count steps. -/
theorem callbackTurn_nSteps (ps : PropagateState α) (report : StepReport α) :
    (callbackTurn ps report).1.nSteps = ps.nSteps := by
  unfold callbackTurn runCallback
  split
  · rfl
  · split
    · rfl
    · dsimp only
      split
      · rfl
      · split <;> rfl

namespace LoopReaches

variable {tEnd : α} {maxSteps : Option Nat} {maxDeltaT : α} {forward : Bool}
  {fuel k : Nat} {ps psk : PropagateState α} {calls : List (CallRecord α)}

/-- Every turn on the way committed one step: the count grows by the turns taken. -/
theorem nSteps (h : LoopReaches tEnd maxSteps maxDeltaT forward fuel ps calls k psk) :
    k ≤ fuel ∧ psk.nSteps = ps.nSteps + (fuel - k) := by
  induction h with
  | here => simp
  | turn hadv hset rest ih =>
    obtain ⟨hk, hn⟩ := ih
    have hn₁ := (advance_eq_inr hadv).2
    have hn₂ := congrArg PropagateState.nSteps (settle_eq_inr hset).1
    rw [callbackTurn_nSteps] at hn₂
    omega

/-- A run of the loop that reaches a turn whose step gives up ends at that turn with
`nonFinite`, in the state of the turn but for the tape, having made only the calls of the turns
before. -/
theorem propagateLoop_of_givesUp
    (h : LoopReaches tEnd maxSteps maxDeltaT forward fuel ps calls (k + 1) psk)
    (hgive : GivesUp tEnd maxSteps maxDeltaT forward psk) :
    propagateLoop tEnd maxSteps maxDeltaT forward fuel ps = (givenUp psk, .ok .nonFinite) ∧
      loopCalls tEnd maxSteps maxDeltaT forward fuel ps = calls := by
  -- induction on the turns before the one that gives up
  generalize hk : k + 1 = k' at h
  induction h with
  | here fuel ps =>
    subst hk
    exact propagateLoop_givesUp_here k hgive
  | turn hadv hset rest ih =>
    obtain ⟨hloop, hcalls⟩ := ih hgive hk
    rw [propagateLoop, loopCalls, hadv]
    dsimp only
    rw [hset]
    exact ⟨hloop, by dsimp only; rw [hcalls]⟩

end LoopReaches

/-! ## A whole propagation -/

/-- The direction a propagation from `ps` towards `tEnd` steps in. -/
def forwardTo (tEnd : α) (ps : PropagateState α) : Bool := Scalar.le ps.ta.time.1 tEnd

/-- A propagation whose loop reaches a turn whose step gives up ends with `nonFinite`: it counts
the steps of the turns before and no more, makes only their calls, and leaves the integrator
with the state, time, last step, hits, cooldowns and journal of the turn. -/
theorem propagateCore_of_givesUp (ta : Integrator α) (tEnd : α) (opts : PropagateOptions α)
    (cursor : Option (GridCursor α)) {maxDeltaT : α} {calls : List (CallRecord α)} {k : Nat}
    {psk : PropagateState α} (hmax : maxStepOf tEnd opts = .ok maxDeltaT)
    (hpre : (propagateStart ta opts cursor).2 = .ok ())
    (hreach : LoopReaches tEnd opts.maxSteps maxDeltaT (forwardTo tEnd (propagateStart ta opts
      cursor).1) propagationStepBound (propagateStart ta opts cursor).1 calls (k + 1) psk)
    (hgive : GivesUp tEnd opts.maxSteps maxDeltaT (forwardTo tEnd (propagateStart ta opts
      cursor).1) psk) :
    ∃ res c, (ta.propagateCore tEnd opts cursor).2 = .ok (res, c) ∧ res.outcome = .nonFinite ∧
      res.nSteps = propagationStepBound - (k + 1) ∧
      (∀ pre cs, propagateCallbacks ta tEnd opts cursor = some (pre, cs) → cs = calls) ∧
      (ta.propagateCore tEnd opts cursor).1.state = psk.ta.state ∧
      (ta.propagateCore tEnd opts cursor).1.time = psk.ta.time ∧
      (ta.propagateCore tEnd opts cursor).1.lastH = psk.ta.lastH ∧
      (ta.propagateCore tEnd opts cursor).1.lastHits = psk.ta.lastHits ∧
      (ta.propagateCore tEnd opts cursor).1.cooldowns = psk.ta.cooldowns ∧
      (ta.propagateCore tEnd opts cursor).1.journal = psk.ta.journal := by
  obtain ⟨hloop, hcalls⟩ := hreach.propagateLoop_of_givesUp hgive
  have hcount := hreach.nSteps
  have hstart : (propagateStart ta opts cursor).1.nSteps = 0 := by
    unfold propagateStart
    split <;> rfl
  have hcore : ta.propagateCore tEnd opts cursor =
      propagateEnd (effectiveCallback ta opts).2 (givenUp psk) (.ok .nonFinite) := by
    unfold propagateCore
    rw [hmax]
    dsimp only
    rw [hpre]
    exact congrArg (fun r => propagateEnd _ r.1 r.2) hloop
  rw [hcore]
  refine ⟨_, _, rfl, rfl, by simp [givenUp, hcount.2, hstart], fun pre cs hlog => ?_, ?_⟩
  · -- the callback's log is the pre-hook's run and the calls of the loop
    unfold propagateCallbacks at hlog
    rw [hmax] at hlog
    split at hlog
    · rename_i c hm hc
      cases hm
      obtain ⟨hpre', -, -⟩ := propagateStart_of_some cursor hc
      simp only [Option.some.injEq, Prod.mk.injEq] at hlog
      obtain ⟨-, rfl⟩ := hlog
      rw [hpre'] at hpre
      rw [hpre]
      exact hcalls
    · cases hlog
  · unfold propagateEnd givenUp
    split <;> exact ⟨rfl, rfl, rfl, rfl, rfl, rfl⟩

/-! ## What a step that gives up commits -/

/-- A step that gives up commits nothing. A step forward, a step backward or a step of bounded
size that reports `nonFinite` leaves the integrator as it was but for the tape: the state, the
time, the last step and its hits, the cooldowns and the journal, where the event callbacks write,
are those from before. (A bounded step refused for a NaN bound returns no integrator at all.) A
propagation whose loop comes to a step that gives up ends there with `nonFinite`: it does not
count that step, calls the callback only for the turns before it, and leaves the integrator with
the state, time, last step, hits, cooldowns and journal of the turn. -/
theorem nonFinite_step_commits_nothing :
    (∀ ta : Integrator α, ta.step.2.outcome = .nonFinite →
      ta.step.1 = { ta with tape := ta.computeTape }) ∧
    (∀ ta : Integrator α, ta.stepBackward.2.outcome = .nonFinite →
      ta.stepBackward.1 = { ta with tape := ta.computeTape }) ∧
    (∀ (ta ta' : Integrator α) (dt : α) (r : StepReport α), ta.stepWith dt = .ok (ta', r) →
      r.outcome = .nonFinite → ta' = { ta with tape := ta.computeTape }) ∧
    (∀ (ta : Integrator α) (tEnd : α) (opts : PropagateOptions α)
      (cursor : Option (GridCursor α)) (maxDeltaT : α) (calls : List (CallRecord α)) (k : Nat)
      (psk : PropagateState α),
      maxStepOf tEnd opts = .ok maxDeltaT → (propagateStart ta opts cursor).2 = .ok () →
      LoopReaches tEnd opts.maxSteps maxDeltaT (forwardTo tEnd (propagateStart ta opts cursor).1)
        propagationStepBound (propagateStart ta opts cursor).1 calls (k + 1) psk →
      GivesUp tEnd opts.maxSteps maxDeltaT (forwardTo tEnd (propagateStart ta opts cursor).1)
        psk →
      ∃ res c, (ta.propagateCore tEnd opts cursor).2 = .ok (res, c) ∧
        res.outcome = .nonFinite ∧ res.nSteps = propagationStepBound - (k + 1) ∧
        (∀ pre cs, propagateCallbacks ta tEnd opts cursor = some (pre, cs) → cs = calls) ∧
        (ta.propagateCore tEnd opts cursor).1.state = psk.ta.state ∧
        (ta.propagateCore tEnd opts cursor).1.time = psk.ta.time ∧
        (ta.propagateCore tEnd opts cursor).1.lastH = psk.ta.lastH ∧
        (ta.propagateCore tEnd opts cursor).1.lastHits = psk.ta.lastHits ∧
        (ta.propagateCore tEnd opts cursor).1.cooldowns = psk.ta.cooldowns ∧
        (ta.propagateCore tEnd opts cursor).1.journal = psk.ta.journal) := by
  refine ⟨fun ta => stepCore_of_nonFinite, fun ta => stepCore_of_nonFinite,
    fun ta ta' dt r hstep hr => ?_,
    fun ta tEnd opts cursor _ _ _ _ hmax hpre hreach hgive =>
      propagateCore_of_givesUp ta tEnd opts cursor hmax hpre hreach hgive⟩
  -- a bounded step that returns an integrator is a step of the core
  unfold stepWith at hstep
  split at hstep
  · cases hstep
  · have hcore := @stepCore_of_nonFinite _ _ _ ta (abs dt) (le zero dt)
    rcases hc : ta.stepCore (abs dt) (le zero dt) with ⟨ta₁, r₁⟩
    rw [hc] at hstep hcore
    cases hstep
    exact hcore hr

/-- An integrator for `x' = x` with no Taylor function, whose state is not a number. -/
def nanIntegrator : Integrator Float :=
  { system := ⟨["x"], [.var "x"]⟩, variational := none, state := #[0.0 / 0.0],
    time := (0.0, 0.0), pars := #[], tol := epsilon, order := 2, config := {}, dc := default,
    outputs := #[], ir := default, tape := #[0.0], terminal := #[], nonTerminal := #[],
    cooldowns := #[], lastH := 0.0, lastHits := [], callback := none, journal := #[],
    readings := #[] }

/-- From a state that is not a number, a step and a propagation to `1` both give up at once:
the step keeps the state, and the propagation takes no step. -/
theorem nanIntegrator_gives_up :
    nanIntegrator.step.2.outcome = .nonFinite ∧
      nanIntegrator.step.1 = { nanIntegrator with tape := nanIntegrator.computeTape } ∧
      GivesUp 1.0 none inf true (propagateStart nanIntegrator {} none).1 ∧
      ∃ res c, (nanIntegrator.propagateCore 1.0 {} none).2 = .ok (res, c) ∧
        res.outcome = .nonFinite ∧ res.nSteps = 0 ∧
        (nanIntegrator.propagateCore 1.0 {} none).1.state = nanIntegrator.state := by
  have hnan : { nanIntegrator with tape := nanIntegrator.computeTape }.finiteCoefficients =
      false := by
    decide +kernel
  have hstep : nanIntegrator.step.2.outcome = .nonFinite := by
    unfold step stepCore
    rw [stepFrom_of_not_finiteCoefficients hnan]
  have hstart : (propagateStart nanIntegrator {} none).1.ta = nanIntegrator := rfl
  have hgive : GivesUp 1.0 none inf true (propagateStart nanIntegrator {} none).1 := by
    refine ⟨rfl, ?_, ?_⟩
    all_goals rw [hstart]
    · decide +kernel
    unfold stepCore
    rw [stepFrom_of_not_finiteCoefficients hnan]
  have hmax : maxStepOf (1.0 : Float) {} = .ok inf := by
    unfold maxStepOf
    rw [if_neg (by decide +kernel), if_neg (by decide +kernel)]
    rfl
  obtain ⟨hcore, -, -, hloop⟩ := nonFinite_step_commits_nothing (α := Float)
  obtain ⟨res, c, hres, hout, hn, -, hstate, -⟩ := hloop nanIntegrator 1.0 {} none inf []
    (propagationStepBound - 1) _ hmax rfl (.here _ _) hgive
  exact ⟨hstep, hcore nanIntegrator hstep, hgive, res, c, hres, hout, by rw [hn]; rfl, hstate⟩

end Integrator

end TaylorOde
