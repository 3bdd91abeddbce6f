import TaylorOde.Integrator.Propagate
import TaylorOde.Proofs.Scalar.Exact
/-!
# The step-callback protocol of a propagation

A propagation runs its callback's pre-hook once, before the first step, and calls the
callback after every committed step except one that stops the propagation at a terminal
event. A call that fails ends the propagation with its failure, a call that answers but moves
the time breaks the event protocol, and a call that answers `false` stops the propagation.

The calls are observed through a log, `loopCalls`: for every call, the time before it and the
callback's run, read off the state the loop calls the callback in. `LoopProtocol` is what a
run of the loop guarantees about its log. It holds of every run (`loopProtocol`), by induction
on the turns of the loop from one lemma for each half of a turn. `propagateCallbacks` puts the
pre-hook's run in front of the log, and `CallbackProtocol` states the protocol of a whole
propagation, which holds of the three ways to propagate (`propagation_callback_protocol`).
-/

namespace TaylorOde

/-- A call of the callback after a step: the time before it, and the callback's run. -/
structure CallRecord (α : Type) where
  before : α × α
  run : CallbackRun α Bool

namespace CallRecord

variable {α : Type} [Scalar α]

/-- Whether the call moved either word of the time, by the comparison the propagation makes. -/
def movesTime (x : CallRecord α) : Bool :=
  !(Scalar.eq x.run.ta.time.1 x.before.1 && Scalar.eq x.run.ta.time.2 x.before.2)

/-- The call answered `keep` and left the time where it was. -/
def Passes (x : CallRecord α) (keep : Bool) : Prop :=
  x.run.result = .ok keep ∧ x.movesTime = false

/-- What the propagation makes of the call is `keep`: the call's failure, a protocol violation
when the call answered but moved the time, and the call's answer otherwise. -/
def Judged (x : CallRecord α) (keep : Outcome Bool) : Prop :=
  (∀ e, x.run.result = .error e → keep = .error e) ∧
  (∀ k, x.run.result = .ok k → x.movesTime = true →
    ∃ e, keep = .error e ∧ e.kind = .eventProtocolViolation) ∧
  (∀ k, keep = .ok k ↔ x.Passes k)

end CallRecord

namespace StepCallback

variable {α β : Type}

/-! ### The members of a set -/

/-- The runs of the members of a set, in member order: every member runs on the integrator the
member before it left, and no member runs after one that fails. -/
def memberRuns (run : StepCallback → Integrator α → CallbackRun α β) :
    List StepCallback → Integrator α → List (CallbackRun α β)
  | [], _ => []
  | c :: rest, s =>
    let r := run c s
    r :: match r.result with
      | .error _ => []
      | .ok _ => memberRuns run rest r.ta

/-- The last run of the members of a set, after a first member that answered. -/
theorem getLast?_memberRuns_cons {run : StepCallback → Integrator α → CallbackRun α β}
    {c : StepCallback} {rest : List StepCallback} {s : Integrator α} {b : β}
    (h : (run c s).result = .ok b) :
    (memberRuns run (c :: rest) s).getLast? =
      some (((memberRuns run rest (run c s).ta).getLast?).getD (run c s)) := by
  simp [memberRuns, h, List.getLast?_cons]

variable [Scalar α] [CallbackCode α]

omit [Scalar α] in
/-- A set runs the pre-hooks of its members in order: it succeeds exactly when every member's
pre-hook ran and succeeded, fails with the failure of the member it stopped at, and leaves the
integrator as the last pre-hook that ran left it. -/
theorem preHookAll_spec (cs : List StepCallback) (s : Integrator α) :
    ((preHookAll cs s).1 = .ok () ↔ (memberRuns preHook cs s).length = cs.length ∧
        ∀ r ∈ memberRuns preHook cs s, r.result = .ok ()) ∧
      (∀ e, (preHookAll cs s).1 = .error e ↔
        (memberRuns preHook cs s).getLast?.map (·.result) = some (.error e)) ∧
      (preHookAll cs s).2.2 = ((memberRuns preHook cs s).getLast?.map (·.ta)).getD s := by
  induction cs generalizing s with
  | nil => simp [preHookAll, memberRuns]
  | cons c rest ih =>
    cases hr : (preHook c s).result with
    | error e' =>
      have hrun : memberRuns preHook (c :: rest) s = [preHook c s] := by simp [memberRuns, hr]
      simp [preHookAll, hrun, hr]
    | ok u =>
      obtain ⟨hok, herr, hafter⟩ := ih (preHook c s).ta
      have hrun : memberRuns preHook (c :: rest) s =
          preHook c s :: memberRuns preHook rest (preHook c s).ta := by
        simp [memberRuns, hr]
      have hlast : (memberRuns preHook (c :: rest) s).getLast? =
          some (((memberRuns preHook rest (preHook c s).ta).getLast?).getD (preHook c s)) :=
        getLast?_memberRuns_cons hr
      simp only [preHookAll, hr]
      refine ⟨?_, fun e => ?_, ?_⟩
      · rw [hok, hrun]
        simp [hr]
      · rw [herr, hlast]
        cases (memberRuns preHook rest (preHook c s).ta).getLast? <;> simp [hr]
      · rw [hafter, hlast]
        cases (memberRuns preHook rest (preHook c s).ta).getLast? <;> rfl

/-- A set calls its members in order: it answers exactly when every member ran and answered,
and answers `false` when a member did; it fails with the failure of the member it stopped at;
and it leaves the integrator as the last member that ran left it. -/
theorem callAll_spec (cs : List StepCallback) (keep : Bool) (s : Integrator α) :
    (∀ b, (callAll cs keep s).1 = .ok b ↔ (memberRuns call cs s).length = cs.length ∧
        ∃ ks : List Bool, (memberRuns call cs s).map (·.result) = ks.map .ok ∧
          b = (keep && ks.all id)) ∧
      (∀ e, (callAll cs keep s).1 = .error e ↔
        (memberRuns call cs s).getLast?.map (·.result) = some (.error e)) ∧
      (callAll cs keep s).2.2 = ((memberRuns call cs s).getLast?.map (·.ta)).getD s := by
  induction cs generalizing keep s with
  | nil => simp [callAll, memberRuns, eq_comm]
  | cons c rest ih =>
    cases hr : (call c s).result with
    | error e' =>
      have hrun : memberRuns call (c :: rest) s = [call c s] := by simp [memberRuns, hr]
      refine ⟨fun b => ?_, fun e => by simp [callAll, hrun, hr], by simp [callAll, hrun, hr]⟩
      simp only [callAll, hr, hrun, reduceCtorEq, false_iff, not_and, not_exists]
      intro _ ks hks
      cases ks <;> simp [hr] at hks
    | ok k =>
      obtain ⟨hok, herr, hafter⟩ := ih (keep && k) (call c s).ta
      have hrun : memberRuns call (c :: rest) s =
          call c s :: memberRuns call rest (call c s).ta := by
        simp [memberRuns, hr]
      have hlast : (memberRuns call (c :: rest) s).getLast? =
          some (((memberRuns call rest (call c s).ta).getLast?).getD (call c s)) :=
        getLast?_memberRuns_cons hr
      simp only [callAll, hr]
      refine ⟨fun b => ?_, fun e => ?_, ?_⟩
      · -- the answers of the members are `k` followed by those of the rest
        rw [hok, hrun]
        constructor
        · rintro ⟨hl, ks, hks, rfl⟩
          exact ⟨by simp [hl], k :: ks, by simp [hr, hks], by simp [Bool.and_assoc]⟩
        · rintro ⟨hl, _ | ⟨k', ks⟩, hks, rfl⟩
          · simp at hks
          · simp only [List.map_cons, List.cons.injEq, hr, Except.ok.injEq] at hks
            obtain ⟨rfl, hks⟩ := hks
            exact ⟨by simpa using hl, ks, hks, by simp [Bool.and_assoc]⟩
      · rw [herr, hlast]
        cases (memberRuns call rest (call c s).ta).getLast? <;> simp [hr]
      · rw [hafter, hlast]
        cases (memberRuns call rest (call c s).ta).getLast? <;> rfl

end StepCallback

namespace Integrator

variable {α : Type} [Scalar α] [CallbackCode α]

open Scalar

/-! ### The log of the calls -/

/-- The call the callback gets after a committed step with report `report`, if any. -/
def stepCall (ps : PropagateState α) (report : StepReport α) : Option (CallRecord α) :=
  if report.stops then none else ps.callback.map fun cb => ⟨ps.ta.time, cb.call ps.ta⟩

/-- The calls of the callback in a run of the loop, in order. -/
def loopCalls (tEnd : α) (maxSteps : Option Nat) (maxDeltaT : α) (forward : Bool) :
    Nat → PropagateState α → List (CallRecord α)
  | 0, _ => []
  | fuel + 1, ps =>
    match advance tEnd maxSteps maxDeltaT forward ps with
    | .inl _ => []
    | .inr (ps, report, reached) =>
      (stepCall ps report).toList ++
        match settle ps report reached with
        | .inl _ => []
        | .inr ps => loopCalls tEnd maxSteps maxDeltaT forward fuel ps

/-! ### The first half of a turn -/

section Advance

variable {tEnd : α} {maxSteps : Option Nat} {maxDeltaT : α} {forward : Bool}
  {ps ps' : PropagateState α}

/-- A propagation that ends before a step keeps its callback and its step count, and ends
neither at a terminal event nor by its callback. -/
theorem advance_eq_inl {o : StepOutcome}
    (h : advance tEnd maxSteps maxDeltaT forward ps = .inl (ps', o)) :
    ps'.callback = ps.callback ∧ ps'.nSteps = ps.nSteps ∧ o.isTerminal = false ∧
      o ≠ .callbackStop := by
  unfold advance at h
  dsimp only at h
  split at h
  · cases h
    exact ⟨rfl, rfl, rfl, nofun⟩
  split at h
  · cases h
    exact ⟨rfl, rfl, rfl, nofun⟩
  split at h
  · cases h
    exact ⟨rfl, rfl, rfl, nofun⟩
  cases h

/-- A committed step keeps the callback and counts one step more. -/
theorem advance_eq_inr {report : StepReport α} {reached : Bool}
    (h : advance tEnd maxSteps maxDeltaT forward ps = .inr (ps', report, reached)) :
    ps'.callback = ps.callback ∧ ps'.nSteps = ps.nSteps + 1 := by
  unfold advance at h
  dsimp only at h
  split at h
  · cases h
  split at h
  · cases h
  split at h
  · cases h
  cases h
  constructor <;> split <;> rfl

end Advance

/-! ### The second half of a turn -/

section Settle

variable {ps ps' : PropagateState α} {report : StepReport α} {reached : Bool}

/-- The callback's run after a step leaves the callback as the call left it, keeps the step
count, and is judged by the event protocol. -/
theorem runCallback_of_some {cb : StepCallback} (h : ps.callback = some cb) :
    (runCallback ps).1.callback = some (cb.call ps.ta).callback ∧
      (runCallback ps).1.nSteps = ps.nSteps ∧
      CallRecord.Judged ⟨ps.ta.time, cb.call ps.ta⟩ (runCallback ps).2 := by
  unfold runCallback
  rw [h]
  dsimp only
  have hmoved : CallRecord.movesTime ⟨ps.ta.time, cb.call ps.ta⟩ =
      !(Scalar.eq (cb.call ps.ta).ta.time.1 ps.ta.time.1 &&
        Scalar.eq (cb.call ps.ta).ta.time.2 ps.ta.time.2) := rfl
  rw [← hmoved]
  cases hr : (cb.call ps.ta).result with
  | error e => simp [CallRecord.Judged, CallRecord.Passes, hr]
  | ok keep =>
    cases hm : CallRecord.movesTime ⟨ps.ta.time, cb.call ps.ta⟩ <;>
      simp [CallRecord.Judged, CallRecord.Passes, hr, hm, Error.protocol]

/-- A step the callback is not called after stops the propagation at a terminal event, when
the propagation has a callback. -/
theorem callbackTurn_of_stepCall_none (hcb : ps.callback.isSome)
    (h : stepCall ps report = none) : report.stops = true ∧ callbackTurn ps report = (ps, .ok true) := by
  unfold stepCall at h
  split at h
  · rename_i hstops
    exact ⟨hstops, by simp [callbackTurn, hstops]⟩
  · obtain ⟨cb, hcb⟩ := Option.isSome_iff_exists.1 hcb
    simp [hcb] at h

/-- The callback's part in a turn with a call is that call, judged by the event protocol. -/
theorem callbackTurn_of_stepCall_some {x : CallRecord α} (h : stepCall ps report = some x) :
    report.stops = false ∧ (callbackTurn ps report).1.callback = some x.run.callback ∧
      (callbackTurn ps report).1.nSteps = ps.nSteps ∧ x.Judged (callbackTurn ps report).2 := by
  unfold stepCall at h
  split at h
  · cases h
  · rename_i hstops
    cases hcb : ps.callback with
    | none => simp [hcb] at h
    | some cb =>
      simp only [hcb, Option.map_some, Option.some.injEq] at h
      subst h
      simp only [Bool.not_eq_true] at hstops
      simpa [callbackTurn, hstops] using runCallback_of_some hcb

/-- Without a callback, the callback's part in a turn does nothing. -/
theorem callbackTurn_of_callback_none (h : ps.callback = none) :
    callbackTurn ps report = (ps, .ok true) := by
  unfold callbackTurn runCallback
  split <;> simp [h]

/-- A turn that goes on had the callback answer `true`. -/
theorem settle_eq_inr (h : settle ps report reached = .inr ps') :
    ps' = (callbackTurn ps report).1 ∧ (callbackTurn ps report).2 = .ok true := by
  unfold settle at h
  generalize callbackTurn ps report = turn at h ⊢
  obtain ⟨ps₁, keep⟩ := turn
  dsimp only at h ⊢
  split at h
  · cases h
  · cases h
  · split at h
    · split at h
      · cases h
      · cases h
        exact ⟨rfl, rfl⟩
    · split at h
      · cases h
      · cases h
        exact ⟨rfl, rfl⟩
    · cases h
      exact ⟨rfl, rfl⟩

/-- A turn that ends the propagation ends it with the callback's failure, with `callbackStop`
when the callback answered `false`, or else with an outcome that is a terminal event exactly
when the step stops the propagation. -/
theorem settle_eq_inl {r : Outcome StepOutcome} (h : settle ps report reached = .inl (ps', r)) :
    ps' = (callbackTurn ps report).1 ∧
      ((∃ e, (callbackTurn ps report).2 = .error e ∧ r = .error e) ∨
        ((callbackTurn ps report).2 = .ok false ∧ r = .ok .callbackStop) ∨
        ((callbackTurn ps report).2 = .ok true ∧
          ∃ o, r = .ok o ∧ o ≠ .callbackStop ∧ o.isTerminal = report.stops)) := by
  unfold settle at h
  generalize callbackTurn ps report = turn at h ⊢
  obtain ⟨ps₁, keep⟩ := turn
  dsimp only at h ⊢
  split at h
  · cases h
    exact ⟨rfl, .inl ⟨_, rfl, rfl⟩⟩
  · cases h
    exact ⟨rfl, .inr (.inl ⟨rfl, rfl⟩)⟩
  · split at h
    · split at h
      · cases h
        exact ⟨rfl, .inr (.inr ⟨rfl, _, rfl, nofun, by simp_all [StepReport.stops, StepOutcome.isTerminal]⟩)⟩
      · cases h
    · split at h
      · cases h
        exact ⟨rfl, .inr (.inr ⟨rfl, _, rfl, nofun, by simp_all [StepReport.stops, StepOutcome.isTerminal]⟩)⟩
      · cases h
    · cases h

/-- A step that stops the propagation ends it, at a terminal event and with no call. -/
theorem settle_of_stops (h : report.stops = true) :
    ∃ o, o.isTerminal = true ∧ settle ps report reached = .inl (ps, .ok o) := by
  simp only [StepReport.stops, Bool.and_eq_true, Bool.not_eq_true'] at h
  obtain ⟨hterm, hresume⟩ := h
  cases hout : report.outcome with
  | terminalEvent i =>
    refine ⟨.terminalEvent i, rfl, ?_⟩
    simp [settle, callbackTurn, StepReport.stops, hout, hresume, StepOutcome.isTerminal]
  | _ => simp [hout, StepOutcome.isTerminal] at hterm

end Settle

/-! ### A run of the loop -/

/-- What a run of the loop from `ps` that ended with `out` guarantees about the calls it made. -/
structure LoopProtocol (ps : PropagateState α) (calls : List (CallRecord α))
    (out : PropagateState α × Outcome StepOutcome) : Prop where
  /-- the loop ends holding the callback as its last call left it -/
  held : out.1.callback = (calls.getLast?.map fun x => some x.run.callback).getD ps.callback
  /-- every call but the last let the loop go on -/
  goOn : ∀ x ∈ calls.dropLast, x.Passes true
  /-- a call that fails ends the loop with its failure -/
  failure : ∀ x ∈ calls, ∀ e, x.run.result = .error e → out.2 = .error e
  /-- a call that answers but moves the time ends the loop with a protocol violation -/
  moved : ∀ x ∈ calls, ∀ k, x.run.result = .ok k → x.movesTime = true →
    ∃ e, out.2 = .error e ∧ e.kind = .eventProtocolViolation
  /-- a loop that ends with an outcome had every call answer without moving the time, made one
  call after every step but one that stopped it at a terminal event, and was stopped by its
  callback exactly when the last call answered `false` -/
  ended : ∀ o, out.2 = .ok o → (∀ x ∈ calls, ∃ k, x.Passes k) ∧
    out.1.nSteps = ps.nSteps + calls.length + (if o.isTerminal then 1 else 0) ∧
    (o = .callbackStop ↔ ∃ x, calls.getLast? = some x ∧ x.Passes false)

namespace LoopProtocol

variable {ps ps₁ ps' : PropagateState α}

omit [CallbackCode α]

/-- A run that ends with an outcome and without a call. -/
theorem of_no_call {o : StepOutcome} (hcb : ps'.callback = ps.callback)
    (hn : ps'.nSteps = ps.nSteps + (if o.isTerminal then 1 else 0)) (hstop : o ≠ .callbackStop) :
    LoopProtocol ps [] (ps', .ok o) where
  held := by simpa using hcb
  goOn := by simp
  failure := by simp
  moved := by simp
  ended := by
    intro o' ho
    cases ho
    exact ⟨fun _ hx => absurd hx List.not_mem_nil, by simpa using hn, by simp [hstop]⟩

/-- A run that ends at its first call, with what the propagation makes of the call. -/
theorem of_call {x : CallRecord α} {keep : Outcome Bool} {r : Outcome StepOutcome}
    (hx : x.Judged keep) (hcb : ps'.callback = some x.run.callback) (hn : ps'.nSteps = ps.nSteps + 1)
    (hr : (∃ e, keep = .error e ∧ r = .error e) ∨ (keep = .ok false ∧ r = .ok .callbackStop) ∨
      (keep = .ok true ∧ ∃ o, r = .ok o ∧ o ≠ .callbackStop ∧ o.isTerminal = false)) :
    LoopProtocol ps [x] (ps', r) where
  held := hcb
  goOn := by simp
  failure := by
    intro y hy e he
    rw [List.mem_singleton] at hy
    subst hy
    rcases hr with ⟨e', hkeep, rfl⟩ | ⟨hkeep, -⟩ | ⟨hkeep, -⟩ <;> rw [hx.1 e he] at hkeep <;> cases hkeep
    rfl
  moved := by
    intro y hy k hk hm
    rw [List.mem_singleton] at hy
    subst hy
    obtain ⟨e, hkeep, hkind⟩ := hx.2.1 k hk hm
    rcases hr with ⟨e', hkeep', rfl⟩ | ⟨hkeep', -⟩ | ⟨hkeep', -⟩ <;> rw [hkeep] at hkeep' <;> cases hkeep'
    exact ⟨e, rfl, hkind⟩
  ended := by
    intro o ho
    rcases hr with ⟨e, -, rfl⟩ | ⟨hkeep, rfl⟩ | ⟨hkeep, o', rfl, hstop, hterm⟩
    · cases ho
    · cases ho
      have hpass := (hx.2.2 false).1 hkeep
      refine ⟨fun y hy => ⟨false, List.mem_singleton.1 hy ▸ hpass⟩, ?_, by simpa using hpass⟩
      simpa [StepOutcome.isTerminal] using hn
    · cases ho
      have hpass := (hx.2.2 true).1 hkeep
      refine ⟨fun y hy => ⟨true, List.mem_singleton.1 hy ▸ hpass⟩, by simpa [hterm] using hn, ?_⟩
      simp only [hstop, List.getLast?_singleton, Option.some.injEq, exists_eq_left', false_iff]
      intro hfalse
      simpa using hpass.1.symm.trans hfalse.1

/-- A call that lets the loop go on, followed by the rest of the run. -/
theorem cons {x : CallRecord α} {calls : List (CallRecord α)}
    {out : PropagateState α × Outcome StepOutcome} (hx : x.Passes true)
    (hcb : ps₁.callback = some x.run.callback) (hn : ps₁.nSteps = ps.nSteps + 1)
    (rest : LoopProtocol ps₁ calls out) : LoopProtocol ps (x :: calls) out := by
  -- the failures of the calls come from the rest of the run, since `x` passes
  have failure : ∀ y ∈ x :: calls, ∀ e, y.run.result = .error e → out.2 = .error e := by
    intro y hy e he
    rcases List.mem_cons.1 hy with rfl | hy
    · rw [hx.1] at he
      cases he
    · exact rest.failure y hy e he
  have moved : ∀ y ∈ x :: calls, ∀ k, y.run.result = .ok k → y.movesTime = true →
      ∃ e, out.2 = .error e ∧ e.kind = .eventProtocolViolation := by
    intro y hy k hk hm
    rcases List.mem_cons.1 hy with rfl | hy
    · rw [hx.2] at hm
      cases hm
    · exact rest.moved y hy k hk hm
  have passes : ∀ o, out.2 = .ok o → ∀ y ∈ x :: calls, ∃ k, y.Passes k := by
    intro o ho y hy
    rcases List.mem_cons.1 hy with rfl | hy
    · exact ⟨true, hx⟩
    · exact (rest.ended o ho).1 y hy
  cases calls with
  | nil =>
    refine ⟨by simpa [hcb] using rest.held, by simp, failure, moved, fun o ho => ?_⟩
    obtain ⟨-, hn', hstop⟩ := rest.ended o ho
    refine ⟨passes o ho, by simp only [List.length_nil, List.length_singleton] at hn' ⊢; omega, ?_⟩
    simp only [hstop, List.getLast?_nil, List.getLast?_singleton, Option.some.injEq, exists_eq_left',
      reduceCtorEq, false_and, exists_false, false_iff]
    intro hfalse
    simpa using hx.1.symm.trans hfalse.1
  | cons y ys =>
    have hlast : (x :: y :: ys).getLast? = (y :: ys).getLast? := by simp
    refine ⟨by rw [hlast]; exact rest.held, ?_, failure, moved, fun o ho => ?_⟩
    · intro z hz
      rcases List.mem_cons.1 hz with rfl | hz
      · exact hx
      · exact rest.goOn z hz
    · obtain ⟨-, hn', hstop⟩ := rest.ended o ho
      refine ⟨passes o ho, by simp only [List.length_cons] at hn' ⊢; omega, ?_⟩
      rw [hlast]
      exact hstop

end LoopProtocol

/-- Every run of the loop with a callback follows the protocol. The induction is on the turns
of the loop; a turn ends the run before a step, after a step that stops it without a call, or
after a call, or goes on after a call that passes. -/
theorem loopProtocol (tEnd : α) (maxSteps : Option Nat) (maxDeltaT : α) (forward : Bool) :
    ∀ (fuel : Nat) (ps : PropagateState α), ps.callback.isSome →
      LoopProtocol ps (loopCalls tEnd maxSteps maxDeltaT forward fuel ps)
        (propagateLoop tEnd maxSteps maxDeltaT forward fuel ps)
  | 0, ps, _ => .of_no_call rfl (by simp [StepOutcome.isTerminal]) nofun
  | fuel + 1, ps, hcb => by
    rw [loopCalls, propagateLoop]
    rcases hadv : advance tEnd maxSteps maxDeltaT forward ps with ⟨ps₁, o⟩ | ⟨ps₁, report, reached⟩
    · obtain ⟨hcb₁, hn₁, hterm, hstop⟩ := advance_eq_inl hadv
      exact .of_no_call hcb₁ (by simp [hn₁, hterm]) hstop
    obtain ⟨hcb₁, hn₁⟩ := advance_eq_inr hadv
    dsimp only
    rcases hcall : stepCall ps₁ report with _ | x
    · -- no call: the step stops the propagation at a terminal event
      obtain ⟨hstops, hturn⟩ := callbackTurn_of_stepCall_none (hcb₁ ▸ hcb) hcall
      obtain ⟨o, hterm, hset⟩ : ∃ o, o.isTerminal = true ∧
          settle ps₁ report reached = .inl (ps₁, .ok o) := settle_of_stops hstops
      rw [hset]
      exact .of_no_call hcb₁ (by simp [hn₁, hterm]) (by rintro rfl; cases hterm)
    obtain ⟨hstops, hcbx, hnx, hjudged⟩ := callbackTurn_of_stepCall_some hcall
    rcases hset : settle ps₁ report reached with ⟨ps₂, r⟩ | ps₂
    · obtain ⟨rfl, hr⟩ := settle_eq_inl hset
      rw [hstops] at hr
      exact .of_call hjudged hcbx (by omega) hr
    · obtain ⟨rfl, hkeep⟩ := settle_eq_inr hset
      exact .cons ((hjudged.2.2 true).1 hkeep) hcbx (by omega)
        (loopProtocol tEnd maxSteps maxDeltaT forward fuel _ (by simp [hcbx]))

/-- A run of the loop without a callback ends without one. -/
theorem loop_callback_none (tEnd : α) (maxSteps : Option Nat) (maxDeltaT : α) (forward : Bool) :
    ∀ (fuel : Nat) (ps : PropagateState α), ps.callback = none →
      (propagateLoop tEnd maxSteps maxDeltaT forward fuel ps).1.callback = none
  | 0, _, hcb => hcb
  | fuel + 1, ps, hcb => by
    rw [propagateLoop]
    rcases hadv : advance tEnd maxSteps maxDeltaT forward ps with ⟨ps₁, o⟩ | ⟨ps₁, report, reached⟩
    · exact (advance_eq_inl hadv).1.trans hcb
    have hcb₁ : ps₁.callback = none := (advance_eq_inr hadv).1.trans hcb
    have hturn : callbackTurn ps₁ report = (ps₁, .ok true) := callbackTurn_of_callback_none hcb₁
    dsimp only
    rcases hset : settle ps₁ report reached with ⟨ps₂, r⟩ | ps₂
    · obtain ⟨rfl, -⟩ := settle_eq_inl hset
      rw [hturn]
      exact hcb₁
    · obtain ⟨rfl, -⟩ := settle_eq_inr hset
      rw [hturn]
      exact loop_callback_none tEnd maxSteps maxDeltaT forward fuel ps₁ hcb₁

/-! ### A whole propagation -/

/-- The callback's part in a propagation towards `tEnd`: the run of its pre-hook and its calls
after steps, in order; none when the options are refused or there is no callback. -/
def propagateCallbacks (ta : Integrator α) (tEnd : α) (opts : PropagateOptions α)
    (cursor : Option (GridCursor α)) : Option (CallbackRun α Unit × List (CallRecord α)) :=
  match maxStepOf tEnd opts, (effectiveCallback ta opts).1 with
  | .ok maxDeltaT, some c =>
    let pre := c.preHook (ta.releaseCallback opts)
    let start := (propagateStart ta opts cursor).1
    some (pre, match pre.result with
      | .error _ => []
      | .ok () => loopCalls tEnd opts.maxSteps maxDeltaT (Scalar.le start.ta.time.1 tEnd)
          propagationStepBound start)
  | _, _ => none

/-- The callback's part in a propagation over a grid. -/
def gridCallbacks (ta : Integrator α) (grid : List α) (opts : PropagateOptions α) :
    Option (CallbackRun α Unit × List (CallRecord α)) :=
  match gridStart ta grid with
  | .error _ => none
  | .ok (tEnd, cursor) => propagateCallbacks ta tEnd opts (some cursor)

/-- The callback an integrator holds after a propagation that ran its own callback `cb`, the
callback's part in it being `log`: the callback as its last run left it. -/
def heldCallback (cb : Callback) : Option (CallbackRun α Unit × List (CallRecord α)) → Callback
  | none => cb
  | some (pre, calls) => some ((calls.getLast?.map (·.run.callback)).getD pre.callback)

/-- The step-callback protocol of a propagation from `ta` with options `opts` that ended at
`ta'` with `r`, the callback's part in it being `log`. -/
structure CallbackProtocol (ta : Integrator α) (opts : PropagateOptions α)
    (log : Option (CallbackRun α Unit × List (CallRecord α))) (ta' : Integrator α)
    (r : Outcome (PropagateResult α)) : Prop where
  /-- a propagation with a callback that succeeds ran the pre-hook once, on the integrator it
  started from without its own callback, and before any call; it called the callback after every committed step but one
  that stopped it at a terminal event; every call answered and left the time where it was;
  and the callback stopped the propagation exactly when the last call answered `false` -/
  ran : ∀ res c, r = .ok res → (effectiveCallback ta opts).1 = some c →
    ∃ calls, log = some (c.preHook (ta.releaseCallback opts), calls) ∧
      (c.preHook (ta.releaseCallback opts)).result = .ok () ∧
      res.nSteps = calls.length + (if res.outcome.isTerminal then 1 else 0) ∧
      (∀ x ∈ calls, ∃ k, x.Passes k) ∧
      (res.outcome = .callbackStop ↔ ∃ x, calls.getLast? = some x ∧ x.run.result = .ok false)
  /-- a call that fails ends the propagation with its failure -/
  failure : ∀ pre calls, log = some (pre, calls) → ∀ x ∈ calls, ∀ e,
    x.run.result = .error e → r = .error e
  /-- a call that answers but moves the time ends the propagation with a protocol violation -/
  moved : ∀ pre calls, log = some (pre, calls) → ∀ x ∈ calls, ∀ k, x.run.result = .ok k →
    x.movesTime = true → ∃ e, r = .error e ∧ e.kind = .eventProtocolViolation
  /-- a propagation that runs the integrator's own callback gives it back as its last run left
  it -/
  own : opts.callback = none → ta'.callback = heldCallback ta.callback log

/-- A propagation refused before anything runs follows the protocol. -/
theorem CallbackProtocol.refused {ta : Integrator α} {opts : PropagateOptions α} {e : Error} :
    CallbackProtocol ta opts none ta (.error e) :=
  ⟨fun _ _ h => (by cases h), fun _ _ h => (by cases h), fun _ _ h => (by cases h), fun _ => rfl⟩

section Start

variable {ta : Integrator α} {opts : PropagateOptions α}

/-- A propagation with a callback starts from its pre-hook, run on the integrator without its own
callback. -/
theorem propagateStart_of_some (cursor : Option (GridCursor α)) {c : StepCallback}
    (h : (effectiveCallback ta opts).1 = some c) :
    (propagateStart ta opts cursor).2 = (c.preHook (ta.releaseCallback opts)).result ∧
      (propagateStart ta opts cursor).1.callback =
        some (c.preHook (ta.releaseCallback opts)).callback ∧
      (propagateStart ta opts cursor).1.nSteps = 0 := by
  unfold propagateStart
  rw [h]
  exact ⟨rfl, rfl, rfl⟩

/-- A propagation without a callback starts with nothing to run. -/
theorem propagateStart_of_none (cursor : Option (GridCursor α))
    (h : (effectiveCallback ta opts).1 = none) :
    (propagateStart ta opts cursor).2 = .ok () ∧ (propagateStart ta opts cursor).1.callback = none := by
  unfold propagateStart
  rw [h]
  exact ⟨rfl, rfl⟩

omit [Scalar α] [CallbackCode α] in
/-- Without a callback given, a propagation runs the integrator's own. -/
theorem effectiveCallback_of_none (h : opts.callback = none) :
    effectiveCallback ta opts = (ta.callback, true) := by
  simp [effectiveCallback, h]

end Start

section End

variable {own : Bool} {ps : PropagateState α} {outcome : Outcome StepOutcome}

omit [Scalar α] [CallbackCode α]

/-- After a propagation the integrator holds the propagation's callback again when it was its
own. -/
theorem propagateEnd_callback :
    (propagateEnd own ps outcome).1.callback = if own then ps.callback else ps.ta.callback := by
  unfold propagateEnd
  cases own <;> cases outcome <;> rfl

/-- A propagation fails exactly when its loop does, with the loop's failure. -/
theorem propagateEnd_eq_error {e : Error} :
    (propagateEnd own ps outcome).2.map (·.1) = .error e ↔ outcome = .error e := by
  unfold propagateEnd
  cases outcome <;> simp [Except.map]

/-- A propagation that succeeds reports the loop's outcome and step count. -/
theorem propagateEnd_eq_ok {res : PropagateResult α}
    (h : (propagateEnd own ps outcome).2.map (·.1) = .ok res) :
    outcome = .ok res.outcome ∧ res.nSteps = ps.nSteps := by
  unfold propagateEnd at h
  cases outcome with
  | error e => cases h
  | ok o =>
    cases h
    exact ⟨rfl, rfl⟩

end End

theorem propagateCore_protocol (ta : Integrator α) (tEnd : α) (opts : PropagateOptions α)
    (cursor : Option (GridCursor α)) :
    CallbackProtocol ta opts (propagateCallbacks ta tEnd opts cursor)
      (ta.propagateCore tEnd opts cursor).1 ((ta.propagateCore tEnd opts cursor).2.map (·.1)) := by
  unfold propagateCore propagateCallbacks
  cases hmax : maxStepOf tEnd opts with
  | error e => exact .refused
  | ok maxDeltaT =>
    rcases hcb : (effectiveCallback ta opts).1 with _ | c
    · -- no callback: the loop runs without one
      obtain ⟨hpre, hstart⟩ := propagateStart_of_none cursor hcb
      generalize propagateStart ta opts cursor = st at hpre hstart ⊢
      obtain ⟨start, pre⟩ := st
      dsimp only at hpre hstart ⊢
      subst hpre
      have hend := loop_callback_none tEnd opts.maxSteps maxDeltaT (Scalar.le start.ta.time.1 tEnd)
        propagationStepBound start hstart
      generalize propagateLoop tEnd opts.maxSteps maxDeltaT (Scalar.le start.ta.time.1 tEnd)
        propagationStepBound start = out at hend ⊢
      refine ⟨fun _ _ _ h => (by rw [hcb] at h; cases h), fun _ _ h => (by cases h),
        fun _ _ h => (by cases h), fun hopts => ?_⟩
      rw [effectiveCallback_of_none hopts] at hcb
      rw [propagateEnd_callback, effectiveCallback_of_none hopts, if_pos rfl, hend]
      exact hcb.symm
    obtain ⟨hpre, hstartcb, hstartn⟩ := propagateStart_of_some cursor hcb
    generalize propagateStart ta opts cursor = st at hpre hstartcb hstartn ⊢
    obtain ⟨start, pre⟩ := st
    dsimp only at hpre hstartcb hstartn ⊢
    subst hpre
    cases hres : (c.preHook (ta.releaseCallback opts)).result with
    | error e =>
      -- the pre-hook fails: the propagation fails with it, before any step
      refine ⟨fun _ _ h => ?_, fun _ _ h x hx => ?_, fun _ _ h x hx => ?_, fun hopts => ?_⟩
      · simp [propagateEnd, Except.map] at h
      · cases h
        cases hx
      · cases h
        cases hx
      · rw [propagateEnd_callback, effectiveCallback_of_none hopts, if_pos rfl, hstartcb]
        rfl
    | ok u =>
      cases u
      have hloop := loopProtocol tEnd opts.maxSteps maxDeltaT (Scalar.le start.ta.time.1 tEnd)
        propagationStepBound start (by simp [hstartcb])
      generalize loopCalls tEnd opts.maxSteps maxDeltaT (Scalar.le start.ta.time.1 tEnd)
        propagationStepBound start = calls at hloop ⊢
      generalize propagateLoop tEnd opts.maxSteps maxDeltaT (Scalar.le start.ta.time.1 tEnd)
        propagationStepBound start = out at hloop ⊢
      obtain ⟨ps', outcome⟩ := out
      refine ⟨fun res c' hr hc' => ?_, fun pre calls' hlog x hx e he => ?_,
        fun pre calls' hlog x hx k hk hm => ?_, fun hopts => ?_⟩
      · rw [hcb, Option.some.injEq] at hc'
        subst hc'
        obtain ⟨houtcome, hn⟩ := propagateEnd_eq_ok hr
        obtain ⟨hpass, hcount, hstop⟩ := hloop.ended _ houtcome
        refine ⟨calls, rfl, hres, by simpa [hn, hstartn] using hcount, hpass, ?_⟩
        rw [hstop]
        -- every call passes, so the last one answered `false` exactly when it passed with `false`
        constructor
        · rintro ⟨x, hx, hp⟩
          exact ⟨x, hx, hp.1⟩
        · rintro ⟨x, hx, hr⟩
          obtain ⟨k, hk⟩ := hpass x (List.mem_of_getLast? hx)
          exact ⟨x, hx, hr, hk.2⟩
      · cases hlog
        exact propagateEnd_eq_error.2 (hloop.failure x hx e he)
      · cases hlog
        obtain ⟨e, he, hkind⟩ := hloop.moved x hx k hk hm
        exact ⟨e, propagateEnd_eq_error.2 he, hkind⟩
      · rw [propagateEnd_callback, effectiveCallback_of_none hopts, if_pos rfl]
        refine hloop.held.trans ?_
        rw [hstartcb, heldCallback]
        cases calls.getLast? <;> rfl

/-- Every propagation follows the step-callback protocol: up to a final time, over a time span
from the current time, and over a grid of times. A set as the callback runs the pre-hooks and
the calls of its members in member order, each member on the integrator the one before it left,
and stops at the first member that fails. -/
theorem propagation_callback_protocol (ta : Integrator α) :
    (∀ tEnd opts, CallbackProtocol ta opts (propagateCallbacks ta tEnd opts none)
        (ta.propagateUntil tEnd opts).1 (ta.propagateUntil tEnd opts).2) ∧
    (∀ delta opts, CallbackProtocol ta opts
        (propagateCallbacks ta (ta.time.1 + (ta.time.2 + delta)) opts none)
        (ta.propagateFor delta opts).1 (ta.propagateFor delta opts).2) ∧
    (∀ grid opts, CallbackProtocol ta opts (gridCallbacks ta grid opts)
        (ta.propagateGrid grid opts).1 ((ta.propagateGrid grid opts).2.map (·.1))) ∧
    (∀ (cs : List StepCallback) (s : Integrator α),
      ((StepCallback.preHook (.set cs) s).result = .ok () ↔
        (StepCallback.memberRuns StepCallback.preHook cs s).length = cs.length ∧
          ∀ r ∈ StepCallback.memberRuns StepCallback.preHook cs s, r.result = .ok ()) ∧
      (∀ e, (StepCallback.preHook (.set cs) s).result = .error e ↔
        (StepCallback.memberRuns StepCallback.preHook cs s).getLast?.map (·.result) =
          some (.error e)) ∧
      (∀ b, (StepCallback.call (.set cs) s).result = .ok b ↔
        (StepCallback.memberRuns StepCallback.call cs s).length = cs.length ∧
          ∃ ks : List Bool, (StepCallback.memberRuns StepCallback.call cs s).map (·.result) =
            ks.map .ok ∧ b = ks.all id) ∧
      (∀ e, (StepCallback.call (.set cs) s).result = .error e ↔
        (StepCallback.memberRuns StepCallback.call cs s).getLast?.map (·.result) =
          some (.error e))) := by
  refine ⟨fun tEnd opts => propagateCore_protocol ta tEnd opts none,
    fun delta opts => propagateCore_protocol ta _ opts none, fun grid opts => ?_,
    fun cs s => ?_⟩
  · unfold propagateGrid gridCallbacks
    cases gridStart ta grid with
    | error e => exact .refused
    | ok start =>
      obtain ⟨tEnd, cursor⟩ := start
      dsimp only
      have hcore := propagateCore_protocol ta tEnd opts (some cursor)
      generalize propagateCore ta tEnd opts (some cursor) = out at hcore ⊢
      obtain ⟨ta', r⟩ := out
      cases r <;> exact hcore
  · obtain ⟨hpre, hpreErr, -⟩ := StepCallback.preHookAll_spec cs s
    obtain ⟨hcall, hcallErr, -⟩ := StepCallback.callAll_spec cs true s
    refine ⟨hpre, hpreErr, fun b => ?_, hcallErr⟩
    have hb := hcall b
    simp only [Bool.true_and] at hb
    exact hb

/-- The turn after the first step of a propagation of `x' = v, v' = -x` from `[1, 0]` at time
zero, whose callback is a set of a probe that moves the time on by one and a probe that fails at
its first call. -/
def probeTurnState : PropagateState ℚ where
  ta :=
    { system := ⟨["x", "v"], []⟩, variational := none, state := #[1, 0], time := (0, 0),
      pars := #[], tol := 0, order := 2, config := {}, dc := default, outputs := #[],
      ir := default, tape := #[], terminal := #[], nonTerminal := #[], cooldowns := #[],
      lastH := 1, lastHits := [], callback := none, journal := #[], readings := #[] }
  callback := some (.set [.probe { id := 0, bumpTime := true }, .probe { id := 1, errorAfter := some 1 }])
  dense := none
  minH := 1
  maxH := 1
  nSteps := 1
  cursor := none

/-- The call moves the time from zero to one and then fails: the turn ends the propagation with
the call's own failure, not with a protocol violation, since the failure is returned before the
time is compared. The program links no closures. -/
theorem moved_time_failure_wins :
    probeTurnState.ta.time = (0, 0) ∧
      ∃ ps, settle probeTurnState ⟨.success, 1, false⟩ false =
          .inl (ps, .error (.callback "probe 1 failed at call 1")) ∧ ps.ta.time = (1, 0) := by
  refine ⟨rfl, _, rfl, ?_⟩
  decide +kernel

end Integrator

end TaylorOde
