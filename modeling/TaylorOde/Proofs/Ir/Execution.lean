import TaylorOde.Ir.Machine
import Mathlib
/-!
# Running straight code

A body runs its instructions one after another on fresh registers: each instruction defines
the next register, and only a store writes the tape. `RunEnv.run` is that run, over a whole
body or over the part of it built so far, so that code can be reasoned about while it is
built: running more code keeps the registers already defined (`run_append_getElem?`) and,
when it holds no store, the tape (`run_append_tape`). What a register holds is read off the
instruction that defines it (`run_push_getElem?`).
-/

namespace TaylorOde

namespace Instr

/-- Whether the instruction is a store. -/
def isStore : Instr → Bool
  | .storeCoeff .. => true
  | _ => false

end Instr

namespace IrModule

/-- What a body runs in: `n` entries per order of the tape, the row in scope, the parameters
and the time. -/
structure RunEnv (α : Type) where
  n : Nat
  row : Option KernelRow
  pars : Array α
  time : α

namespace RunEnv

variable {α : Type} [Scalar α] (env : RunEnv α)

/-- One instruction in the environment. -/
def step (acc : Array α × Array α) (ins : Instr) : Array α × Array α :=
  exec env.n env.row env.pars env.time acc ins

/-- The registers and the tape after running `code` on fresh registers from `tape`. -/
def run (code : Array Instr) (tape : Array α) : Array α × Array α :=
  code.foldl env.step (#[], tape)

/-- The register a value instruction defines, read against the registers before it and the
tape. -/
def value (regs tape : Array α) : Instr → α
  | .loadConst c => Scalar.ofFloat c
  | .loadCoeff s o => ((cell env.n env.row s o).bind fun c => tape[c]?).getD Scalar.nan
  | .loadRowLiteral k =>
    (env.row.bind fun r => r.literals[k]?).map Scalar.ofFloat |>.getD Scalar.nan
  | .loadParam p => env.pars[p]?.getD Scalar.nan
  | .loadTime => env.time
  | .unary f a => f.eval (regs[a]?.getD Scalar.nan)
  | .binary f a b => f.eval (regs[a]?.getD Scalar.nan) (regs[b]?.getD Scalar.nan)
  | .storeCoeff .. => Scalar.zero

/-- The tape after a store of register `v` into a slot at an order; a cell outside the tape is
not written. -/
def store (regs tape : Array α) (s : Slot) (o v : Nat) : Array α :=
  match cell env.n env.row s o with
  | some c => tape.set! c (regs[v]?.getD Scalar.nan)
  | none => tape

theorem step_eq (acc : Array α × Array α) (ins : Instr) :
    env.step acc ins = (acc.1.push (env.value acc.1 acc.2 ins),
      match ins with
      | .storeCoeff s o v => env.store acc.1 acc.2 s o v
      | _ => acc.2) := by
  cases ins with
  | storeCoeff s o v =>
    simp only [step, exec, value, store]
    cases cell env.n env.row s o with
    | none => rfl
    | some c =>
      simp only [Prod.mk.injEq, true_and]
      split
      · rfl
      · rw [Array.set!_eq_setIfInBounds, Array.setIfInBounds, dif_neg ‹_›]
  | _ => rfl

@[simp] theorem step_fst (acc : Array α × Array α) (ins : Instr) :
    (env.step acc ins).1 = acc.1.push (env.value acc.1 acc.2 ins) := by
  rw [step_eq]

theorem step_snd_of_not_store {ins : Instr} (h : ins.isStore = false)
    (acc : Array α × Array α) : (env.step acc ins).2 = acc.2 := by
  rw [step_eq]
  cases ins <;> first | rfl | simp [Instr.isStore] at h

@[simp] theorem step_snd_store (acc : Array α × Array α) (s : Slot) (o v : Nat) :
    (env.step acc (.storeCoeff s o v)).2 = env.store acc.1 acc.2 s o v := by
  rw [step_eq]

@[simp] theorem run_empty (tape : Array α) : env.run #[] tape = (#[], tape) := rfl

theorem run_push (code : Array Instr) (ins : Instr) (tape : Array α) :
    env.run (code.push ins) tape = env.step (env.run code tape) ins := by
  simp only [run, Array.foldl_push]

theorem run_append (code new : Array Instr) (tape : Array α) :
    env.run (code ++ new) tape = new.foldl env.step (env.run code tape) := by
  simp only [run, Array.foldl_append]

/-- Running code defines one register per instruction. -/
theorem foldl_step_size (acc : Array α × Array α) (code : Array Instr) :
    (code.foldl env.step acc).1.size = acc.1.size + code.size := by
  induction code using Array.rec with
  | mk l =>
    induction l generalizing acc with
    | nil => simp
    | cons ins l ih =>
      simp only [List.foldl_toArray', List.foldl_cons, List.size_toArray, List.length_cons] at ih ⊢
      rw [ih, step_fst, Array.size_push]
      omega

@[simp] theorem size_run (code : Array Instr) (tape : Array α) :
    (env.run code tape).1.size = code.size := by
  simp [run, foldl_step_size]

/-- Running more code keeps the registers already defined. -/
theorem foldl_step_getElem? (acc : Array α × Array α) (code : Array Instr) {v : Nat}
    (hv : v < acc.1.size) : (code.foldl env.step acc).1[v]? = acc.1[v]? := by
  induction code using Array.rec with
  | mk l =>
    induction l generalizing acc with
    | nil => simp
    | cons ins l ih =>
      simp only [List.foldl_toArray', List.foldl_cons] at ih ⊢
      rw [ih _ (by rw [step_fst, Array.size_push]; omega), step_fst,
        Array.getElem?_push, if_neg (Nat.ne_of_lt hv)]

theorem run_append_getElem? (code new : Array Instr) (tape : Array α) {v : Nat}
    (hv : v < code.size) : (env.run (code ++ new) tape).1[v]? = (env.run code tape).1[v]? := by
  rw [run_append, foldl_step_getElem? _ _ _ (by simpa using hv)]

/-- Code without stores leaves the tape. -/
theorem foldl_step_tape (acc : Array α × Array α) {code : Array Instr}
    (h : ∀ ins ∈ code, ins.isStore = false) : (code.foldl env.step acc).2 = acc.2 := by
  induction code using Array.rec with
  | mk l =>
    induction l generalizing acc with
    | nil => simp
    | cons ins l ih =>
      simp only [List.foldl_toArray', List.foldl_cons, List.mem_toArray, List.mem_cons] at ih h ⊢
      rw [ih _ fun i hi => h i (.inr hi), step_snd_of_not_store _ (h ins (.inl rfl))]

theorem run_append_tape (code : Array Instr) {new : Array Instr} (tape : Array α)
    (h : ∀ ins ∈ new, ins.isStore = false) :
    (env.run (code ++ new) tape).2 = (env.run code tape).2 := by
  rw [run_append, foldl_step_tape _ _ h]

/-- The register of the last instruction is the value it defines. -/
theorem run_push_getElem? (code : Array Instr) (ins : Instr) (tape : Array α) :
    (env.run (code.push ins) tape).1[code.size]? =
      some (env.value (env.run code tape).1 (env.run code tape).2 ins) := by
  rw [run_push, step_fst, ← size_run env code tape, Array.getElem?_push_size]

/-- Register `v` holds the value of instruction `v`, read against the registers and the tape
the code before it leaves. -/
theorem run_getElem? {code : Array Instr} {v : Nat} {ins : Instr} (h : code[v]? = some ins)
    (tape : Array α) :
    (env.run code tape).1[v]? =
      some (env.value (env.run (code.extract 0 v) tape).1 (env.run (code.extract 0 v) tape).2 ins) := by
  have hv : v < code.size := by
    rcases Nat.lt_or_ge v code.size with hv | hv
    · exact hv
    · rw [Array.getElem?_eq_none hv] at h
      cases h
  have hsplit : code = (code.extract 0 v).push ins ++ code.extract (v + 1) code.size := by
    apply Array.ext_getElem?
    intro j
    rw [Array.getElem?_eq_some_iff] at h
    obtain ⟨_, rfl⟩ := h
    rcases Nat.lt_trichotomy j v with hj | rfl | hj
    · rw [Array.getElem?_append_left (by simp; omega), Array.getElem?_push,
        if_neg (by simp; omega), Array.getElem?_extract]
      simp [hj]
    · rw [Array.getElem?_append_left (by simp; omega), Array.getElem?_push, if_pos (by simp; omega)]
      simp [hv]
    · rw [Array.getElem?_append_right (by simp; omega), Array.getElem?_extract]
      simp only [Array.size_push, Array.size_extract]
      by_cases hjs : j < code.size
      · simp [show v + 1 + (j - (min v code.size + 1)) = j by omega, hjs,
          show j - (min v code.size + 1) < code.size - (v + 1) by omega]
      · simp [show ¬(j - (min v code.size + 1) < code.size - (v + 1)) by omega,
          Array.getElem?_eq_none (Nat.le_of_not_lt hjs)]
  have hsize : (code.extract 0 v).size = v := by simp; omega
  have hlast := run_push_getElem? env (code.extract 0 v) ins tape
  rw [hsize] at hlast
  conv_lhs => rw [hsplit]
  rw [run_append_getElem? _ _ _ _ (by simp [hsize]), hlast]

end RunEnv

end IrModule

end TaylorOde
