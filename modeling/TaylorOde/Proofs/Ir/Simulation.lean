import TaylorOde.Proofs.Ir.Execution
import TaylorOde.Proofs.Recurrence.Loads
import TaylorOde.Proofs.Recurrence.Comap
import TaylorOde.Proofs.Expr.Binary64
import Mathlib
/-!
# Emitted recurrences compute the recurrences

`CodeBuilder.ops` builds the recurrence of an entry as instructions; `CoeffOps.onTape`
evaluates the same recurrence directly against a tape, reading the cells the machine reads.
Running the instructions gives, bit for bit, the value the direct evaluation gives.

`Builds P T c₀ x y R` says that the builder program `x`, started on code that continues `c₀`
and leaves the tape `T`, appends instructions that each define a value from values defined
before it and read the tape only where `P` admits, keeps the cache of constants true, and ends
with `R` relating what it returns to `y`. `Defines` relates one register to one value. The
relation is indexed by the code built so far, and every relation it carries grows with the
code (`Mono`), so what is known of earlier registers holds on. `Builds` is kept by `pure`,
`bind`, loops and branches (two-sided, like a relational congruence for `bind`) and by each
operation of the builder; each helper of the recurrences gets its lemma, `Builds.higher`
follows the formula of each operator, and `builds_coefficient` is the main statement.
-/

namespace TaylorOde

namespace Instr

/-- The registers an instruction reads. -/
def operands : Instr → List Nat
  | .unary _ a => [a]
  | .binary _ a b => [a, b]
  | .storeCoeff _ _ v => [v]
  | _ => []

end Instr

namespace CoeffOps

variable {α : Type} [Scalar α]

/-- The recurrence operations evaluated directly against a tape of `n` entries per order, as
the machine reads it with `row` in scope: a load reads the cell of a slot (NaN off the tape),
a literal or a constant is rounded from binary64, an operation is evaluated. -/
def onTape (n : Nat) (row : Option KernelRow) (tape : Array α) : CoeffOps Id α Operand where
  load r k := pure <| match r with
    | .coeff s => ((IrModule.cell n row s k).bind fun c => tape[c]?).getD (Scalar.nan : α)
    | .literal v => (Scalar.ofFloat v : α)
    | .rowLiteral j => (row.bind fun r => r.literals[j]?).map Scalar.ofFloat |>.getD (Scalar.nan : α)
  isConstant := CodeBuilder.ops.isConstant
  constant c := pure (Scalar.ofFloat c.toFloat : α)
  unary f a := pure (f.eval (a : α))
  binary f a b := pure (f.eval (a : α) b)

end CoeffOps

namespace CodeBuilder

open IrModule

variable {α : Type} [Scalar α]

/-! ## Code that continues code -/

/-- Code `c'` continues code `c`. -/
def Continues (c c' : Array Instr) : Prop := ∃ e, c' = c ++ e

theorem Continues.refl (code : Array Instr) : Continues code code := ⟨#[], by simp⟩

theorem Continues.trans {c₁ c₂ c₃ : Array Instr} (h₁ : Continues c₁ c₂) (h₂ : Continues c₂ c₃) :
    Continues c₁ c₃ := by
  obtain ⟨e₁, rfl⟩ := h₁
  obtain ⟨e₂, rfl⟩ := h₂
  exact ⟨e₁ ++ e₂, by simp⟩

theorem Continues.size_le {code code' : Array Instr} (h : Continues code code') :
    code.size ≤ code'.size := by
  obtain ⟨e, rfl⟩ := h
  simp

theorem Continues.getElem? {code code' : Array Instr} (h : Continues code code') {i : Nat}
    (hi : i < code.size) : code'[i]? = code[i]? := by
  obtain ⟨e, rfl⟩ := h
  exact Array.getElem?_append_left hi

/-- A later instruction sees the values an earlier one saw. -/
theorem definedAt_continues {code code' : Array Instr} (h : Continues code code') {i v : Nat}
    (hi : i ≤ code.size) (hv : definedAt code i v = true) : definedAt code' i v = true := by
  unfold definedAt at hv ⊢
  obtain ⟨hlt, hdef⟩ := Bool.and_eq_true_iff.1 hv
  have hvi : v < i := of_decide_eq_true hlt
  rw [h.getElem? (by omega)]
  simp [hvi, hdef]

section Builds

variable (env : RunEnv α) (start : Array α)

/-- Register `v` of the code built so far holds `d` once the code has run from `start`, and the
instruction at `v` defines a value. -/
def Defines (code : Array Instr) (v : Nat) (d : α) : Prop :=
  (env.run code start).1[v]? = some d ∧ definedAt code code.size v = true

/-- The cache of constants names instructions that load them. -/
def Cached (b : CodeBuilder) : Prop :=
  ∀ bits id, b.consts[bits]? = some id → b.code[id]? = some (Instr.loadConst (Float.ofBits bits))

/-- The loads of an instruction that computes a value, as references at orders, are admitted
by `P`; it stores nothing. -/
def LoadsOnly (P : Operand × Nat → Prop) : Instr → Prop
  | .loadCoeff s k => P (.coeff s, k)
  | .loadRowLiteral j => ∃ k, P (.rowLiteral j, k)
  | .storeCoeff .. => False
  | _ => True

/-- Instruction `i` of a block defines a value from values defined before it and reads the tape
only where `P` admits. -/
def Fresh (P : Operand × Nat → Prop) (code : Array Instr) (i : Nat) : Prop :=
  ∃ ins, code[i]? = some ins ∧ LoadsOnly P ins ∧ ∀ v ∈ ins.operands, definedAt code i v = true

/-- A relation between what code returns and a value that holds on as the code grows. -/
def Mono {β γ : Type} (R : Array Instr → β → γ → Prop) : Prop :=
  ∀ ⦃c c' : Array Instr⦄, Continues c c' → ∀ ⦃a b⦄, R c a b → R c' a b

/-- The builder program `x`, started on code that continues `c₀` and leaves the tape `T`,
builds code computing `y`: it appends instructions that each define a value from values
defined before it and read the tape only where `P` admits, keeps the cache of constants
true, and ends with `R` relating its result to `y`. -/
def Builds (P : Operand × Nat → Prop) (T : Array α) (c₀ : Array Instr) {β γ : Type}
    (x : StateM CodeBuilder β) (y : Id γ) (R : Array Instr → β → γ → Prop) : Prop :=
  ∀ b : CodeBuilder, Continues c₀ b.code → Cached b → (env.run b.code start).2 = T →
    Continues b.code (x.run b).2.code ∧ Cached (x.run b).2 ∧
      (∀ i, b.code.size ≤ i → i < (x.run b).2.code.size → Fresh P (x.run b).2.code i) ∧
      R (x.run b).2.code (x.run b).1 y

end Builds

/-! ## Facts of the code built so far -/

section Facts

variable {env : RunEnv α} {start : Array α} {P : Operand × Nat → Prop}

/-- A value seen before position `i` is seen before any later position. -/
theorem definedAt_of_lt {code : Array Instr} {i j v : Nat} (h : definedAt code i v = true)
    (hv : v < j) : definedAt code j v = true := by
  unfold definedAt at h ⊢
  simp only [Bool.and_eq_true, decide_eq_true_eq] at h ⊢
  exact ⟨hv, h.2⟩

theorem lt_of_definedAt {code : Array Instr} {i v : Nat} (h : definedAt code i v = true) :
    v < i := by
  unfold definedAt at h
  simp only [Bool.and_eq_true, decide_eq_true_eq] at h
  exact h.1

/-- An instruction other than a store defines a value for every later instruction. -/
theorem definedAt_of_getElem? {code : Array Instr} {v i : Nat} {ins : Instr}
    (h : code[v]? = some ins) (hs : ins.isStore = false) (hv : v < i) :
    definedAt code i v = true := by
  cases ins <;> simp_all [definedAt, Instr.isStore]

theorem Defines.mono : Mono (Defines env start) := by
  intro code code' h v d hd
  have hv : v < code.size := lt_of_definedAt hd.2
  refine ⟨?_, definedAt_of_lt (definedAt_continues h le_rfl hd.2) (by have := h.size_le; omega)⟩
  obtain ⟨e, rfl⟩ := h
  rw [env.run_append_getElem? _ _ _ hv]
  exact hd.1

theorem Defines.opt_mono : Mono fun code => Option.Rel (Defines env start code) := by
  intro code code' h a b hab
  cases hab with
  | none => exact .none
  | some hab => exact .some (Defines.mono h hab)

theorem Defines.list_mono : Mono fun code => List.Forall₂ (Defines env start code) := by
  intro code code' h a b hab
  exact hab.imp fun _ _ hx => Defines.mono h hx

theorem Defines.array_mono :
    Mono fun code (xs : Array Nat) (ys : Array α) => List.Forall₂ (Defines env start code) xs.toList ys.toList :=
  fun _ _ h _ _ hab => Defines.list_mono h hab

/-- A recurrence stores nothing. -/
theorem LoadsOnly.not_store {ins : Instr} (h : LoadsOnly P ins) : ins.isStore = false := by
  cases ins <;> first | rfl | exact h.elim

theorem Fresh.mono {code code' : Array Instr} (hc : Continues code code') {i : Nat}
    (h : Fresh P code i) : Fresh P code' i := by
  obtain ⟨ins, hins, hload, hops⟩ := h
  have hi : i < code.size := by
    rcases Nat.lt_or_ge i code.size with hi | hi
    · exact hi
    · rw [Array.getElem?_eq_none hi] at hins
      cases hins
  exact ⟨ins, by rw [hc.getElem? hi, hins], hload,
    fun v hv => definedAt_continues hc (Nat.le_of_lt hi) (hops v hv)⟩

/-- Fresh instructions leave the tape. -/
theorem run_tape_of_fresh {code code' : Array Instr} (hc : Continues code code')
    (hfresh : ∀ i, code.size ≤ i → i < code'.size → Fresh P code' i) :
    (env.run code' start).2 = (env.run code start).2 := by
  obtain ⟨e, rfl⟩ := hc
  refine env.run_append_tape _ _ fun ins hins => ?_
  obtain ⟨j, hj, rfl⟩ := Array.mem_iff_getElem.1 hins
  obtain ⟨ins', hget, hload, -⟩ := hfresh (code.size + j) (by omega) (by simp; omega)
  rw [Array.getElem?_append_right (by omega), Nat.add_sub_cancel_left,
    Array.getElem?_eq_getElem hj] at hget
  cases hget
  exact hload.not_store

/-- The cache stays true when an instruction is appended. -/
theorem Cached.push {b : CodeBuilder} (h : Cached b) (ins : Instr) :
    Cached { b with code := b.code.push ins } := by
  intro bits id hid
  have hget := h bits id hid
  have hlt : id < b.code.size := by
    rcases Nat.lt_or_ge id b.code.size with hi | hi
    · exact hi
    · rw [Array.getElem?_eq_none hi] at hget
      cases hget
  simp only [Array.getElem?_push, Nat.ne_of_lt hlt, if_false]
  exact hget

end Facts

/-! ## Programs that build code -/

section Combinators

variable {env : RunEnv α} {start : Array α} {P : Operand × Nat → Prop} {T : Array α}
  {c₀ : Array Instr} {β β' γ γ' : Type}

theorem Builds.pure {R : Array Instr → β → γ → Prop} (hR : Mono R) {a : β} {y : Id γ}
    (h : R c₀ a y) : Builds env start P T c₀ (pure a) y R := by
  intro b hb hcache _
  exact ⟨.refl _, hcache, fun i h₁ h₂ => absurd h₂ (Nat.not_lt_of_le h₁), hR hb h⟩

/-- Sequencing keeps the relation: the continuation is related from wherever the first program
left the code, its argument related there. -/
theorem Builds.bind {R : Array Instr → β → γ → Prop} {R' : Array Instr → β' → γ' → Prop}
    {x : StateM CodeBuilder β} {f : β → StateM CodeBuilder β'} {y : Id γ} {g : γ → Id γ'}
    (hx : Builds env start P T c₀ x y R)
    (hf : ∀ code, Continues c₀ code → ∀ a b, R code a b → Builds env start P T code (f a) (g b) R') :
    Builds env start P T c₀ (x >>= f) (y >>= g) R' := by
  intro b hb hcache htape
  obtain ⟨hext, hcache₁, hfresh, hR⟩ := hx b hb hcache htape
  have htape₁ : (env.run (x.run b).2.code start).2 = T := by
    rw [run_tape_of_fresh hext hfresh, htape]
  obtain ⟨hext₂, hcache₂, hfresh₂, hR₂⟩ :=
    hf _ (hb.trans hext) _ _ hR (x.run b).2 (.refl _) hcache₁ htape₁
  refine ⟨hext.trans hext₂, hcache₂, fun i hi₁ hi₂ => ?_, hR₂⟩
  rcases Nat.lt_or_ge i (x.run b).2.code.size with hi | hi
  · exact (hfresh i hi₁ hi).mono hext₂
  · exact hfresh₂ i hi hi₂

theorem Builds.map {R : Array Instr → β → γ → Prop} {R' : Array Instr → β' → γ' → Prop}
    {x : StateM CodeBuilder β} {y : Id γ} (f : β → β') (g : γ → γ')
    (hx : Builds env start P T c₀ x y R) (hfg : ∀ code a b, R code a b → R' code (f a) (g b)) :
    Builds env start P T c₀ (f <$> x) (g <$> y) R' := by
  intro b hb hcache htape
  obtain ⟨hext, hcache₁, hfresh, hR⟩ := hx b hb hcache htape
  exact ⟨hext, hcache₁, hfresh, hfg _ _ _ hR⟩

/-- A value, as a present optional value. -/
theorem Builds.some {x : StateM CodeBuilder Nat} {y : Id α}
    (hx : Builds env start P T c₀ x y (Defines env start)) :
    Builds env start P T c₀ (some <$> x) (some <$> y)
      fun code => Option.Rel (Defines env start code) :=
  .map Option.some Option.some hx fun _ _ _ hab => Option.Rel.some hab

theorem Builds.ite {R : Array Instr → β → γ → Prop} {p : Prop} [Decidable p]
    {x x' : StateM CodeBuilder β} {y y' : Id γ} (h₁ : p → Builds env start P T c₀ x y R)
    (h₂ : ¬p → Builds env start P T c₀ x' y' R) :
    Builds env start P T c₀ (if p then x else x') (if p then y else y') R := by
  by_cases hp : p
  · rw [if_pos hp, if_pos hp]
    exact h₁ hp
  · rw [if_neg hp, if_neg hp]
    exact h₂ hp

/-- The steps of two loops: both go on, or both stop, with related states. -/
def StepRel (R : Array Instr → β → γ → Prop) (code : Array Instr) :
    ForInStep β → ForInStep γ → Prop
  | .yield a, .yield b => R code a b
  | .done a, .done b => R code a b
  | _, _ => False

theorem StepRel.mono {R : Array Instr → β → γ → Prop} (hR : Mono R) : Mono (StepRel R) := by
  intro code code' h a b hab
  cases a <;> cases b <;> first | exact hR h hab | exact hab.elim

/-- Two loops over one list, with bodies related from every related state, are related. -/
theorem Builds.forIn {δ : Type} {R : Array Instr → β → γ → Prop} (hR : Mono R) {l : List δ}
    {f : δ → β → StateM CodeBuilder (ForInStep β)} {g : δ → γ → Id (ForInStep γ)}
    {init : β} {init' : γ} (hinit : R c₀ init init')
    (hf : ∀ a ∈ l, ∀ code, Continues c₀ code → ∀ s s', R code s s' →
      Builds env start P T code (f a s) (g a s') (StepRel R)) :
    Builds env start P T c₀ (forIn l init f) (forIn l init' g) R := by
  induction l generalizing c₀ init init' with
  | nil => exact .pure hR hinit
  | cons a l ih =>
    rw [List.forIn_cons, List.forIn_cons]
    refine .bind (hf a List.mem_cons_self c₀ (.refl _) _ _ hinit) fun code hc s s' hs => ?_
    cases s with
    | done a =>
      cases s' with
      | done b => exact .pure hR hs
      | yield b => exact hs.elim
    | yield a =>
      cases s' with
      | done b => exact hs.elim
      | yield b =>
        exact ih hs fun a' ha' code' hc' => hf a' (List.mem_cons_of_mem _ ha') code' (hc.trans hc')

/-- Two maps over one list, with related steps, give related lists as long as the list. -/
theorem Builds.mapM {δ : Type} {R : Array Instr → β → γ → Prop} (hR : Mono R) {l : List δ}
    {f : δ → StateM CodeBuilder β} {g : δ → Id γ}
    (hf : ∀ a ∈ l, ∀ code, Continues c₀ code → Builds env start P T code (f a) (g a) R) :
    Builds env start P T c₀ (l.mapM f) (l.mapM g)
      fun code xs ys => List.Forall₂ (R code) xs ys ∧ xs.length = l.length := by
  have hmono : Mono fun code (xs : List β) (ys : List γ) =>
      List.Forall₂ (R code) xs ys ∧ xs.length = l.length :=
    fun _ _ h _ _ hab => ⟨hab.1.imp fun _ _ hy => hR h hy, hab.2⟩
  induction l generalizing c₀ with
  | nil => exact .pure hmono ⟨.nil, rfl⟩
  | cons a l ih =>
    rw [List.mapM_cons, List.mapM_cons]
    refine .bind (hf a List.mem_cons_self c₀ (.refl _)) fun code hc x x' hx => ?_
    refine .bind (ih (fun a' ha' code' hc' => hf a' (List.mem_cons_of_mem _ ha') code' (hc.trans hc'))
      fun _ _ h _ _ hab => ⟨hab.1.imp fun _ _ hy => hR h hy, hab.2⟩) fun code' hc' xs xs' hxs => ?_
    exact .pure hmono ⟨.cons (hR hc' hx) hxs.1, by simp [hxs.2]⟩

end Combinators

/-! ## The operations of the builder -/

theorem push_run (ins : Instr) (b : CodeBuilder) :
    (push ins).run b = (b.code.size, { b with code := b.code.push ins }) := rfl

theorem constant_run_of_some {v : Float} {b : CodeBuilder} {id : Nat}
    (h : b.consts[v.toBits]? = some id) : (constant v).run b = (id, b) := by
  simp [constant, Std.HashMap.get?_eq_getElem?, h, StateT.run, get, getThe, MonadStateOf.get,
    StateT.get, bind, StateT.bind, pure, StateT.pure]

theorem constant_run_of_none {v : Float} {b : CodeBuilder} (h : b.consts[v.toBits]? = none) :
    (constant v).run b = (b.code.size,
      { code := b.code.push (.loadConst v), consts := b.consts.insert v.toBits b.code.size }) := by
  simp [constant, Std.HashMap.get?_eq_getElem?, h, StateT.run, get, getThe, MonadStateOf.get,
    StateT.get, bind, StateT.bind, pure, StateT.pure, push, modifyGet, MonadStateOf.modifyGet,
    StateT.modifyGet, modify, StateT.modifyGet]

section Operations

variable {env : RunEnv α} {start : Array α} {P : Operand × Nat → Prop} {T : Array α}
  {c₀ : Array Instr}

/-- Appending one instruction of a recurrence builds its value: the instruction reads values
defined on every code continuing `c₀`, and, run there, defines `d`. -/
theorem builds_push {ins : Instr} {d : α} (hload : LoadsOnly P ins)
    (hval : ∀ code, Continues c₀ code → (env.run code start).2 = T →
      (∀ v ∈ ins.operands, definedAt code code.size v = true) ∧
        env.value (env.run code start).1 T ins = d) :
    Builds env start P T c₀ (push ins) d (Defines env start) := by
  intro b hb hcache htape
  obtain ⟨hops, hv⟩ := hval b.code hb htape
  have hext : Continues b.code (b.code.push ins) := ⟨#[ins], Array.push_eq_append⟩
  rw [push_run]
  refine ⟨hext, hcache.push ins, fun i hi₁ hi₂ => ?_, ?_, ?_⟩
  · obtain rfl : i = b.code.size := by simp at hi₂; omega
    exact ⟨ins, Array.getElem?_push_size, hload,
      fun v hv' => definedAt_continues hext le_rfl (hops v hv')⟩
  · rw [env.run_push_getElem?, htape, hv]
  · exact definedAt_of_getElem? Array.getElem?_push_size hload.not_store (by simp)

/-- A constant of a block is loaded once, and read from its register. -/
theorem builds_constant (v : Float) :
    Builds env start P T c₀ (constant v) (Scalar.ofFloat v : α) (Defines env start) := by
  intro b hb hcache htape
  cases hc : b.consts[v.toBits]? with
  | some id =>
    have hload := hcache _ _ hc
    rw [Binary64.ofBits_toBits] at hload
    have hid : id < b.code.size := by
      rcases Nat.lt_or_ge id b.code.size with hi | hi
      · exact hi
      · rw [Array.getElem?_eq_none hi] at hload
        cases hload
    rw [constant_run_of_some hc]
    refine ⟨.refl _, hcache, fun i h₁ h₂ => absurd h₂ (Nat.not_lt_of_le h₁), ?_, ?_⟩
    · rw [env.run_getElem? hload]
      rfl
    · exact definedAt_of_getElem? hload rfl hid
  | none =>
    have hext : Continues b.code (b.code.push (.loadConst v)) := ⟨#[_], Array.push_eq_append⟩
    rw [constant_run_of_none hc]
    refine ⟨hext, fun bits id hid => ?_, fun i hi₁ hi₂ => ?_, ?_, ?_⟩
    · rw [Std.HashMap.getElem?_insert] at hid
      split at hid
      · rename_i heq
        cases hid
        rw [Array.getElem?_push_size, ← eq_of_beq heq, Binary64.ofBits_toBits]
      · have hget := hcache bits id hid
        have hlt : id < b.code.size := by
          rcases Nat.lt_or_ge id b.code.size with hi | hi
          · exact hi
          · rw [Array.getElem?_eq_none hi] at hget
            cases hget
        simp only [Array.getElem?_push, Nat.ne_of_lt hlt, if_false]
        exact hget
    · obtain rfl : i = b.code.size := by simp at hi₂; omega
      exact ⟨_, Array.getElem?_push_size, trivial, by simp [Instr.operands]⟩
    · rw [env.run_push_getElem?]
      rfl
    · exact definedAt_of_getElem? Array.getElem?_push_size rfl (by simp)

theorem builds_load {r : Operand} {k : Nat} (h : P (r, k)) :
    Builds env start P T c₀ (CodeBuilder.ops.load r k)
      ((CoeffOps.onTape env.n env.row T).load r k) (Defines env start) := by
  cases r with
  | coeff s => exact builds_push h fun code _ htape => ⟨by simp [Instr.operands], by
      simp [RunEnv.value, CoeffOps.onTape]; rfl⟩
  | literal v => exact builds_constant v
  | rowLiteral j => exact builds_push ⟨k, h⟩ fun code _ _ => ⟨by simp [Instr.operands], rfl⟩

theorem builds_constantOf (c : Const) :
    Builds env start P T c₀ (CodeBuilder.ops.constant c)
      ((CoeffOps.onTape env.n env.row T).constant c) (Defines env start) :=
  builds_constant c.toFloat

theorem builds_unary (f : UnaryFn) {a : Nat} {d : α} (h : Defines env start c₀ a d) :
    Builds env start P T c₀ (CodeBuilder.ops.unary f a)
      ((CoeffOps.onTape env.n env.row T).unary f d) (Defines env start) := by
  refine builds_push trivial fun code hc _ => ⟨?_, ?_⟩
  · simpa [Instr.operands] using (Defines.mono hc h).2
  · simp [RunEnv.value, (Defines.mono hc h).1, CoeffOps.onTape]
    rfl

theorem builds_binary (f : BinaryFn) {a c : Nat} {d e : α} (ha : Defines env start c₀ a d)
    (hc : Defines env start c₀ c e) :
    Builds env start P T c₀ (CodeBuilder.ops.binary f a c)
      ((CoeffOps.onTape env.n env.row T).binary f d e) (Defines env start) := by
  refine builds_push trivial fun code hcode _ => ⟨?_, ?_⟩
  · simp [Instr.operands, (Defines.mono hcode ha).2, (Defines.mono hcode hc).2]
  · simp [RunEnv.value, (Defines.mono hcode ha).1, (Defines.mono hcode hc).1, CoeffOps.onTape]
    rfl

end Operations

/-! ## The helpers of the recurrences -/

section Recurrences

variable {env : RunEnv α} {start : Array α} {P : Operand × Nat → Prop} {T : Array α}
  {c₀ : Array Instr}

theorem builds_coeff {r : Operand} {k : Nat}
    (h : (k > 0 && CodeBuilder.ops.isConstant r) = false → P (r, k)) :
    Builds env start P T c₀ (CodeBuilder.ops.coeff r k)
      ((CoeffOps.onTape env.n env.row T).coeff r k)
      fun code => Option.Rel (Defines env start code) := by
  unfold CoeffOps.coeff
  refine .ite (fun _ => .pure Defines.opt_mono .none) fun hg => ?_
  exact (builds_load (h (Bool.eq_false_iff.2 hg))).some

theorem builds_scale (c : Const) {x : Option Nat} {x' : Option α}
    (hx : Option.Rel (Defines env start c₀) x x') :
    Builds env start P T c₀ (CodeBuilder.ops.scale c x)
      ((CoeffOps.onTape env.n env.row T).scale c x')
      fun code => Option.Rel (Defines env start code) := by
  cases hx with
  | none => exact .pure Defines.opt_mono .none
  | some hx =>
    simp only [CoeffOps.scale]
    refine .ite (fun _ => .pure Defines.opt_mono (.some hx)) fun _ => .ite (fun _ => ?_) fun _ => ?_
    · exact (builds_unary .neg hx).some
    · exact .bind (builds_constantOf c) fun code hc k k' hk =>
        (builds_binary .mul hk (Defines.mono hc hx)).some

theorem builds_pairRound {l : List Nat} {l' : List α}
    (h : List.Forall₂ (Defines env start c₀) l l') :
    Builds env start P T c₀ (CodeBuilder.ops.pairRound l)
      ((CoeffOps.onTape env.n env.row T).pairRound l')
      fun code => List.Forall₂ (Defines env start code) := by
  fun_induction CodeBuilder.ops.pairRound l generalizing l' c₀ with
  | case1 x y rest ih =>
    rcases h with _ | ⟨hx, _ | ⟨hy, hrest⟩⟩
    simp only [CoeffOps.pairRound]
    refine .bind (builds_binary .add hx hy) fun code hc s s' hs => ?_
    refine .bind (ih (Defines.list_mono hc hrest)) fun code' hc' r r' hr => ?_
    exact .pure Defines.list_mono (.cons (Defines.mono hc' hs) hr)
  | case2 rest hne =>
    -- the terms have the same shape on both sides: none or one is left over
    rcases h with _ | ⟨hx, _ | ⟨hy, hrest⟩⟩
    · exact .pure Defines.list_mono .nil
    · exact .pure Defines.list_mono (.cons hx .nil)
    · exact (hne _ _ _ rfl).elim

theorem builds_pairwiseSumAux (fuel : Nat) {l : List Nat} {l' : List α}
    (h : List.Forall₂ (Defines env start c₀) l l') :
    Builds env start P T c₀ (CodeBuilder.ops.pairwiseSumAux fuel l)
      ((CoeffOps.onTape env.n env.row T).pairwiseSumAux fuel l')
      fun code => Option.Rel (Defines env start code) := by
  induction fuel generalizing l l' c₀ with
  | zero =>
    rcases h with _ | ⟨hx, _ | ⟨hy, hrest⟩⟩
    · rw [CoeffOps.pairwiseSumAux_nil, CoeffOps.pairwiseSumAux_nil]
      exact .pure Defines.opt_mono .none
    · rw [CoeffOps.pairwiseSumAux_singleton, CoeffOps.pairwiseSumAux_singleton]
      exact .pure Defines.opt_mono (.some hx)
    · rw [CoeffOps.pairwiseSumAux_zero, CoeffOps.pairwiseSumAux_zero]
      exact .pure Defines.opt_mono (.some hx)
  | succ fuel ih =>
    rcases h with _ | ⟨hx, _ | ⟨hy, hrest⟩⟩
    · rw [CoeffOps.pairwiseSumAux_nil, CoeffOps.pairwiseSumAux_nil]
      exact .pure Defines.opt_mono .none
    · rw [CoeffOps.pairwiseSumAux_singleton, CoeffOps.pairwiseSumAux_singleton]
      exact .pure Defines.opt_mono (.some hx)
    · rw [CoeffOps.pairwiseSumAux_succ, CoeffOps.pairwiseSumAux_succ]
      exact .bind (builds_pairRound (.cons hx (.cons hy hrest))) fun code hc t t' ht => ih ht

theorem builds_pairwiseSum {l : List Nat} {l' : List α}
    (h : List.Forall₂ (Defines env start c₀) l l') :
    Builds env start P T c₀ (CodeBuilder.ops.pairwiseSum l)
      ((CoeffOps.onTape env.n env.row T).pairwiseSum l')
      fun code => Option.Rel (Defines env start code) := by
  unfold CoeffOps.pairwiseSum
  rw [h.length_eq]
  exact builds_pairwiseSumAux _ h

theorem builds_conv (x y : Operand) (n : Nat) (js : List Nat) (w : Nat → Const)
    (h : ∀ j ∈ js, ((j > 0 && CodeBuilder.ops.isConstant x) = false → P (x, j)) ∧
      ((n - j > 0 && CodeBuilder.ops.isConstant y) = false → P (y, n - j))) :
    Builds env start P T c₀ (CodeBuilder.ops.conv x y n js w)
      ((CoeffOps.onTape env.n env.row T).conv x y n js w)
      fun code => Option.Rel (Defines env start code) := by
  unfold CoeffOps.conv
  refine .bind (.forIn Defines.array_mono .nil fun j hj code hc ts ts' hts => ?_)
    fun code hc ts ts' hts => builds_pairwiseSum hts
  refine .bind (builds_coeff (h j hj).1) fun code₁ hc₁ xj xj' hxj => ?_
  refine .bind (builds_coeff (h j hj).2) fun code₂ hc₂ yk yk' hyk => ?_
  have hts₂ := Defines.array_mono (hc₁.trans hc₂) hts
  -- a term is formed when both coefficients are there, on both sides at once
  cases hxj with
  | none => exact .pure (StepRel.mono Defines.array_mono) hts₂
  | some hxj =>
    cases hyk with
    | none => exact .pure (StepRel.mono Defines.array_mono) hts₂
    | some hyk =>
      refine .bind (builds_binary .mul (Defines.mono hc₂ hxj) hyk) fun code₃ hc₃ p p' hp => ?_
      refine .bind (builds_scale (w j) (.some hp)) fun code₄ hc₄ t t' ht => ?_
      have hts₄ := Defines.array_mono (hc₃.trans hc₄) hts₂
      cases ht with
      | none => exact .pure (StepRel.mono Defines.array_mono) hts₄
      | some ht =>
        refine .pure (StepRel.mono Defines.array_mono) ?_
        show List.Forall₂ _ (ts.push _).toList (ts'.push _).toList
        rw [Array.toList_push, Array.toList_push]
        exact List.rel_append hts₄ (.cons ht .nil)

theorem builds_mulOpt {x y : Option Nat} {x' y' : Option α}
    (hx : Option.Rel (Defines env start c₀) x x') (hy : Option.Rel (Defines env start c₀) y y') :
    Builds env start P T c₀ (CodeBuilder.ops.mulOpt x y)
      ((CoeffOps.onTape env.n env.row T).mulOpt x' y')
      fun code => Option.Rel (Defines env start code) := by
  cases hx with
  | none => exact .pure Defines.opt_mono .none
  | some hx =>
    cases hy with
    | none => exact .pure Defines.opt_mono .none
    | some hy => exact (builds_binary .mul hx hy).some

theorem builds_addOpt {x y : Option Nat} {x' y' : Option α}
    (hx : Option.Rel (Defines env start c₀) x x') (hy : Option.Rel (Defines env start c₀) y y') :
    Builds env start P T c₀ (CodeBuilder.ops.addOpt x y)
      ((CoeffOps.onTape env.n env.row T).addOpt x' y')
      fun code => Option.Rel (Defines env start code) := by
  cases hx with
  | none =>
    cases hy with
    | none => exact .pure Defines.opt_mono .none
    | some hy => exact .pure Defines.opt_mono (.some hy)
  | some hx =>
    cases hy with
    | none => exact .pure Defines.opt_mono (.some hx)
    | some hy => exact (builds_binary .add hx hy).some

theorem builds_negOpt {x : Option Nat} {x' : Option α}
    (hx : Option.Rel (Defines env start c₀) x x') :
    Builds env start P T c₀ (CodeBuilder.ops.negOpt x)
      ((CoeffOps.onTape env.n env.row T).negOpt x')
      fun code => Option.Rel (Defines env start code) := by
  cases hx with
  | none => exact .pure Defines.opt_mono .none
  | some hx => exact (builds_unary .neg hx).some

theorem builds_subOpt {x y : Option Nat} {x' y' : Option α}
    (hx : Option.Rel (Defines env start c₀) x x') (hy : Option.Rel (Defines env start c₀) y y') :
    Builds env start P T c₀ (CodeBuilder.ops.subOpt x y)
      ((CoeffOps.onTape env.n env.row T).subOpt x' y')
      fun code => Option.Rel (Defines env start code) := by
  cases hx with
  | none =>
    cases hy with
    | none => exact .pure Defines.opt_mono .none
    | some hy => exact builds_negOpt (.some hy)
  | some hx =>
    cases hy with
    | none => exact .pure Defines.opt_mono (.some hx)
    | some hy => exact (builds_binary .sub hx hy).some

theorem builds_divBy {x : Option Nat} {x' : Option α} {v : Nat} {d : α}
    (hx : Option.Rel (Defines env start c₀) x x') (hv : Defines env start c₀ v d) :
    Builds env start P T c₀ (CodeBuilder.ops.divBy x v)
      ((CoeffOps.onTape env.n env.row T).divBy x' d)
      fun code => Option.Rel (Defines env start code) := by
  cases hx with
  | none => exact .pure Defines.opt_mono .none
  | some hx => exact (builds_binary .div hx hv).some

theorem builds_orZero {x : Option Nat} {x' : Option α}
    (hx : Option.Rel (Defines env start c₀) x x') :
    Builds env start P T c₀ (CodeBuilder.ops.orZero x)
      ((CoeffOps.onTape env.n env.row T).orZero x') (Defines env start) := by
  cases hx with
  | none => exact builds_constantOf _
  | some hx => exact .pure Defines.mono hx

theorem forall₂_getD {β γ : Type} {R : β → γ → Prop} {l : List β} {l' : List γ}
    (h : List.Forall₂ R l l') {i : Nat} (hi : i < l.length) (d : β) (d' : γ) :
    R (l.getD i d) (l'.getD i d') := by
  rw [List.getD_eq_getElem _ _ hi, List.getD_eq_getElem _ _ (h.length_eq ▸ hi)]
  exact h.get hi _

theorem pos_of_accepts {op : Op} {k : Nat} (h : op.accepts k = true) : 0 < k := by
  cases op <;> simp [Op.accepts, Op.arity] at h <;> omega

/-- The order-0 coefficient: both sides apply the operator to the loaded arguments. -/
theorem builds_direct (op : Op) {args : List Operand} (harity : op.accepts args.length = true)
    (h : ∀ a ∈ args, P (a, 0)) :
    Builds env start P T c₀ (CodeBuilder.ops.direct op args)
      ((CoeffOps.onTape env.n env.row T).direct op args) (Defines env start) := by
  unfold CoeffOps.direct
  refine .bind (.mapM Defines.mono fun a ha code hc => builds_load (h a ha))
    fun code hc vals vals' hvals => ?_
  obtain ⟨hvals, hlen⟩ := hvals
  have hx : ∀ i < args.length, Defines env start code (vals.getD i default) (vals'.getD i default) :=
    fun i hi => forall₂_getD hvals (hlen ▸ hi) _ _
  have hpos := pos_of_accepts harity
  cases op <;> simp only [UnaryFn.ofOp?] <;>
    simp only [Op.accepts, Op.arity, beq_iff_eq, gt_iff_lt] at harity
  case sum =>
    refine .bind (builds_pairwiseSum hvals) fun code' hc' s s' hs => ?_
    cases hs with
    | none => exact builds_constantOf _
    | some hs => exact .pure Defines.mono hs
  case square => exact builds_binary .mul (hx 0 hpos) (hx 0 hpos)
  case mul | div | pow | atan2 | kepE => exact builds_binary _ (hx 0 hpos) (hx 1 (by omega))
  all_goals exact builds_unary _ (hx 0 hpos)

theorem forall₂_push {β γ : Type} {R : β → γ → Prop} {xs : Array β} {ys : Array γ}
    (h : List.Forall₂ R xs.toList ys.toList) {x : β} {y : γ} (hxy : R x y) :
    List.Forall₂ R (xs.push x).toList (ys.push y).toList := by
  rw [Array.toList_push, Array.toList_push]
  exact List.rel_append h (.cons hxy .nil)

theorem forall₂_toList {β γ : Type} {R : β → γ → Prop} {x : Option β} {y : Option γ}
    (h : Option.Rel R x y) : List.Forall₂ R x.toList y.toList := by
  cases h with
  | none => exact .nil
  | some h => exact .cons h .nil

open CoeffOps.LogsOnly in
/-- Above order 0 the emitted recurrence of every operator computes the recurrence, once it
has the right number of arguments and hidden dependencies and `P` admits its loads. -/
theorem builds_higher {this : Operand} {args hidden : List Operand} {n : Nat}
    (hR : Reads P CodeBuilder.ops.isConstant this args hidden n) (hn : 0 < n) (op : Op)
    (harity : op.accepts args.length = true) (hcount : hidden.length = op.hiddenCount) :
    Builds env start P T c₀ (CodeBuilder.ops.higher op this args hidden n)
      ((CoeffOps.onTape env.n env.row T).higher op this args hidden n)
      fun code => Option.Rel (Defines env start code) := by
  have arg : ∀ i < args.length, ∀ k ≤ n,
      (k > 0 && CodeBuilder.ops.isConstant (args.getD i this)) = false → P (args.getD i this, k) :=
    fun i hi k hk => hR.arg _ (getD_mem hi this) k hk
  have arg0 : ∀ i < args.length, P (args.getD i this, 0) :=
    fun i hi => hR.arg _ (getD_mem hi this) 0 (Nat.zero_le n) (by simp)
  have self := hR.self
  have self0 : P (this, 0) := hR.self 0 hn (by simp)
  have hid : ∀ i < hidden.length, ∀ k < n,
      (k > 0 && CodeBuilder.ops.isConstant (hidden.getD i this)) = false →
        P (hidden.getD i this, k) :=
    fun i hi k hk => hR.hid _ (getD_mem hi this) k hk
  have hid0 : ∀ i < hidden.length, P (hidden.getD i this, 0) :=
    fun i hi => hR.hid _ (getD_mem hi this) 0 hn (by simp)
  have step := StepRel.mono (@Defines.array_mono _ _ env start)
  -- one formula per operator, followed on both sides at once
  cases op <;> simp only [CoeffOps.higher] <;>
    simp only [Op.accepts, Op.arity, Op.hiddenCount, beq_iff_eq, gt_iff_lt] at harity hcount
  case sum =>
    refine .bind (.forIn Defines.array_mono .nil fun a ha code hc ts ts' hts => ?_)
      fun code hc ts ts' hts => builds_pairwiseSum hts
    refine .bind (builds_coeff (hR.arg a ha n le_rfl)) fun c₁ h₁ x x' hx => ?_
    have hts₁ := Defines.array_mono h₁ hts
    cases hx with
    | none => exact .pure step hts₁
    | some hx => exact .pure step (forall₂_push hts₁ hx)
  case neg =>
    exact .bind (builds_coeff (arg 0 (by omega) n le_rfl)) fun _ _ _ _ hx => builds_negOpt hx
  case mul =>
    exact builds_conv _ _ _ _ _ fun j hj =>
      ⟨arg 0 (by omega) j (mem_span.1 hj).2, arg 1 (by omega) (n - j) (Nat.sub_le n j)⟩
  case div =>
    refine .bind (builds_coeff (arg 0 (by omega) n le_rfl)) fun c₁ h₁ bn bn' hbn => ?_
    refine .bind (builds_conv _ _ _ _ _ fun j hj =>
      ⟨arg 1 (by omega) j (mem_span.1 hj).2, self (n - j) (by have := mem_span.1 hj; omega)⟩)
      fun c₂ h₂ s s' hs => ?_
    refine .bind (builds_subOpt (Defines.opt_mono h₂ hbn) hs) fun c₃ h₃ num num' hnum => ?_
    exact .bind (builds_load (arg0 1 (by omega))) fun c₄ h₄ _ _ hc0 =>
      builds_divBy (Defines.opt_mono h₄ hnum) hc0
  case square =>
    refine .bind (builds_conv _ _ _ _ _ fun j hj =>
      ⟨arg 0 (by omega) j (by have := mem_span.1 hj; omega),
        arg 0 (by omega) (n - j) (Nat.sub_le n j)⟩) fun c₁ h₁ half half' hhalf => ?_
    refine .bind (builds_scale _ hhalf) fun c₂ h₂ twice twice' htwice => ?_
    refine .ite (fun _ => ?_) fun _ => .pure Defines.opt_mono htwice
    refine .bind (builds_coeff (arg 0 (by omega) (n / 2) (Nat.div_le_self n 2)))
      fun c₃ h₃ mid mid' hmid => ?_
    exact .bind (builds_mulOpt hmid hmid) fun c₄ h₄ _ _ hsq =>
      builds_addOpt (Defines.opt_mono (h₃.trans h₄) htwice) hsq
  case sqrt =>
    refine .bind (builds_coeff (arg 0 (by omega) n le_rfl)) fun c₁ h₁ bn bn' hbn => ?_
    refine .bind (builds_conv _ _ _ _ _ fun j hj =>
      ⟨self j (by have := mem_span.1 hj; omega), self (n - j) (by have := mem_span.1 hj; omega)⟩)
      fun c₂ h₂ s s' hs => ?_
    refine .bind (builds_subOpt (Defines.opt_mono h₂ hbn) hs) fun c₃ h₃ num num' hnum => ?_
    refine .bind (builds_load self0) fun c₄ h₄ a0 a0' ha0 => ?_
    exact .bind (builds_divBy (Defines.opt_mono h₄ hnum) ha0) fun _ _ _ _ hq => builds_scale _ hq
  case exp =>
    exact .bind (builds_conv _ _ _ _ _ fun j hj =>
      ⟨arg 0 (by omega) j (mem_span.1 hj).2, self (n - j) (by have := mem_span.1 hj; omega)⟩)
      fun _ _ _ _ hs => builds_scale _ hs
  case log =>
    refine .bind (builds_coeff (arg 0 (by omega) n le_rfl)) fun c₁ h₁ bn bn' hbn => ?_
    refine .bind (builds_scale _ hbn) fun c₂ h₂ nb nb' hnb => ?_
    refine .bind (builds_conv _ _ _ _ _ fun j hj =>
      ⟨self j (by have := mem_span.1 hj; omega), arg 0 (by omega) (n - j) (Nat.sub_le n j)⟩)
      fun c₃ h₃ s s' hs => ?_
    refine .bind (builds_subOpt (Defines.opt_mono h₃ hnb) hs) fun c₄ h₄ num num' hnum => ?_
    refine .bind (builds_load (arg0 0 (by omega))) fun c₅ h₅ b0 b0' hb0 => ?_
    exact .bind (builds_divBy (Defines.opt_mono h₅ hnum) hb0) fun _ _ _ _ hq => builds_scale _ hq
  case pow =>
    refine .bind (builds_load (arg0 1 (by omega))) fun c₁ h₁ alpha alpha' halpha => ?_
    refine .bind (.forIn (R := fun code (ts : Array Nat) (ts' : Array α) =>
        List.Forall₂ (Defines env start code) ts.toList ts'.toList) Defines.array_mono .nil
      fun j hj code hc ts ts' hts => ?_) fun c₂ h₂ ts ts' hts => ?_
    · refine .bind (builds_coeff (arg 0 (by omega) (n - j) (Nat.sub_le n j)))
        fun c₃ h₃ bk bk' hbk => ?_
      refine .bind (builds_coeff (self j (List.mem_range.1 hj))) fun c₄ h₄ aj aj' haj => ?_
      have hts₄ := Defines.array_mono (h₃.trans h₄) hts
      -- a term is formed when both coefficients are there; its weight loads nothing
      cases hbk with
      | none => exact .pure step hts₄
      | some hbk =>
        cases haj with
        | none => exact .pure step hts₄
        | some haj =>
          refine .bind (builds_constantOf _) fun c₅ h₅ k k' hk => ?_
          refine .bind (builds_binary .mul (Defines.mono (hc.trans (h₃.trans (h₄.trans h₅))) halpha)
            hk) fun c₆ h₆ w w' hw => ?_
          have hbk₆ := Defines.mono (h₄.trans (h₅.trans h₆)) hbk
          have haj₆ := Defines.mono (h₅.trans h₆) haj
          have hts₆ := Defines.array_mono (h₅.trans h₆) hts₄
          refine .ite (fun _ => ?_) fun _ => ?_
          · refine .bind (builds_constantOf _) fun c₇ h₇ jj jj' hjj => ?_
            refine .bind (builds_binary .sub (Defines.mono h₇ hw) hjj) fun c₈ h₈ w₂ w₂' hw₂ => ?_
            refine .bind (builds_binary .mul (Defines.mono (h₇.trans h₈) hbk₆)
              (Defines.mono (h₇.trans h₈) haj₆)) fun c₉ h₉ pr pr' hpr => ?_
            exact .bind (builds_binary .mul (Defines.mono h₉ hw₂) hpr) fun c₁₀ h₁₀ _ _ ht =>
              .pure step (forall₂_push (Defines.array_mono (h₇.trans (h₈.trans (h₉.trans h₁₀))) hts₆) ht)
          · refine .bind (builds_binary .mul hbk₆ haj₆) fun c₇ h₇ pr pr' hpr => ?_
            exact .bind (builds_binary .mul (Defines.mono h₇ hw) hpr) fun c₈ h₈ _ _ ht =>
              .pure step (forall₂_push (Defines.array_mono (h₇.trans h₈) hts₆) ht)
    · refine .bind (builds_pairwiseSum hts) fun c₃ h₃ s s' hs => ?_
      refine .bind (builds_load (arg0 0 (by omega))) fun c₄ h₄ b0 b0' hb0 => ?_
      exact .bind (builds_divBy (Defines.opt_mono h₄ hs) hb0) fun _ _ _ _ hq => builds_scale _ hq
  case sin | sinh | cosh | cos =>
    exact .bind (builds_conv _ _ _ _ _ fun j hj =>
      ⟨arg 0 (by omega) j (mem_span.1 hj).2,
        hid 0 (by omega) (n - j) (by have := mem_span.1 hj; omega)⟩) fun _ _ _ _ hs =>
      builds_scale _ hs
  case tan | tanh =>
    refine .bind (builds_coeff (arg 0 (by omega) n le_rfl)) fun c₁ h₁ bn bn' hbn => ?_
    refine .bind (builds_conv _ _ _ _ _ fun j hj =>
      ⟨arg 0 (by omega) j (mem_span.1 hj).2,
        hid 0 (by omega) (n - j) (by have := mem_span.1 hj; omega)⟩) fun c₂ h₂ s s' hs => ?_
    refine .bind (builds_scale _ hs) fun c₃ h₃ s₂ s₂' hs₂ => ?_
    have hbn₃ := Defines.opt_mono (h₂.trans h₃) hbn
    exact .ite (fun _ => builds_addOpt hbn₃ hs₂) fun _ => builds_subOpt hbn₃ hs₂
  case asin | acos | atan =>
    refine .bind (builds_coeff (arg 0 (by omega) n le_rfl)) fun c₁ h₁ bn bn' hbn => ?_
    refine .bind (builds_scale _ hbn) fun c₂ h₂ nb nb' hnb => ?_
    refine .bind (builds_conv _ _ _ _ _ fun j hj =>
      ⟨self j (by have := mem_span.1 hj; omega),
        hid 0 (by omega) (n - j) (by have := mem_span.1 hj; omega)⟩) fun c₃ h₃ s s' hs => ?_
    refine .bind (builds_subOpt (Defines.opt_mono h₃ hnb) hs) fun c₄ h₄ num num' hnum => ?_
    refine .bind (builds_load (hid0 0 (by omega))) fun c₅ h₅ h0 h0' hh0 => ?_
    refine .ite (fun _ => ?_) fun _ => ?_
    · refine .bind (builds_constantOf _) fun c₆ h₆ one one' hone => ?_
      refine .bind (builds_binary .add hone (Defines.mono h₆ hh0)) fun c₇ h₇ den den' hden => ?_
      exact .bind (builds_divBy (Defines.opt_mono (h₅.trans (h₆.trans h₇)) hnum) hden)
        fun _ _ _ _ hq => builds_scale _ hq
    · refine .bind (.pure Defines.mono hh0) fun c₆ h₆ den den' hden => ?_
      exact .bind (builds_divBy (Defines.opt_mono (h₅.trans h₆) hnum) hden)
        fun _ _ _ _ hq => builds_scale _ hq
  case atan2 =>
    refine .bind (builds_conv _ _ _ _ _ fun j hj =>
      ⟨arg 0 (by omega) j (mem_span.1 hj).2, arg 1 (by omega) (n - j) (Nat.sub_le n j)⟩)
      fun c₁ h₁ yx yx' hyx => ?_
    refine .bind (builds_conv _ _ _ _ _ fun j hj =>
      ⟨arg 1 (by omega) j (mem_span.1 hj).2, arg 0 (by omega) (n - j) (Nat.sub_le n j)⟩)
      fun c₂ h₂ xy xy' hxy => ?_
    refine .bind (builds_subOpt (Defines.opt_mono h₂ hyx) hxy) fun c₃ h₃ cr cr' hcr => ?_
    refine .bind (builds_conv _ _ _ _ _ fun j hj =>
      ⟨self j (by have := mem_span.1 hj; omega),
        hid 0 (by omega) (n - j) (by have := mem_span.1 hj; omega)⟩) fun c₄ h₄ s s' hs => ?_
    refine .bind (builds_subOpt (Defines.opt_mono h₄ hcr) hs) fun c₅ h₅ num num' hnum => ?_
    refine .bind (builds_load (hid0 0 (by omega))) fun c₆ h₆ d0 d0' hd0 => ?_
    exact .bind (builds_divBy (Defines.opt_mono h₆ hnum) hd0) fun _ _ _ _ hq => builds_scale _ hq
  case kepE =>
    refine .bind (builds_coeff (arg 1 (by omega) n le_rfl)) fun c₁ h₁ mn mn' hmn => ?_
    refine .bind (builds_scale _ hmn) fun c₂ h₂ t1 t1' ht1 => ?_
    refine .bind (builds_conv _ _ _ _ _ fun i hi =>
      ⟨arg 0 (by omega) i (mem_span.1 hi).2,
        hid 0 (by omega) (n - i) (by have := mem_span.1 hi; omega)⟩) fun c₃ h₃ t2 t2' ht2 => ?_
    refine .bind (.forIn (R := fun code (ts : Array Nat) (ts' : Array α) =>
        List.Forall₂ (Defines env start code) ts.toList ts'.toList) Defines.array_mono .nil
      fun j hj code hc ts ts' hts => ?_) fun c₄ h₄ t3 t3' ht3 => ?_
    · -- the coefficients of `e cos E` of order `n - j` read `cos E` below `n`
      have hj' := mem_span.1 hj
      refine .bind (builds_conv _ _ _ _ _ fun i hi =>
        ⟨arg 0 (by omega) i (by have := mem_span.1 hi; omega),
          hid 1 (by omega) (n - j - i) (by omega)⟩) fun c₅ h₅ w w' hw => ?_
      refine .bind (builds_coeff (self j (by omega))) fun c₆ h₆ aj aj' haj => ?_
      refine .bind (builds_scale _ haj) fun c₇ h₇ aj₂ aj₂' haj₂ => ?_
      refine .bind (builds_mulOpt haj₂ (Defines.opt_mono (h₆.trans h₇) hw)) fun c₈ h₈ t t' ht => ?_
      have hts₈ := Defines.array_mono (h₅.trans (h₆.trans (h₇.trans h₈))) hts
      cases ht with
      | none => exact .pure step hts₈
      | some ht => exact .pure step (forall₂_push hts₈ ht)
    · refine .bind (builds_pairwiseSum ht3) fun c₅ h₅ t3s t3s' ht3s => ?_
      have hterms := List.rel_append (List.rel_append
        (forall₂_toList (Defines.opt_mono (h₃.trans (h₄.trans h₅)) ht1))
        (forall₂_toList (Defines.opt_mono (h₄.trans h₅) ht2))) (forall₂_toList ht3s)
      refine .bind (builds_pairwiseSum hterms) fun c₆ h₆ num num' hnum => ?_
      refine .bind (builds_load (arg0 0 (by omega))) fun c₇ h₇ e0 e0' he0 => ?_
      refine .bind (builds_load (hid0 1 (by omega))) fun c₈ h₈ co0 co0' hco0 => ?_
      refine .bind (builds_constantOf _) fun c₉ h₉ one one' hone => ?_
      refine .bind (builds_binary .mul (Defines.mono (h₈.trans h₉) he0) (Defines.mono h₉ hco0))
        fun c₁₀ h₁₀ ec ec' hec => ?_
      refine .bind (builds_binary .sub (Defines.mono h₁₀ hone) hec) fun c₁₁ h₁₁ den den' hden => ?_
      exact .bind (builds_divBy (Defines.opt_mono (h₇.trans (h₈.trans (h₉.trans (h₁₀.trans h₁₁))))
        hnum) hden) fun _ _ _ _ hq => builds_scale _ hq

open CoeffOps.LogsOnly in
/-- The emitted recurrence of an entry computes, bit for bit, the recurrence evaluated against
the tape: when emitting it succeeds, evaluating it succeeds too, and the code built holds its
value in the register it returns. -/
theorem builds_coefficient {op : Op} {this : Operand} {args hidden : List Operand} {n : Nat}
    (hR : Reads P CodeBuilder.ops.isConstant this args hidden n) {x : StateM CodeBuilder Nat}
    (hx : coefficient CodeBuilder.ops op this args hidden n = .ok x) :
    ∃ y, coefficient (CoeffOps.onTape env.n env.row T) op this args hidden n = .ok y ∧
      Builds env start P T c₀ x y (Defines env start) := by
  -- both sides check the same arity, hidden count and exponent
  have hvalid : ¬(op.accepts args.length = false ∨ hidden.length ≠ op.hiddenCount ∨
      (op = .pow ∧ CodeBuilder.ops.isConstant (args.getD 1 this) = false)) := by
    rw [← coefficient_isError_iff CodeBuilder.ops op this args hidden n]
    rintro ⟨e, he⟩
    rw [hx] at he
    cases he
  have h1 : op.accepts args.length = true := by
    cases h : op.accepts args.length
    · exact absurd (.inl h) hvalid
    · rfl
  have h2 : hidden.length = op.hiddenCount := Decidable.of_not_not fun h => hvalid (.inr (.inl h))
  have h3 : ¬(op = .pow ∧ CodeBuilder.ops.isConstant (args.getD 1 this) = false) :=
    fun h => hvalid (.inr (.inr h))
  rw [coefficient_of_valid _ n h1 h2 h3] at hx
  cases hx
  refine ⟨_, coefficient_of_valid (CoeffOps.onTape env.n env.row T) n h1 h2 h3, ?_⟩
  by_cases hn : n = 0
  · subst hn
    exact builds_direct op h1 fun a ha => hR.arg a ha 0 le_rfl (by simp)
  · rw [if_neg hn, if_neg hn]
    exact .bind (builds_higher hR (Nat.pos_of_ne_zero hn) op h1 h2) fun _ _ _ _ h =>
      builds_orZero h

end Recurrences

end CodeBuilder

end TaylorOde
