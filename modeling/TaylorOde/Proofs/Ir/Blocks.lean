import TaylorOde.Proofs.Ir.Simulation
import TaylorOde.Proofs.Ir.Updates
import Mathlib
/-!
# Blocks as tape updates

The straight blocks and loop bodies that `emit` builds are programs of stores: each store
writes one cell with a value that a recurrence builds from loads. Such code changes the tape as
a list of `Tape.Update`s, one per store.

`Performs env x us` says that the builder program `x`, from any builder whose cache of
constants is true and whatever tape its body started on, appends code that, run after the code
before it, applies `us` to the tape one after another, and accesses the tape as `us` read and
write (`Tape.Traces`). A store of a value built by a recurrence performs one update
(`performs_store`); sequencing and loops concatenate (`Performs.bind`, `Performs.forIn`). A
loop block runs its body once per row, so it performs the updates of its rows one after another,
and a module runs its blocks in order (`run_eq_applyAll`).

How a run accesses the tape is read off the code (`IrModule.accesses`): a load reads the cell
of its slot, a store writes it, whatever the tape holds. A value built by loads of cells in `R`
does not see the rest of the tape (`run_fst_congr`), so the update that stores it is sound
(`Builds.value_congr`).
-/

namespace TaylorOde

namespace IrModule

open Tape

variable {α : Type} [Scalar α]

/-! ## The accesses of a run -/

/-- How an instruction accesses the tape, `row` in scope: a load reads the cell of its slot and
a store writes it; other instructions do not touch the tape. -/
def access (n : Nat) (row : Option KernelRow) : Instr → Option Access
  | .loadCoeff s o => (cell n row s o).map .read
  | .storeCoeff s o _ => (cell n row s o).map .write
  | _ => none

/-- The accesses of one run of a body. -/
def bodyAccesses (n : Nat) (row : Option KernelRow) (code : Array Instr) : List Access :=
  code.toList.filterMap (access n row)

/-- The accesses of a block: a loop accesses the tape as its body does, row after row. -/
def blockAccesses (n : Nat) : Block → List Access
  | .straight code => bodyAccesses n none code
  | .loop body rows => rows.flatMap fun r => bodyAccesses n (some r) body

/-- The accesses of one run of a module, block after block. -/
def accesses (m : IrModule) : List Access := m.blocks.flatMap (blockAccesses m.nEntries)

@[simp] theorem bodyAccesses_append (n : Nat) (row : Option KernelRow) (c c' : Array Instr) :
    bodyAccesses n row (c ++ c') = bodyAccesses n row c ++ bodyAccesses n row c' := by
  simp [bodyAccesses]

@[simp] theorem bodyAccesses_push (n : Nat) (row : Option KernelRow) (c : Array Instr)
    (ins : Instr) :
    bodyAccesses n row (c.push ins) = bodyAccesses n row c ++ (access n row ins).toList := by
  simp only [bodyAccesses, Array.toList_push, List.filterMap_append, List.filterMap_cons,
    List.filterMap_nil]
  cases access n row ins <;> rfl

/-- One block run over the tape, as `run` runs it. -/
def runBlock (n : Nat) (pars : Array α) (time : α) (tape : Array α) : Block → Array α
  | .straight code => runBody n code none pars time tape
  | .loop body rows => rows.foldl (fun tape r => runBody n body (some r) pars time tape) tape

theorem run_eq_foldl (m : IrModule) (tape pars : Array α) (time : α) :
    m.run tape pars time = m.blocks.foldl (runBlock m.nEntries pars time) tape := by
  unfold run
  congr

theorem runBody_eq (n : Nat) (code : Array Instr) (row : Option KernelRow) (pars : Array α)
    (time : α) (tape : Array α) :
    runBody n code row pars time tape = ((⟨n, row, pars, time⟩ : RunEnv α).run code tape).2 :=
  rfl

end IrModule

namespace CodeBuilder

open IrModule Tape

variable {α : Type} [Scalar α]

/-! ## Values that read some cells only -/

/-- The loads whose cells, `row` in scope, lie in `R`. -/
def ReadsIn (n : Nat) (row : Option KernelRow) (R : Nat → Prop) : Operand × Nat → Prop
  | (.coeff s, k) => ∀ c, cell n row s k = some c → R c
  | _ => True

section Congruence

variable {env : RunEnv α} {R : Nat → Prop}

/-- An instruction that loads cells of `R` only computes the same value on tapes that agree on
`R`. -/
theorem value_congr {ins : Instr} (h : LoadsOnly (ReadsIn env.n env.row R) ins) (regs : Array α)
    {T T' : Array α} (hT : ∀ c, R c → T[c]? = T'[c]?) :
    env.value regs T ins = env.value regs T' ins := by
  cases ins with
  | loadCoeff s o =>
    simp only [RunEnv.value]
    cases hc : cell env.n env.row s o with
    | none => rfl
    | some c => rw [Option.bind_some, Option.bind_some, hT c (h c hc)]
  | storeCoeff s o v => exact h.elim
  | _ => rfl

/-- Code of such instructions computes the same registers on tapes that agree on `R`. -/
theorem run_fst_congr {code : Array Instr} (h : ∀ ins ∈ code, LoadsOnly (ReadsIn env.n env.row R) ins)
    {T T' : Array α} (hT : ∀ c, R c → T[c]? = T'[c]?) : (env.run code T).1 = (env.run code T').1 := by
  -- the tapes stay as they were, and the registers agree instruction by instruction
  have key : ∀ (l : List Instr), (∀ ins ∈ l, LoadsOnly (ReadsIn env.n env.row R) ins) →
      ∀ regs : Array α, (l.foldl env.step (regs, T)).1 = (l.foldl env.step (regs, T')).1 ∧
        (l.foldl env.step (regs, T)).2 = T ∧ (l.foldl env.step (regs, T')).2 = T' := by
    intro l
    induction l with
    | nil => exact fun _ _ => ⟨rfl, rfl, rfl⟩
    | cons ins l ih =>
      intro hl regs
      have hins := hl ins List.mem_cons_self
      have hstep : ∀ X : Array α, env.step (regs, X) ins = (regs.push (env.value regs X ins), X) :=
        fun X => Prod.ext (env.step_fst _ _) (env.step_snd_of_not_store hins.not_store _)
      simp only [List.foldl_cons, hstep, value_congr hins regs hT]
      exact ih (fun i hi => hl i (List.mem_cons_of_mem _ hi)) _
  have := key code.toList (fun ins hins => h ins (Array.mem_toList_iff.1 hins)) #[]
  simpa [RunEnv.run, ← Array.foldl_toList] using this.1

/-- The instructions a program appends to code that continues are fresh, so each loads only
what `P` admits. -/
theorem loadsOnly_of_fresh {P : Operand × Nat → Prop} {code e : Array Instr}
    (hfresh : ∀ i, code.size ≤ i → i < (code ++ e).size → Fresh P (code ++ e) i) :
    ∀ ins ∈ e, LoadsOnly P ins := by
  intro ins hins
  obtain ⟨j, hj, rfl⟩ := Array.mem_iff_getElem.1 hins
  obtain ⟨ins', hget, hload, -⟩ := hfresh (code.size + j) (by omega) (by simp; omega)
  rw [Array.getElem?_append_right (by omega), Nat.add_sub_cancel_left,
    Array.getElem?_eq_getElem hj] at hget
  cases hget
  exact hload

theorem cached_empty : Cached ({} : CodeBuilder) := by
  intro bits id h
  simp at h

/-- A value that a program builds from loads of cells in `R`, on every tape, depends on those
cells only. -/
theorem Builds.value_congr (env : RunEnv α) {x : StateM CodeBuilder Nat} {y : Array α → α}
    (hx : ∀ T, Builds env T (ReadsIn env.n env.row R) T #[] x (y T) (Defines env T))
    {T T' : Array α} (hT : ∀ c, R c → T[c]? = T'[c]?) : y T = y T' := by
  obtain ⟨⟨e, he⟩, -, hfresh, hdef⟩ := hx T {} (Continues.refl _) cached_empty rfl
  obtain ⟨-, -, -, hdef'⟩ := hx T' {} (Continues.refl _) cached_empty rfl
  have hloads : ∀ ins ∈ (x.run {}).2.code, LoadsOnly (ReadsIn env.n env.row R) ins := by
    have he' : (x.run {}).2.code = e := by simpa using he
    rw [he']
    rw [he] at hfresh
    exact loadsOnly_of_fresh hfresh
  have hregs := run_fst_congr hloads hT
  have h₁ := hdef.1
  rw [hregs, hdef'.1] at h₁
  exact (Option.some.inj h₁).symm

end Congruence

/-! ## Programs of stores -/

section Performs

variable {env : RunEnv α} {β γ : Type}

/-- The builder program `x` performs the updates `us`: from any builder whose cache of constants
is true, and whatever tape its body started on, it appends code that keeps the cache true,
changes the tape as `us` do one after another, and accesses the tape as `us` read and write. -/
def Performs (env : RunEnv α) (x : StateM CodeBuilder β) (us : List (Update α)) : Prop :=
  ∀ (start : Array α) (b : CodeBuilder), Cached b → ∃ e, (x.run b).2.code = b.code ++ e ∧
    Cached (x.run b).2 ∧ (env.run (b.code ++ e) start).2 = applyAll us (env.run b.code start).2 ∧
    Traces us (bodyAccesses env.n env.row e)

theorem run_bind (x : StateM CodeBuilder β) (f : β → StateM CodeBuilder γ) (b : CodeBuilder) :
    (x >>= f).run b = (f (x.run b).1).run (x.run b).2 := rfl

theorem Performs.pure (a : β) : Performs env (pure a : StateM CodeBuilder β) [] := by
  intro start b hb
  exact ⟨#[], by rw [Array.append_empty]; rfl, hb, by simp, Traces.nil⟩

/-- Sequencing performs the updates of the first program and then those of the rest, whatever
the first returned. -/
theorem Performs.bind {x : StateM CodeBuilder β} {f : β → StateM CodeBuilder γ}
    {us vs : List (Update α)} (hx : Performs env x us)
    (hf : ∀ b, Performs env (f (x.run b).1) vs) : Performs env (x >>= f) (us ++ vs) := by
  intro start b hb
  obtain ⟨e₁, hcode₁, hb₁, htape₁, htr₁⟩ := hx start b hb
  obtain ⟨e₂, hcode₂, hb₂, htape₂, htr₂⟩ := hf b start (x.run b).2 hb₁
  rw [run_bind]
  refine ⟨e₁ ++ e₂, by rw [hcode₂, hcode₁, Array.append_assoc], hb₂, ?_, ?_⟩
  · rw [← Array.append_assoc, ← hcode₁, htape₂, hcode₁, htape₁, applyAll_append]
  · rw [bodyAccesses_append]
    exact htr₁.append htr₂

/-- A loop whose every step performs its updates and goes on performs them one after another. -/
theorem Performs.forIn_forall₂ {δ : Type} {l : List δ}
    {f : δ → PUnit → StateM CodeBuilder (ForInStep PUnit)} {uss : List (List (Update α))}
    (hf : List.Forall₂ (fun a us => Performs env (f a ⟨⟩) us) l uss)
    (hy : ∀ a ∈ l, ∀ b, ((f a ⟨⟩).run b).1 = .yield ⟨⟩) :
    Performs env (forIn l ⟨⟩ f) uss.flatten := by
  induction hf with
  | nil => exact Performs.pure _
  | cons ha _ ih =>
    rw [List.forIn_cons, List.flatten_cons]
    refine ha.bind fun b => ?_
    rw [hy _ List.mem_cons_self b]
    exact ih fun a' ha' => hy a' (List.mem_cons_of_mem _ ha')

/-- The same, the updates of each step given as a function of the item. -/
theorem Performs.forIn {δ : Type} {l : List δ} {f : δ → PUnit → StateM CodeBuilder (ForInStep PUnit)}
    {us : δ → List (Update α)} (hf : ∀ a ∈ l, Performs env (f a ⟨⟩) (us a))
    (hy : ∀ a ∈ l, ∀ b, ((f a ⟨⟩).run b).1 = .yield ⟨⟩) :
    Performs env (forIn l ⟨⟩ f) (l.flatMap us) := by
  rw [List.flatMap_def]
  exact Performs.forIn_forall₂ (List.forall₂_map_right_iff.2 (List.forall₂_same.2 hf)) hy

theorem Performs.ite {p : Prop} [Decidable p] {x x' : StateM CodeBuilder β} {us : List (Update α)}
    (h₁ : p → Performs env x us) (h₂ : ¬p → Performs env x' us) :
    Performs env (if p then x else x') us := by
  by_cases hp : p
  · rw [if_pos hp]
    exact h₁ hp
  · rw [if_neg hp]
    exact h₂ hp

theorem store_run (s : Slot) (k v : Nat) (b : CodeBuilder) :
    (store s k v).run b = ((), { b with code := b.code.push (.storeCoeff s k v) }) := rfl

omit [Scalar α] in
/-- Code of instructions that load only cells `u` reads accesses the tape by reading such
cells. -/
theorem bodyAccesses_of_loadsOnly {P : Operand × Nat → Prop} {R : Nat → Prop} {e : Array Instr}
    (hP : ∀ s k c, P (.coeff s, k) → cell env.n env.row s k = some c → R c)
    (he : ∀ ins ∈ e, LoadsOnly P ins) :
    ∃ rs : List Nat, bodyAccesses env.n env.row e = rs.map Access.read ∧ ∀ c ∈ rs, R c := by
  induction e using Array.rec with
  | mk l =>
    induction l with
    | nil => exact ⟨[], rfl, by simp⟩
    | cons ins l ih =>
      obtain ⟨rs, hrs, hR⟩ := ih fun i hi => he i (by simp at hi ⊢; exact .inr hi)
      have hins : LoadsOnly P ins := he ins (by simp)
      have hcons : bodyAccesses env.n env.row ⟨ins :: l⟩ =
          (access env.n env.row ins).toList ++ bodyAccesses env.n env.row ⟨l⟩ := by
        simp only [bodyAccesses, List.filterMap_cons]
        cases access env.n env.row ins <;> rfl
      rw [hcons, hrs]
      cases ins with
      | loadCoeff s o =>
        cases hc : cell env.n env.row s o with
        | none => exact ⟨rs, by simp [access, hc], hR⟩
        | some c =>
          refine ⟨c :: rs, by simp [access, hc], fun c' hc' => ?_⟩
          rcases List.mem_cons.1 hc' with rfl | hc'
          · exact hP s o c' hins hc
          · exact hR c' hc'
      | storeCoeff s o v => exact hins.elim
      | _ => exact ⟨rs, rfl, hR⟩

/-- Storing a value that a program builds performs one update: the value computed from the tape
as it stands, read through loads of cells the update reads, written to its cell. -/
theorem performs_store {P : Operand × Nat → Prop} {x : StateM CodeBuilder Nat} {u : Update α}
    {s : Slot} {k : Nat} (hx : ∀ start T, Builds env start P T #[] x (u.value T) (Defines env start))
    (hP : ∀ s' k' c, P (.coeff s', k') → cell env.n env.row s' k' = some c → u.reads c)
    (hcell : cell env.n env.row s k = some u.cell) :
    Performs env (x >>= fun v => store s k v) [u] := by
  intro start b hb
  obtain ⟨⟨e, he⟩, hb₁, hfresh, hdef⟩ :=
    hx start (env.run b.code start).2 b ⟨b.code, by simp⟩ hb rfl
  have hloads : ∀ ins ∈ e, LoadsOnly P ins := by
    rw [he] at hfresh
    exact loadsOnly_of_fresh hfresh
  obtain ⟨rs, hrs, hR⟩ := bodyAccesses_of_loadsOnly hP hloads
  -- the code of the value leaves the tape; the store writes the value into the cell
  have htape : (env.run (x.run b).2.code start).2 = (env.run b.code start).2 :=
    run_tape_of_fresh ⟨e, he⟩ hfresh
  rw [run_bind, store_run]
  refine ⟨e.push (.storeCoeff s k (x.run b).1), ?_, hb₁.push _, ?_, ?_⟩
  · simp [he, Array.push_append]
  · rw [← Array.push_append, ← he, env.run_push, env.step_snd_store]
    simp only [RunEnv.store, hcell, hdef.1, htape, Option.getD_some, applyAll_cons, applyAll_nil]
    rfl
  · rw [bodyAccesses_push, hrs]
    simpa [access, hcell] using Traces.cons hR Traces.nil

/-- Code built from the empty builder by a program that performs updates applies them. -/
theorem Performs.run_empty {x : StateM CodeBuilder β} {us : List (Update α)}
    (h : Performs env x us) (tape : Array α) :
    (env.run (x.run {}).2.code tape).2 = applyAll us tape ∧
      Traces us (bodyAccesses env.n env.row (x.run {}).2.code) := by
  obtain ⟨e, he, -, htape, htr⟩ := h tape {} cached_empty
  have he' : (x.run {}).2.code = e := by simpa using he
  rw [he']
  simpa using And.intro htape htr

end Performs

end CodeBuilder

namespace IrModule

open CodeBuilder Tape

variable {α : Type} [Scalar α]

/-! ## Blocks and modules -/

/-- A block changes every tape as the updates `us` do, one after another, and accesses it as
they read and write. -/
def BlockPerforms (n : Nat) (pars : Array α) (time : α) (b : Block) (us : List (Update α)) :
    Prop :=
  (∀ tape, runBlock n pars time tape b = applyAll us tape) ∧ Traces us (blockAccesses n b)

section Blocks

variable {n : Nat} {pars : Array α} {time : α} {β : Type}

theorem blockPerforms_straight {x : StateM CodeBuilder β} {us : List (Update α)}
    (h : Performs ⟨n, none, pars, time⟩ x us) :
    BlockPerforms n pars time (.straight (x.run {}).2.code) us :=
  ⟨fun tape => (h.run_empty tape).1, (h.run_empty #[]).2⟩

/-- A loop whose body performs updates for the row of each item performs them row after row. -/
theorem blockPerforms_loop {δ : Type} {x : StateM CodeBuilder β} {l : List δ}
    {row : δ → KernelRow} {us : δ → List (Update α)}
    (h : ∀ a ∈ l, Performs ⟨n, some (row a), pars, time⟩ x (us a)) :
    BlockPerforms n pars time (.loop (x.run {}).2.code (l.map row)) (l.flatMap us) := by
  induction l with
  | nil => exact ⟨fun _ => rfl, Traces.nil⟩
  | cons a l ih =>
    obtain ⟨ih₁, ih₂⟩ := ih fun a' ha' => h a' (List.mem_cons_of_mem _ ha')
    have ha := h a List.mem_cons_self
    refine ⟨fun tape => ?_, ?_⟩
    · have := ih₁ (runBody n (x.run {}).2.code (some (row a)) pars time tape)
      simp only [runBlock, List.map_cons, List.foldl_cons] at this ⊢
      rw [this, List.flatMap_cons, applyAll_append, runBody_eq, (ha.run_empty tape).1]
    · simp only [blockAccesses, List.map_cons, List.flatMap_cons] at ih₂ ⊢
      exact (ha.run_empty #[]).2.append ih₂

/-- A module whose blocks perform their updates runs as all of them, block after block, and
accesses the tape as they read and write. -/
theorem run_eq_applyAll {m : IrModule} {uss : List (List (Update α))}
    (h : List.Forall₂ (BlockPerforms m.nEntries pars time) m.blocks uss) :
    (∀ tape, m.run tape pars time = applyAll uss.flatten tape) ∧ Traces uss.flatten m.accesses := by
  unfold accesses
  simp only [run_eq_foldl]
  generalize m.blocks = bs at h
  induction h with
  | nil => exact ⟨fun _ => rfl, Traces.nil⟩
  | cons hb _ ih =>
    refine ⟨fun tape => ?_, ?_⟩
    · rw [List.foldl_cons, hb.1, ih.1, List.flatten_cons, applyAll_append]
    · rw [List.flatMap_cons, List.flatten_cons]
      exact hb.2.append ih.2

end Blocks

end IrModule

end TaylorOde
