import TaylorOde.Proofs.Ir.Reference
import TaylorOde.Proofs.Recurrence.Comap
import Mathlib
/-!
# Kernel rows

In compact mode the function entries of one level, operator and argument pattern share one
loop body: its operands are row slots and row literals, and each row names the entries and the
literals of one member. Slot 0 is the entry itself, then come its non-literal arguments in
order, then its hidden dependencies; the row literals are its literal arguments in order.

`Operand.rowView r` reads a row operand through the row `r`. Evaluating a recurrence with the
row in scope is evaluating it over the operands the row names (`onTape_row`), and, for the row
`emitKernels` builds for entry `i`, these are the operands the entry itself has
(`rowView_kernelOperands`, `rowView_kernelHidden`): the kernel computes each member's own
recurrence. The loads of the body, read through the row, are the loads of that recurrence
(`reads_row`).
-/

namespace TaylorOde

namespace Operand

/-- The operand that a row operand stands for once the row `r` is known: a row slot names the
entry the row puts there and a row literal the row's literal; every other operand stands for
itself. -/
def rowView (r : KernelRow) : Operand → Operand
  | .coeff (.row k) =>
    match r.slots[k]? with
    | some j => .coeff (.fixed j)
    | none => .coeff (.row k)
  | .rowLiteral l =>
    match r.literals[l]? with
    | some v => .literal v
    | none => .rowLiteral l
  | o => o

theorem rowView_row_of_getElem? {r : KernelRow} {k j : Nat} (h : r.slots[k]? = some j) :
    rowView r (.coeff (.row k)) = .coeff (.fixed j) := by
  simp [rowView, h]

theorem rowView_rowLiteral_of_getElem? {r : KernelRow} {l : Nat} {v : Float}
    (h : r.literals[l]? = some v) : rowView r (.rowLiteral l) = .literal v := by
  simp [rowView, h]

/-- Reading through a row keeps what counts as a constant. -/
@[simp] theorem isConstant_rowView (r : KernelRow) (o : Operand) :
    CodeBuilder.ops.isConstant (rowView r o) = CodeBuilder.ops.isConstant o := by
  unfold rowView
  split
  · split <;> rfl
  · split <;> rfl
  · rfl

end Operand

open Operand IrModule CodeBuilder

variable {α : Type} [Scalar α]

/-- A row slot names, at an order, the cell of the entry the row puts there. -/
theorem cell_rowView (n : Nat) (r : KernelRow) (s : Slot) (k : Nat) :
    cell n (some r) s k = match rowView r (.coeff s) with
      | .coeff s' => cell n none s' k
      | _ => none := by
  cases s with
  | fixed i => rfl
  | row j =>
    simp only [rowView, cell, resolve, Option.bind_some]
    cases r.slots[j]? <;> rfl

/-- Evaluating a recurrence with a row in scope is evaluating it over the operands the row
names. -/
theorem onTape_row (n : Nat) (r : KernelRow) (T : Array α) :
    CoeffOps.onTape n (some r) T = (CoeffOps.onTape n none T).comap (rowView r) := by
  unfold CoeffOps.onTape CoeffOps.comap
  congr 1
  · funext o k
    cases o with
    | coeff s =>
      cases s with
      | fixed i => rfl
      | row j =>
        simp only [rowView, cell, resolve, Option.bind_some]
        cases r.slots[j]? <;> rfl
    | literal v => rfl
    | rowLiteral l =>
      simp only [rowView, Option.bind_some]
      cases r.literals[l]? <;> rfl
  · funext o
    exact (isConstant_rowView r o).symm

/-- A load with a row in scope reads the cell that the operand the row names reads. -/
theorem readsIn_row {n : Nat} {r : KernelRow} {R : Nat → Prop} {o : Operand} {k : Nat}
    (h : ReadsIn n none R (rowView r o, k)) : ReadsIn n (some r) R (o, k) := by
  cases o with
  | coeff s =>
    intro c hc
    rw [cell_rowView] at hc
    cases s with
    | fixed i => exact h c hc
    | row j =>
      revert hc h
      simp only [rowView]
      cases r.slots[j]? with
      | some i => exact fun h hc => h c hc
      | none => exact fun _ hc => absurd hc (by simp [cell, resolve])
  | literal v => trivial
  | rowLiteral l => trivial

/-- Through a row, the recurrence of a row operand over row operands is the recurrence over the
operands the row names. -/
theorem coefficient_row (n : Nat) (r : KernelRow) (T : Array α) (op : Op) (this : Operand)
    (args hidden : List Operand) (k : Nat) :
    coefficient (CoeffOps.onTape n (some r) T) op this args hidden k =
      coefficient (CoeffOps.onTape n none T) op (rowView r this) (args.map (rowView r))
        (hidden.map (rowView r)) k := by
  rw [onTape_row, CoeffOps.coefficient_comap]

/-! ## The layout of a row -/

namespace Decomposition

/-- One argument of an entry laid out in its kernel row: an entry reference is the next slot,
anything else the next literal (NaN for what is no number). -/
def rowStep (x : List Nat × List Float) (a : Expr) : List Nat × List Float :=
  match a.elemIndex?, a with
  | some j, _ => (x.1 ++ [j], x.2)
  | none, .num v => (x.1, x.2 ++ [v.value])
  | none, _ => (x.1, x.2 ++ [0.0 / 0.0])

/-- One argument of a kernel: a literal argument takes the next row literal, another the next
row slot. -/
def kernelStep (x : Array Operand × Nat × Nat) (lit : Bool) : Array Operand × Nat × Nat :=
  if lit then (x.1.push (.rowLiteral x.2.2), x.2.1, x.2.2 + 1)
  else (x.1.push (.coeff (.row x.2.1)), x.2.1 + 1, x.2.2)

/-- The row of entry `i` in its kernel: the entry, its entry arguments and its hidden
dependencies as slots, its literal arguments as literals. -/
def kernelRow (d : Decomposition) (i : Nat) : KernelRow :=
  let laid := (d.entry i).rhs.args.foldl rowStep ([i], [])
  { slots := laid.1 ++ (d.entry i).hidden, literals := laid.2 }

theorem rowStep_some {x : List Nat × List Float} {a : Expr} {j : Nat} (h : a.elemIndex? = some j) :
    rowStep x a = (x.1 ++ [j], x.2) ∧ operand a = .coeff (.fixed j) := by
  simp [rowStep, operand, h]

theorem rowStep_none {x : List Nat × List Float} {a : Expr} (h : a.elemIndex? = none) :
    ∃ v, rowStep x a = (x.1, x.2 ++ [v]) ∧ operand a = .literal v := by
  cases a <;> simp [rowStep, operand, h]

theorem prefix_getElem? {β : Type} {l₁ l₂ : List β} (h : l₁ <+: l₂) {i : Nat}
    (hi : i < l₁.length) : l₂[i]? = l₁[i]? := by
  obtain ⟨t, rfl⟩ := h
  exact List.getElem?_append_left hi

/-- Laying out arguments only appends slots and literals. -/
theorem prefix_foldl_rowStep (args : List Expr) :
    ∀ x : List Nat × List Float,
      x.1 <+: (args.foldl rowStep x).1 ∧ x.2 <+: (args.foldl rowStep x).2 := by
  induction args with
  | nil => exact fun x => ⟨List.prefix_refl _, List.prefix_refl _⟩
  | cons a args ih =>
    intro x
    obtain ⟨h₁, h₂⟩ := ih (rowStep x a)
    rw [List.foldl_cons]
    cases ha : a.elemIndex? with
    | some j =>
      rw [(rowStep_some ha).1] at h₁ h₂ ⊢
      exact ⟨(List.prefix_append _ _).trans h₁, h₂⟩
    | none =>
      obtain ⟨v, hv, -⟩ := rowStep_none (x := x) ha
      rw [hv] at h₁ h₂ ⊢
      exact ⟨h₁, (List.prefix_append _ _).trans h₂⟩

/-- Laid out against a row that holds the slots and literals of the arguments, the kernel
operands stand for the arguments' own operands, and the next free slot follows the slots. -/
theorem foldl_kernelStep (r : KernelRow) (args : List Expr) :
    ∀ (acc : Array Operand) (x : List Nat × List Float),
      (args.foldl rowStep x).1 <+: r.slots → (args.foldl rowStep x).2 <+: r.literals →
      ((args.map (·.elemIndex?.isNone)).foldl kernelStep (acc, x.1.length, x.2.length)).1.toList.map
          (rowView r) = acc.toList.map (rowView r) ++ args.map operand ∧
        ((args.map (·.elemIndex?.isNone)).foldl kernelStep (acc, x.1.length, x.2.length)).2.1 =
          (args.foldl rowStep x).1.length := by
  induction args with
  | nil => exact fun acc x _ _ => ⟨by simp, rfl⟩
  | cons a args ih =>
    intro acc x hS hL
    simp only [List.map_cons, List.foldl_cons] at hS hL ⊢
    obtain ⟨hpre₁, hpre₂⟩ := prefix_foldl_rowStep args (rowStep x a)
    cases ha : a.elemIndex? with
    | some j =>
      obtain ⟨hstep, hop⟩ := rowStep_some (x := x) ha
      rw [hstep] at hS hL hpre₁
      -- the slot the kernel takes is the one the row gives the argument
      have hslot : r.slots[x.1.length]? = some j := by
        rw [prefix_getElem? (hpre₁.trans hS) (by simp)]
        simp
      have hk : kernelStep (acc, x.1.length, x.2.length) false =
          (acc.push (.coeff (.row x.1.length)), (x.1 ++ [j]).length, (x.1 ++ [j], x.2).2.length) := by
        simp [kernelStep]
      simp only [Option.isNone_some, hk]
      obtain ⟨ih₁, ih₂⟩ := ih (acc.push (.coeff (.row x.1.length))) (x.1 ++ [j], x.2) hS hL
      refine ⟨?_, by rw [hstep]; exact ih₂⟩
      rw [ih₁, Array.toList_push, List.map_append, List.map_singleton, rowView_row_of_getElem? hslot,
        hop, List.append_assoc, List.singleton_append]
    | none =>
      obtain ⟨v, hstep, hop⟩ := rowStep_none (x := x) ha
      rw [hstep] at hS hL hpre₂
      have hlit : r.literals[x.2.length]? = some v := by
        rw [prefix_getElem? (hpre₂.trans hL) (by simp)]
        simp
      have hk : kernelStep (acc, x.1.length, x.2.length) true =
          (acc.push (.rowLiteral x.2.length), (x.1, x.2 ++ [v]).1.length,
            (x.2 ++ [v]).length) := by
        simp [kernelStep]
      simp only [Option.isNone_none, hk]
      obtain ⟨ih₁, ih₂⟩ := ih (acc.push (.rowLiteral x.2.length)) (x.1, x.2 ++ [v]) hS hL
      refine ⟨?_, by rw [hstep]; exact ih₂⟩
      rw [ih₁, Array.toList_push, List.map_append, List.map_singleton,
        rowView_rowLiteral_of_getElem? hlit, hop, List.append_assoc, List.singleton_append]

/-- The operands of the kernel of an argument pattern: row literals and row slots, in order. -/
def kernelOperands (lits : List Bool) : Array Operand × Nat × Nat :=
  lits.foldl kernelStep (#[], 1, 0)

/-- The hidden dependencies of a kernel: the row slots after the argument slots. -/
def kernelHidden (lits : List Bool) (nHidden : Nat) : List Operand :=
  (List.range nHidden).map fun k => .coeff (.row ((kernelOperands lits).2.1 + k))

section Row

variable {d : Decomposition} {i : Nat} {tag : NodeTag} {op : Op} {args : List Expr} {hh : UInt64}

/-- Read through the row of an operator entry, its kernel's operands are the entry's
arguments, its hidden dependencies and the entry itself. -/
theorem rowView_kernelRow (hrhs : (d.entry i).rhs = .func tag op args hh) :
    (kernelOperands (args.map (·.elemIndex?.isNone))).1.toList.map (rowView (d.kernelRow i)) =
        args.map operand ∧
      (kernelHidden (args.map (·.elemIndex?.isNone)) (d.entry i).hidden.length).map
          (rowView (d.kernelRow i)) = (d.entry i).hidden.map (fun h => .coeff (.fixed h)) ∧
      rowView (d.kernelRow i) (.coeff (.row 0)) = .coeff (.fixed i) := by
  have hargs : (d.entry i).rhs.args = args := by rw [hrhs]; rfl
  set laid := args.foldl rowStep ([i], []) with hlaid
  have hrow : d.kernelRow i = { slots := laid.1 ++ (d.entry i).hidden, literals := laid.2 } := by
    simp only [kernelRow, hargs, hlaid]
  obtain ⟨hops, hnext⟩ := foldl_kernelStep (d.kernelRow i) args #[] ([i], [])
    (by rw [hrow]; exact List.prefix_append _ _) (by rw [hrow])
  refine ⟨hops, ?_, ?_⟩
  · -- the hidden slots follow the argument slots
    apply List.ext_getElem (by simp [kernelHidden])
    intro m h₁ h₂
    have hm : m < (d.entry i).hidden.length := by simpa using h₂
    have hslot : (d.kernelRow i).slots[laid.1.length + m]? = some (d.entry i).hidden[m] := by
      rw [hrow, List.getElem?_append_right (by omega)]
      simp [hm]
    simp only [kernelHidden, kernelOperands, List.getElem_map, List.getElem_range]
    rw [show (List.foldl kernelStep (#[], 1, 0) (args.map (·.elemIndex?.isNone))).2.1 =
      laid.1.length from hnext, rowView_row_of_getElem? hslot]
  · -- slot 0 is the entry itself
    have hself : (d.kernelRow i).slots[0]? = some i := by
      rw [prefix_getElem? ((prefix_foldl_rowStep args ([i], [])).1.trans
        (by rw [hrow]; exact List.prefix_append _ _)) (by simp)]
      rfl
    exact rowView_row_of_getElem? hself

variable {n : Nat}

open CoeffOps.LogsOnly in
/-- Through the row of an operator entry, its kernel reads what the entry's recurrence reads. -/
theorem reads_kernelRow (hrhs : (d.entry i).rhs = .func tag op args hh) :
    Reads (ReadsIn d.functionsEnd (some (d.kernelRow i)) (d.entryReads i n))
      CodeBuilder.ops.isConstant (.coeff (.row 0))
      (kernelOperands (args.map (·.elemIndex?.isNone))).1.toList
      (kernelHidden (args.map (·.elemIndex?.isNone)) (d.entry i).hidden.length) n := by
  obtain ⟨hops, hhid, hself⟩ := rowView_kernelRow hrhs
  refine Reads.comap (rowView (d.kernelRow i)) (fun _ _ h => readsIn_row h)
    (fun o => (isConstant_rowView _ o).symm) ?_
  rw [hops, hhid, hself]
  exact reads_entry hrhs

/-- Through the row of an operator entry, its kernel's recurrence is the entry's. -/
theorem coefficient_kernelRow (hrhs : (d.entry i).rhs = .func tag op args hh) (T : Array α) :
    coefficient (CoeffOps.onTape d.functionsEnd (some (d.kernelRow i)) T) op (.coeff (.row 0))
        (kernelOperands (args.map (·.elemIndex?.isNone))).1.toList
        (kernelHidden (args.map (·.elemIndex?.isNone)) (d.entry i).hidden.length) n =
      coefficient (CoeffOps.onTape d.functionsEnd none T) op (.coeff (.fixed i)) (args.map operand)
        ((d.entry i).hidden.map fun h => .coeff (.fixed h)) n := by
  obtain ⟨hops, hhid, hself⟩ := rowView_kernelRow hrhs
  rw [coefficient_row, hops, hhid, hself]

/-- The body of a kernel, the row of an operator entry in scope, stores the entry's coefficient
into its cell. -/
theorem performs_kernelRow (hrhs : (d.entry i).rhs = .func tag op args hh)
    {x : StateM CodeBuilder Nat}
    (hx : coefficient CodeBuilder.ops op (.coeff (.row 0))
      (kernelOperands (args.map (·.elemIndex?.isNone))).1.toList
      (kernelHidden (args.map (·.elemIndex?.isNone)) (d.entry i).hidden.length) n = .ok x)
    (pars : Array α) (t : α) :
    Performs ⟨d.functionsEnd, some (d.kernelRow i), pars, t⟩ (x >>= fun v => store (.row 0) n v)
      [d.entryUpdate t i n] := by
  have hself := (rowView_kernelRow hrhs).2.2
  let env : RunEnv α := ⟨d.functionsEnd, some (d.kernelRow i), pars, t⟩
  refine performs_store (P := ReadsIn env.n env.row (d.entryReads i n)) (fun start T => ?_)
    (fun _ _ _ h hc => h _ hc) ?_
  · obtain ⟨y, hy, hb⟩ : ∃ y, coefficient (CoeffOps.onTape env.n env.row T) op (.coeff (.row 0))
        (kernelOperands (args.map (·.elemIndex?.isNone))).1.toList
        (kernelHidden (args.map (·.elemIndex?.isNone)) (d.entry i).hidden.length) n = .ok y ∧
        Builds env start _ T #[] x y (Defines env start) :=
      builds_coefficient (reads_kernelRow hrhs) hx
    have hval : (d.entryUpdate t i n).value T = y := by
      simp only [entryUpdate, entryValue, hrhs]
      rw [← coefficient_kernelRow hrhs T, hy]
      rfl
    rw [hval]
    exact hb
  · simp only [rowView] at hself
    simp only [cell, resolve, Option.bind_some, entryUpdate]
    revert hself
    cases (d.kernelRow i).slots[0]? with
    | some j => intro h; cases h; rfl
    | none => intro h; cases h

end Row

end Decomposition

end TaylorOde
