import TaylorOde.Proofs.Ir.KernelRows
import TaylorOde.Proofs.Decomposition.TimeEntry
import TaylorOde.Proofs.Expr.Equality
import TaylorOde.Proofs.Expr.Order
import TaylorOde.Proofs.Expr.Rebuild
import Mathlib
/-!
# The order of the compact kernels

In compact mode the function entries of an order run in two parts: the time entry in the
straight block, after the prefix, and then the operator entries, kernel after kernel. The
operator entries are sorted by key (level, operator, literal pattern, hidden count) and split
into runs of one key (`kernelOrder`, `kernelGroups`); each run is one loop.

* `groupLe` is a total preorder (`groupLe_trans`, `groupLe_total`), so the members come out
  sorted (`pairwise_kernelOrder`), and a member of a lower level comes first
  (`level_le_of_groupLe`).
* The members of one run share their key (`kernelKey_eq_head`), so one loop body is every
  member's recurrence: a kernel loop performs the updates of its members
  (`kernelLoop_performs`).
* The compact order of one order `n`, `compactUpdates`, holds the updates of the reference order
  rearranged (`compactUpdates_perm`), and each reads only cells known before it
  (`causal_compactUpdates`): an argument of a member lies in the prefix, is the time entry, or
  has a lower level.
-/

namespace TaylorOde

/-! ## Comparing literal patterns -/

section ListCmp

variable {x y z : List Nat}

theorem list_lt_iff (x y : List Nat) : x < y ↔ ¬y < x ∧ x ≠ y := by
  constructor
  · intro h
    exact ⟨List.lt_asymm h, fun hxy => List.lt_irrefl x (hxy ▸ h)⟩
  · rintro ⟨hyx, hne⟩
    by_contra hxy
    exact hne (List.le_antisymm hyx hxy)

theorem listCmp_eq_lt : compareOfLessAndEq x y = .lt ↔ x < y := compareOfLessAndEq_eq_lt

theorem listCmp_eq_gt : compareOfLessAndEq x y = .gt ↔ y < x :=
  compareOfLessAndEq_eq_gt_of_lt_iff_not_gt_and_ne list_lt_iff

theorem listCmp_eq_eq : compareOfLessAndEq x y = .eq ↔ x = y := by
  unfold compareOfLessAndEq
  by_cases hxy : x < y
  · simp only [hxy, if_true, reduceCtorEq, false_iff]
    rintro rfl
    exact List.lt_irrefl x hxy
  · by_cases he : x = y <;> simp [hxy, he]

theorem listCmp_swap (x y : List Nat) :
    compareOfLessAndEq y x = (compareOfLessAndEq x y).swap :=
  compareOfLessAndEq_eq_swap_of_lt_iff_not_gt_and_ne list_lt_iff

/-- Lists of numbers compare consistently. -/
theorem cmpChain_listCmp (x y z : List Nat) :
    CmpChain (compareOfLessAndEq x y) (compareOfLessAndEq y z) (compareOfLessAndEq x z) where
  eq_left h := by rw [listCmp_eq_eq.1 h]
  eq_right h := by rw [listCmp_eq_eq.1 h]
  lt hxy hyz := listCmp_eq_lt.2 (List.lt_trans (listCmp_eq_lt.1 hxy) (listCmp_eq_lt.1 hyz))
  gt hxy hyz := listCmp_eq_gt.2 (List.lt_trans (listCmp_eq_gt.1 hyz) (listCmp_eq_gt.1 hxy))

end ListCmp

/-- Two steps that are not greater give a step that is not greater. -/
theorem CmpChain.ne_gt {ab bc ac : Ordering} (h : CmpChain ab bc ac) (hab : ab ≠ .gt)
    (hbc : bc ≠ .gt) : ac ≠ .gt := by
  cases ab with
  | gt => exact absurd rfl hab
  | eq =>
    rw [h.eq_left rfl]
    exact hbc
  | lt =>
    cases bc with
    | gt => exact absurd rfl hbc
    | eq =>
      rw [h.eq_right rfl]
      exact hab
    | lt =>
      rw [h.lt rfl rfl]
      exact nofun

namespace Decomposition

open Tape CodeBuilder IrModule

/-! ## Kernel keys -/

/-- The numbers a literal pattern is compared by: one for a literal, zero for an entry. -/
def literalRanks (l : List Bool) : List Nat := l.map fun v => if v then 1 else 0

/-- The comparison of kernel keys that `groupLe` reads: level, operator, literal pattern,
hidden count, each deciding when the ones before tie. -/
def groupCmp (a b : Nat × KernelClass) : Ordering :=
  (compare a.1 b.1).then <| (compare a.2.op.index b.2.op.index).then <|
    (compareOfLessAndEq (literalRanks a.2.literalArgs) (literalRanks b.2.literalArgs)).then
      (compare a.2.nHidden b.2.nHidden)

theorem groupLe_eq (a b : Nat × KernelClass) : groupLe a b = (groupCmp a b != .gt) := rfl

theorem cmpChain_groupCmp (a b c : Nat × KernelClass) :
    CmpChain (groupCmp a b) (groupCmp b c) (groupCmp a c) :=
  (CmpChain.of_compare _ _ _).lex fun _ _ => (CmpChain.of_compare _ _ _).lex fun _ _ =>
    (cmpChain_listCmp _ _ _).lex fun _ _ => CmpChain.of_compare _ _ _

theorem groupCmp_swap (a b : Nat × KernelClass) : groupCmp b a = (groupCmp a b).swap := by
  simp only [groupCmp, Ordering.swap_then, listCmp_swap (literalRanks a.2.literalArgs),
    Nat.compare_swap]

theorem groupLe_trans (a b c : Nat × KernelClass) (hab : groupLe a b = true)
    (hbc : groupLe b c = true) : groupLe a c = true := by
  simp only [groupLe_eq, bne_iff_ne, ne_eq] at hab hbc ⊢
  exact (cmpChain_groupCmp a b c).ne_gt hab hbc

theorem groupLe_total (a b : Nat × KernelClass) : (groupLe a b || groupLe b a) = true := by
  simp only [groupLe_eq, groupCmp_swap a b, Bool.or_eq_true, bne_iff_ne, ne_eq]
  cases groupCmp a b <;> simp

/-- A key sorts after every key of a higher level. -/
theorem level_le_of_groupLe {a b : Nat × KernelClass} (h : groupLe a b = true) : a.1 ≤ b.1 := by
  rw [groupLe_eq, bne_iff_ne] at h
  by_contra hlt
  apply h
  simp [groupCmp, Nat.compare_eq_gt.2 (Nat.lt_of_not_le hlt)]

/-- The parts of a key that `groupKeyEq` compares. -/
def kernelKey (a : Nat × KernelClass) : Nat × Op × List Bool × Nat :=
  (a.1, a.2.op, a.2.literalArgs, a.2.nHidden)

theorem groupKeyEq_iff {a b : Nat × KernelClass} :
    groupKeyEq a b = true ↔ kernelKey a = kernelKey b := by
  simp only [groupKeyEq, kernelKey, Bool.and_eq_true, beq_iff_eq, Prod.mk.injEq, and_assoc]

/-- Neighbours that agree on a key make a list that agrees on it. -/
theorem eq_head_of_isChain {β γ : Type} {f : β → γ} :
    ∀ {l : List β} {a : β}, (a :: l).IsChain (fun x y => f x = f y) → ∀ x ∈ a :: l, f x = f a
  | [], a, _, x, hx => by rw [List.mem_singleton.1 hx]
  | b :: l, a, h, x, hx => by
    rw [List.isChain_cons_cons] at h
    rcases List.mem_cons.1 hx with rfl | hx
    · rfl
    · exact (eq_head_of_isChain h.2 x hx).trans h.1.symm

/-! ## The members of the kernels -/

/-- The kernel key of a function entry that is an operator node, with the entry. -/
def kernelMember (d : Decomposition) (levels : Array Nat) (i : Nat) :
    Option ((Nat × KernelClass) × Nat) :=
  match (d.entry i).rhs with
  | .func _ op args _ =>
    some ((levels[i]?.getD 0,
      { op := op, literalArgs := args.map (·.elemIndex?.isNone),
        nHidden := (d.entry i).hidden.length }), i)
  | _ => none

/-- The operator entries in the order the kernels run them. -/
def kernelOrder (d : Decomposition) (levels : Array Nat) : List ((Nat × KernelClass) × Nat) :=
  (d.functions.filterMap (d.kernelMember levels)).mergeSort fun a b => groupLe a.1 b.1

/-- The runs of one key in the kernel order: one kernel each. -/
def kernelGroups (d : Decomposition) (levels : Array Nat) :
    List (List ((Nat × KernelClass) × Nat)) :=
  (d.kernelOrder levels).splitBy fun a b => groupKeyEq a.1 b.1

section Members

variable {d : Decomposition} {levels : Array Nat}

theorem kernelMember_eq_some {i : Nat} {m : (Nat × KernelClass) × Nat} :
    d.kernelMember levels i = some m ↔ ∃ tag op args hh, (d.entry i).rhs = .func tag op args hh ∧
      m = ((levels[i]?.getD 0,
        { op := op, literalArgs := args.map (·.elemIndex?.isNone),
          nHidden := (d.entry i).hidden.length }), i) := by
  unfold kernelMember
  cases (d.entry i).rhs with
  | func tag op args hh =>
    simp only [Option.some.injEq, Expr.func.injEq]
    constructor
    · rintro rfl
      exact ⟨tag, op, args, hh, ⟨rfl, rfl, rfl, rfl⟩, rfl⟩
    · rintro ⟨_, _, _, _, ⟨rfl, rfl, rfl, rfl⟩, rfl⟩
      rfl
  | _ => simp

theorem mem_kernelOrder {m : (Nat × KernelClass) × Nat} :
    m ∈ d.kernelOrder levels ↔ m.2 ∈ d.functions ∧ d.kernelMember levels m.2 = some m := by
  rw [kernelOrder, (List.mergeSort_perm _ _).mem_iff, List.mem_filterMap]
  constructor
  · rintro ⟨i, hi, hm⟩
    obtain ⟨_, _, _, _, -, rfl⟩ := kernelMember_eq_some.1 hm
    exact ⟨hi, hm⟩
  · exact fun ⟨hi, hm⟩ => ⟨m.2, hi, hm⟩

/-- Every operator entry has its member in the kernel order. -/
theorem exists_mem_kernelOrder (levels : Array Nat) {j : Nat} (hj : j ∈ d.functions) {tag : NodeTag}
    {op : Op} {args : List Expr} {hh : UInt64} (hr : (d.entry j).rhs = .func tag op args hh) :
    ∃ b ∈ d.kernelOrder levels, b.1.1 = levels[j]?.getD 0 ∧ b.2 = j := by
  obtain ⟨b, hbm, hb₁, hb₂⟩ : ∃ b, d.kernelMember levels j = some b ∧
      b.1.1 = levels[j]?.getD 0 ∧ b.2 = j :=
    ⟨_, kernelMember_eq_some.2 ⟨tag, op, args, hh, hr, rfl⟩, rfl, rfl⟩
  exact ⟨b, mem_kernelOrder.2 ⟨hb₂ ▸ hj, hb₂ ▸ hbm⟩, hb₁, hb₂⟩

/-- A member's key starts with the level of its entry. -/
theorem level_of_mem_kernelOrder {m : (Nat × KernelClass) × Nat} (hm : m ∈ d.kernelOrder levels) :
    m.1.1 = levels[m.2]?.getD 0 := by
  obtain ⟨-, hmem⟩ := mem_kernelOrder.1 hm
  obtain ⟨_, _, _, _, -, hm'⟩ := kernelMember_eq_some.1 hmem
  exact congrArg (·.1.1) hm'

theorem pairwise_kernelOrder :
    (d.kernelOrder levels).Pairwise fun a b => groupLe a.1 b.1 = true :=
  List.pairwise_mergeSort (fun a b c => groupLe_trans a.1 b.1 c.1)
    (fun a b => groupLe_total a.1 b.1) _

theorem flatten_kernelGroups : (d.kernelGroups levels).flatten = d.kernelOrder levels :=
  List.flatten_splitBy _ _

theorem mem_kernelOrder_of_mem_group {g : List ((Nat × KernelClass) × Nat)}
    (hg : g ∈ d.kernelGroups levels) {m : (Nat × KernelClass) × Nat} (hm : m ∈ g) :
    m ∈ d.kernelOrder levels := by
  rw [← flatten_kernelGroups]
  exact List.mem_flatten.2 ⟨g, hg, hm⟩

/-- The members of one kernel share the key of its first member. -/
theorem kernelKey_eq_head {g : List ((Nat × KernelClass) × Nat)}
    (hg : g ∈ d.kernelGroups levels) {m : (Nat × KernelClass) × Nat} (hm : m ∈ g) :
    kernelKey m.1 = kernelKey g.head!.1 := by
  obtain ⟨a, l, rfl⟩ := List.exists_cons_of_ne_nil (List.ne_nil_of_mem_splitBy hg)
  have hchain : (a :: l).IsChain fun x y => kernelKey x.1 = kernelKey y.1 :=
    (List.isChain_of_mem_splitBy hg).imp fun _ _ h => groupKeyEq_iff.1 h
  exact eq_head_of_isChain (f := fun x : (Nat × KernelClass) × Nat => kernelKey x.1) hchain m hm

end Members

/-! ## Emitting the kernels -/

/-- The loop of one kernel: the recurrence of its first member's class over row slots and row
literals, stored into slot 0, run over the rows of its members. -/
def KernelLoop (d : Decomposition) (n : Nat) (g : List ((Nat × KernelClass) × Nat)) (b : Block) :
    Prop :=
  ∃ x, coefficient CodeBuilder.ops g.head!.1.2.op (.coeff (.row 0))
      (kernelOperands g.head!.1.2.literalArgs).1.toList
      (kernelHidden g.head!.1.2.literalArgs g.head!.1.2.nHidden) n = .ok x ∧
    b = .loop ((x >>= fun v => store (.row 0) n v).run {}).2.code (g.map fun m => d.kernelRow m.2)

section Emit

variable {d : Decomposition}

/-- The kernels of an order are the loops of the kernel groups, one each. -/
theorem emitKernels_eq_ok {levels : Array Nat} {n : Nat} {blocks : List Block}
    (h : d.emitKernels levels n = .ok blocks) :
    List.Forall₂ (d.KernelLoop n) (d.kernelGroups levels) blocks := by
  unfold emitKernels at h
  refine ((Expr.mapM_except_eq_ok _ _ _).1 h).imp fun g b hb => ?_
  unfold KernelLoop
  generalize g.head! = m at hb ⊢
  obtain ⟨⟨lv, cls⟩, i⟩ := m
  simp only at hb
  split at hb
  · simp [throw, throwThe, MonadExceptOf.throw, bind, Except.bind] at hb
  · change (do
        let c ← coefficient CodeBuilder.ops cls.op (.coeff (.row 0))
          (kernelOperands cls.literalArgs).1.toList (kernelHidden cls.literalArgs cls.nHidden) n
        pure (Block.loop ((do let v ← c; store (.row 0) n v).run {}).2.code
          (g.map fun m => d.kernelRow m.2)) : Outcome Block) = .ok b at hb
    cases hc : coefficient CodeBuilder.ops cls.op (.coeff (.row 0))
        (kernelOperands cls.literalArgs).1.toList (kernelHidden cls.literalArgs cls.nHidden) n with
    | error e =>
      rw [hc] at hb
      cases hb
    | ok x =>
      rw [hc] at hb
      exact ⟨x, rfl, (Except.ok.inj hb).symm⟩

/-- A kernel loop performs the updates of its members, one after another: each member's row
puts its own recurrence in scope. -/
theorem kernelLoop_performs {α : Type} [Scalar α] {levels : Array Nat} {n : Nat}
    {g : List ((Nat × KernelClass) × Nat)} (hg : g ∈ d.kernelGroups levels) {b : Block}
    (hb : d.KernelLoop n g b) (pars : Array α) (t : α) :
    BlockPerforms d.functionsEnd pars t b (g.map fun m => d.entryUpdate t m.2 n) := by
  obtain ⟨x, hx, rfl⟩ := hb
  rw [List.map_eq_flatMap (f := fun m : (Nat × KernelClass) × Nat => d.entryUpdate t m.2 n)]
  apply blockPerforms_loop
  intro m hm
  have hkey := kernelKey_eq_head hg hm
  obtain ⟨-, hmem⟩ := mem_kernelOrder.1 (mem_kernelOrder_of_mem_group hg hm)
  obtain ⟨⟨lv, cls⟩, i⟩ := m
  obtain ⟨tag, op, args, hh, hrhs, hm'⟩ := kernelMember_eq_some.1 hmem
  simp only [Prod.mk.injEq] at hm'
  obtain ⟨⟨-, rfl⟩, -⟩ := hm'
  -- the member's class is the class of the loop's recurrence
  simp only [kernelKey, Prod.mk.injEq] at hkey
  obtain ⟨-, hop, hlits, hhid⟩ := hkey
  rw [← hop, ← hlits, ← hhid] at hx
  exact performs_kernelRow hrhs hx pars t

end Emit

/-! ## The compact order -/

/-- Whether a right-hand side is the time. -/
def isTimeRhs : Expr → Bool
  | .time => true
  | _ => false

/-- The function entry standing for the time, if any: the first one. -/
def timeEntry (d : Decomposition) : Option Nat :=
  d.functions.find? fun i => isTimeRhs (d.entry i).rhs

/-- The updates of order `n` in compact mode, in the order they run: the prefix and the time
entry in the straight block, then the operator entries kernel after kernel. -/
def compactUpdates {α : Type} [Scalar α] (d : Decomposition) (pars : Array α) (t : α) (n : Nat) :
    List (Update α) :=
  d.prefixUpdates pars n ++ (d.timeEntry.toList.map fun i => d.entryUpdate t i n) ++
    (d.kernelOrder d.levels).map fun m => d.entryUpdate t m.2 n

section Compact

variable {d : Decomposition}

theorem refs_of_time {i : Nat} (h : (d.entry i).rhs = .time) : (d.entry i).refs = [] := by
  simp [Entry.refs, h, Expr.elemIndex?]

@[simp] theorem isTimeRhs_eq_true {e : Expr} : isTimeRhs e = true ↔ e = .time := by
  cases e <;> simp [isTimeRhs]

/-- With one time entry at most, the time entry is every function entry standing for the
time. -/
theorem timeEntry_toList (ht : d.TimeUnique) :
    d.timeEntry.toList = d.functions.filter fun i => isTimeRhs (d.entry i).rhs := by
  have hnd : (d.functions.filter fun i => isTimeRhs (d.entry i).rhs).Nodup :=
    ((pairwise_lt_functions d).imp Nat.ne_of_lt).filter _
  rw [timeEntry, ← List.head?_filter]
  rcases hF : d.functions.filter (fun i => isTimeRhs (d.entry i).rhs) with _ | ⟨a, _ | ⟨b, rest⟩⟩
  · rfl
  · rfl
  · -- two time entries are one
    have ha : a ∈ d.functions.filter fun i => isTimeRhs (d.entry i).rhs := by simp [hF]
    have hb : b ∈ d.functions.filter fun i => isTimeRhs (d.entry i).rhs := by simp [hF]
    simp only [List.mem_filter, isTimeRhs_eq_true] at ha hb
    have hab := ht a b ha.1 hb.1 ha.2 hb.2
    rw [hF, hab] at hnd
    simp at hnd

/-- The time entry is the function entry standing for the time. -/
theorem mem_timeEntry (ht : d.TimeUnique) {i : Nat} :
    i ∈ d.timeEntry.toList ↔ i ∈ d.functions ∧ (d.entry i).rhs = .time := by
  rw [timeEntry_toList ht, List.mem_filter, isTimeRhs_eq_true]

/-- The kernels run every operator entry once: the function entries that are not the time. -/
theorem map_snd_kernelOrder_perm (hwf : d.WellFormed) (levels : Array Nat) :
    ((d.kernelOrder levels).map Prod.snd).Perm
      (d.functions.filter fun i => !isTimeRhs (d.entry i).rhs) := by
  refine ((List.mergeSort_perm _ _).map Prod.snd).trans (List.Perm.of_eq ?_)
  rw [List.map_filterMap, ← List.filterMap_eq_filter]
  refine List.filterMap_congr fun i hi => ?_
  obtain ⟨hlo, hhi⟩ := mem_functions.1 hi
  have hrhs := hwf.function_entry i hlo hhi
  unfold kernelMember
  split
  · simp [Option.guard, isTimeRhs, *]
  · rename_i hnot
    revert hrhs
    cases hr : (d.entry i).rhs with
    | time => simp [Option.guard, isTimeRhs, hr]
    | func tag op args hh => exact absurd hr (hnot tag op args hh)
    | _ => exact False.elim

variable {α : Type} [Scalar α] (hwf : d.WellFormed) (ht : d.TimeUnique)
include hwf ht

/-- The compact order runs the updates of the reference order, rearranged. -/
theorem compactUpdates_perm (pars : Array α) (t : α) (n : Nat) :
    (d.compactUpdates pars t n).Perm (d.orderUpdates pars t n) := by
  have hfun : (d.timeEntry.toList ++ (d.kernelOrder d.levels).map Prod.snd).Perm d.functions := by
    rw [timeEntry_toList ht]
    exact ((map_snd_kernelOrder_perm hwf d.levels).append_left _).trans
      (List.filter_append_perm _ _)
  rw [compactUpdates, orderUpdates, List.append_assoc]
  refine List.Perm.append_left _ ?_
  have := hfun.map fun i => d.entryUpdate t i n
  rwa [List.map_append, List.map_map] at this

omit ht in
/-- The time entry reads only cells known before its order. -/
theorem time_reads (hout : d.varNames.length ≤ d.nOutputs) (pars : Array α) {i n c : Nat}
    (hi : i ∈ d.functions) (hrhs : (d.entry i).rhs = .time) (hc : d.entryReads i n c) :
    d.KnownBefore n c ∨ c ∈ (d.prefixUpdates pars n).map Update.cell := by
  rcases entryReads_cases hwf hout pars hi hc with hk | hp | ⟨j, hj, -⟩
  · exact .inl hk
  · exact .inr hp
  · rw [refs_of_time hrhs] at hj
    cases hj

/-- In compact mode every update of order `n` reads only cells known before the order or
written before it in the order: an argument at order `n` of a kernel member is in the prefix,
is the time entry, which the straight block computes, or has a lower level, so that its kernel
ran before. -/
theorem causal_compactUpdates (hout : d.varNames.length ≤ d.nOutputs) (pars : Array α) (t : α)
    (n : Nat) : Causal (d.KnownBefore n) (d.compactUpdates pars t n) := by
  refine causal_append.2 ⟨causal_append.2 ⟨causal_prefixUpdates hwf pars n, ?_⟩, ?_⟩
  · refine causal_of_reads fun u hu c hc => ?_
    obtain ⟨i, hi, rfl⟩ := List.mem_map.1 hu
    obtain ⟨hif, hrhs⟩ := (mem_timeEntry ht).1 hi
    exact time_reads hwf hout pars hif hrhs hc
  · refine causal_map_of_pairwise pairwise_kernelOrder _ fun a ha c hc => ?_
    have hia := (mem_kernelOrder.1 ha).1
    obtain ⟨hlo, hhi⟩ := mem_functions.1 hia
    rcases entryReads_cases hwf hout pars hia hc with hk | hp | ⟨j, hj, hjp, rfl⟩
    · exact .inl (.inl hk)
    · exact .inl (.inr (by rw [List.map_append]; exact List.mem_append_left _ hp))
    · have hji : j < a.2 := (hwf.function_entry a.2 hlo hhi).refsBelow.lt_of_mem_refs hj
      have hjf : j ∈ d.functions := mem_functions.2 ⟨hjp, by omega⟩
      have hrhs := hwf.function_entry j hjp (by omega)
      cases hr : (d.entry j).rhs with
      | time =>
        -- the time entry ran in the straight block
        have hjt : j ∈ d.timeEntry.toList := (mem_timeEntry ht).2 ⟨hjf, hr⟩
        refine .inl (.inr ?_)
        rw [List.map_append, List.mem_append]
        exact .inr (List.mem_map.2 ⟨d.entryUpdate t j n, List.mem_map.2 ⟨j, hjt, rfl⟩, rfl⟩)
      | func tag op args hh =>
        -- an operator entry of a lower level: its kernel ran before
        obtain ⟨b, hb, hb₁, hb₂⟩ := exists_mem_kernelOrder d.levels hjf hr
        have hlev := level_of_mem_kernelOrder ha
        have hlt := levels_lt_of_ref hwf hlo hhi hj
        refine .inr ⟨b, hb, fun hab => ?_, fun hba => ?_, by rw [entryUpdate, hb₂]⟩
        · have := level_le_of_groupLe hab
          omega
        · rw [hba] at hb₂
          omega
      | _ =>
        rw [hr] at hrhs
        exact hrhs.elim

end Compact

end Decomposition

end TaylorOde
