import Mathlib
/-!
# Filling a tape cell by cell

A computation that fills a tape one cell at a time is a list of updates: each writes one cell
with a value computed from the tape as it stands, and that value reads only some cells
(`Update.Sound`). When every update reads only cells given at the start (`S`) or cells the
updates before it write (`Causal`), the order of the updates does not matter: two such orders of
the same updates, each cell written once, leave the same tape (`applyAll_perm`). The argument is
that the first update of one order reads only given cells, so it commutes past everything the
other order runs before it (`applyAll_move`). In the same way the tape left depends only on the
cells given (`applyAll_congr`).

How such a computation accesses the tape is described by `Traces`: update by update, reads of
cells the update may read, then the write of its cell. In a causal order every read is of a given
cell or of a cell written before it (`Traces.read_written`), and each cell is written as often as
an update writes it (`Traces.count_write`).
-/

namespace TaylorOde

namespace Tape

/-- One write of a tape: the cell written, the cells its value may read, and the value,
computed from the tape before the write. -/
structure Update (α : Type) where
  cell : Nat
  reads : Nat → Prop
  value : Array α → α

variable {α : Type}

namespace Update

/-- The value reads only the cells of `reads`. -/
def Sound (u : Update α) : Prop :=
  ∀ T T' : Array α, (∀ c, u.reads c → T[c]? = T'[c]?) → u.value T = u.value T'

/-- Writes the value into the cell; a cell off the tape is not written. -/
def apply (u : Update α) (T : Array α) : Array α := T.set! u.cell (u.value T)

@[simp] theorem size_apply (u : Update α) (T : Array α) : (u.apply T).size = T.size := by
  simp [apply]

theorem getElem?_apply_ne (u : Update α) (T : Array α) {c : Nat} (hc : c ≠ u.cell) :
    (u.apply T)[c]? = T[c]? := by
  simp [apply, Ne.symm hc]

theorem getElem?_apply_self (u : Update α) (T : Array α) :
    (u.apply T)[u.cell]? = if u.cell < T.size then some (u.value T) else none := by
  simp [apply, Array.getElem?_setIfInBounds_self]

/-- Two updates are independent when they write different cells and neither reads the cell of
the other. -/
def Indep (u v : Update α) : Prop := u.cell ≠ v.cell ∧ ¬u.reads v.cell ∧ ¬v.reads u.cell

/-- Writing a cell an update does not read leaves its value. -/
theorem value_apply {u v : Update α} (hu : u.Sound) (h : ¬u.reads v.cell) (T : Array α) :
    u.value (v.apply T) = u.value T :=
  hu _ _ fun _ hc => v.getElem?_apply_ne T fun hcv => h (hcv ▸ hc)

/-- Independent updates commute. -/
theorem apply_comm {u v : Update α} (hu : u.Sound) (hv : v.Sound) (h : u.Indep v)
    (T : Array α) : v.apply (u.apply T) = u.apply (v.apply T) := by
  obtain ⟨hne, huv, hvu⟩ := h
  show (u.apply T).set! v.cell (v.value (u.apply T)) = (v.apply T).set! u.cell (u.value (v.apply T))
  rw [value_apply hv hvu, value_apply hu huv]
  exact Array.setIfInBounds_comm _ _ hne

end Update

/-- Applies updates in order. -/
def applyAll (us : List (Update α)) (T : Array α) : Array α :=
  us.foldl (fun T u => u.apply T) T

@[simp] theorem applyAll_nil (T : Array α) : applyAll [] T = T := rfl

@[simp] theorem applyAll_cons (u : Update α) (us : List (Update α)) (T : Array α) :
    applyAll (u :: us) T = applyAll us (u.apply T) := rfl

theorem applyAll_append (us vs : List (Update α)) (T : Array α) :
    applyAll (us ++ vs) T = applyAll vs (applyAll us T) := by
  simp [applyAll, List.foldl_append]

@[simp] theorem size_applyAll (us : List (Update α)) (T : Array α) :
    (applyAll us T).size = T.size := by
  induction us generalizing T with
  | nil => rfl
  | cons u us ih => rw [applyAll_cons, ih, Update.size_apply]

/-- An update independent of each of a list of updates commutes past all of them. -/
theorem applyAll_move {u : Update α} {us : List (Update α)} (hu : u.Sound)
    (hs : ∀ v ∈ us, v.Sound) (h : ∀ v ∈ us, u.Indep v) (T : Array α) :
    applyAll us (u.apply T) = u.apply (applyAll us T) := by
  induction us generalizing T with
  | nil => rfl
  | cons v us ih =>
    have hv := List.mem_cons_self (a := v) (l := us)
    calc applyAll (v :: us) (u.apply T)
        = applyAll us (v.apply (u.apply T)) := rfl
      _ = applyAll us (u.apply (v.apply T)) := by rw [Update.apply_comm hu (hs v hv) (h v hv)]
      _ = u.apply (applyAll us (v.apply T)) :=
          ih (fun w hw => hs w (List.mem_cons_of_mem v hw))
            (fun w hw => h w (List.mem_cons_of_mem v hw)) _
      _ = u.apply (applyAll (v :: us) T) := rfl

/-! ## Causal orders -/

/-- Each update reads only cells of `S` or cells that the updates before it write. -/
def Causal (S : Nat → Prop) : List (Update α) → Prop
  | [] => True
  | u :: us => (∀ c, u.reads c → S c) ∧ Causal (fun c => S c ∨ c = u.cell) us

@[simp] theorem causal_nil (S : Nat → Prop) : Causal S ([] : List (Update α)) := trivial

theorem causal_cons {S : Nat → Prop} {u : Update α} {us : List (Update α)} :
    Causal S (u :: us) ↔ (∀ c, u.reads c → S c) ∧ Causal (fun c => S c ∨ c = u.cell) us :=
  Iff.rfl

/-- More given cells keep an order causal. -/
theorem Causal.mono {us : List (Update α)} :
    ∀ {S S' : Nat → Prop}, (∀ c, S c → S' c) → Causal S us → Causal S' us := by
  induction us with
  | nil => exact fun _ _ => trivial
  | cons u us ih =>
    intro S S' h hus
    obtain ⟨hu, hus⟩ := causal_cons.1 hus
    exact causal_cons.2 ⟨fun c hc => h c (hu c hc), ih (fun c hc => hc.imp_left (h c)) hus⟩

/-- Two runs one after the other are causal when the first is, and the second is with the
cells the first writes given. -/
theorem causal_append {us vs : List (Update α)} :
    ∀ {S : Nat → Prop}, Causal S (us ++ vs) ↔
      Causal S us ∧ Causal (fun c => S c ∨ c ∈ us.map Update.cell) vs := by
  induction us with
  | nil =>
    intro S
    simp only [List.nil_append, causal_nil, List.map_nil, List.not_mem_nil, or_false, true_and]
  | cons u us ih =>
    intro S
    rw [List.cons_append, causal_cons, causal_cons, ih, and_assoc]
    -- the cells given to `vs` are the same either way
    have hset : ∀ c, ((S c ∨ c = u.cell) ∨ c ∈ us.map Update.cell) ↔
        (S c ∨ c ∈ (u :: us).map Update.cell) := by
      intro c
      simp only [List.map_cons, List.mem_cons]
      tauto
    exact and_congr_right fun _ => and_congr_right fun _ =>
      ⟨Causal.mono fun c hc => (hset c).1 hc, Causal.mono fun c hc => (hset c).2 hc⟩

/-- In a causal order every update reads given cells or cells of the updates. -/
theorem Causal.reads_mem {us : List (Update α)} :
    ∀ {S : Nat → Prop}, Causal S us → ∀ {u : Update α}, u ∈ us → ∀ {c : Nat}, u.reads c →
      S c ∨ c ∈ us.map Update.cell := by
  induction us with
  | nil => exact fun _ _ hu => absurd hu List.not_mem_nil
  | cons v us ih =>
    intro S hus u hu c hc
    obtain ⟨hv, hus⟩ := causal_cons.1 hus
    rcases List.mem_cons.1 hu with rfl | hu
    · exact .inl (hv c hc)
    · rcases ih hus hu hc with (hS | rfl) | hmem
      · exact .inl hS
      · exact .inr (List.mem_cons_self ..)
      · exact .inr (List.mem_cons_of_mem _ hmem)

/-- Moving an update that reads only given cells to the front keeps the rest causal, its cell
given. -/
theorem Causal.of_middle {S : Nat → Prop} {A B : List (Update α)} {u : Update α}
    (h : Causal S (A ++ u :: B)) :
    Causal (fun c => S c ∨ c = u.cell) (A ++ B) := by
  obtain ⟨hA, hB⟩ := causal_append.1 h
  obtain ⟨-, hB⟩ := causal_cons.1 hB
  refine causal_append.2 ⟨hA.mono fun c hc => .inl hc, hB.mono fun c hc => ?_⟩
  rcases hc with (hc | hc) | hc
  · exact .inl (.inl hc)
  · exact .inr hc
  · exact .inl (.inr hc)

/-- An order is causal when each update, wherever it stands, reads given cells or cells of the
updates before it. -/
theorem causal_of_split {us : List (Update α)} :
    ∀ {S : Nat → Prop}, (∀ A u B, us = A ++ u :: B → ∀ c, u.reads c →
      S c ∨ c ∈ A.map Update.cell) → Causal S us := by
  induction us with
  | nil => exact fun _ => trivial
  | cons v us ih =>
    intro S h
    refine causal_cons.2 ⟨fun c hc => ?_, ih fun A u B hsplit c hc => ?_⟩
    · simpa using h [] v us rfl c hc
    · rcases h (v :: A) u B (by rw [hsplit, List.cons_append]) c hc with hS | hmem
      · exact .inl (.inl hS)
      · rw [List.map_cons, List.mem_cons] at hmem
        rcases hmem with rfl | hmem
        · exact .inl (.inr rfl)
        · exact .inr hmem

/-- Updates that read given cells only are causal in any order. -/
theorem causal_of_reads {us : List (Update α)} {S : Nat → Prop}
    (h : ∀ u ∈ us, ∀ c, u.reads c → S c) : Causal S us :=
  causal_of_split fun A u _ hsplit c hc =>
    .inl (h u (hsplit ▸ List.mem_append_right A List.mem_cons_self) c hc)

/-- The updates of a list in which every member is related to each one after it form a causal
order when each reads given cells or cells of members it is not related to. -/
theorem causal_map_of_pairwise {β : Type} {R : β → β → Prop} {l : List β} (hl : l.Pairwise R)
    (f : β → Update α) {S : Nat → Prop}
    (h : ∀ a ∈ l, ∀ c, (f a).reads c → S c ∨ ∃ b ∈ l, ¬R a b ∧ b ≠ a ∧ (f b).cell = c) :
    Causal S (l.map f) := by
  refine causal_of_split fun A' u B' hsplit c hc => ?_
  -- the split of the updates is the image of a split of the list
  obtain ⟨A, rest, hl', rfl, hrest⟩ := List.map_eq_append_iff.1 hsplit
  obtain ⟨a, B, rfl, rfl, -⟩ := List.map_eq_cons_iff.1 hrest
  subst hl'
  rcases h a (by simp) c hc with hS | ⟨b, hb, hab, hne, rfl⟩
  · exact .inl hS
  · refine .inr (List.mem_map_of_mem (List.mem_map_of_mem ?_))
    have hafter : ∀ x ∈ B, R a x := (List.pairwise_cons.1 (List.pairwise_append.1 hl).2.1).1
    rcases List.mem_append.1 hb with hb | hb
    · exact hb
    · rcases List.mem_cons.1 hb with rfl | hb
      · exact absurd rfl hne
      · exact absurd (hafter b hb) hab

/-- Runs one after another, the `n`-th causal given the cells that `S` gives or that the runs
before it write, make a causal order. -/
theorem causal_flatMap_range {L : Nat → List (Update α)} {S : Nat → Prop}
    (B : Nat → Nat → Prop) (hB : ∀ n c, B n c → S c ∨ ∃ k < n, c ∈ (L k).map Update.cell) :
    ∀ p, (∀ n < p, Causal (B n) (L n)) → Causal S ((List.range p).flatMap L) := by
  intro p
  induction p with
  | zero => exact fun _ => trivial
  | succ p ih =>
    intro h
    rw [List.range_succ, List.flatMap_append, List.flatMap_singleton]
    refine causal_append.2 ⟨ih fun n hn => h n (by omega), (h p (by omega)).mono fun c hc => ?_⟩
    rcases hB p c hc with hS | ⟨k, hk, hmem⟩
    · exact .inl hS
    · refine .inr ?_
      simp only [List.mem_map, List.mem_flatMap, List.mem_range] at hmem ⊢
      obtain ⟨u, hu, rfl⟩ := hmem
      exact ⟨u, ⟨k, hk, hu⟩, rfl⟩

/-- Two causal orders of the same updates, each cell written once and none given, leave the
same tape. -/
theorem applyAll_perm {us : List (Update α)} :
    ∀ {S : Nat → Prop} {vs : List (Update α)}, us.Perm vs → (us.map Update.cell).Nodup →
      (∀ u ∈ us, ¬S u.cell) → (∀ u ∈ us, u.Sound) → Causal S us → Causal S vs →
      ∀ T : Array α, applyAll us T = applyAll vs T := by
  induction us with
  | nil =>
    intro S vs h _ _ _ _ _ T
    rw [List.nil_perm.1 h]
  | cons u us ih =>
    intro S vs h hnd hdisj hsound hus hvs T
    -- `u` sits somewhere in the other order, after a run `A`
    obtain ⟨A, B, rfl⟩ := List.append_of_mem (h.subset List.mem_cons_self)
    have hperm : us.Perm (A ++ B) := List.Perm.cons_inv (h.trans List.perm_middle)
    have hnd' : ((A ++ u :: B).map Update.cell).Nodup := (h.map Update.cell).nodup_iff.1 hnd
    have hA : ∀ a ∈ A, a ∈ u :: us := fun a ha => h.symm.subset (List.mem_append_left _ ha)
    have hu_notA : u.cell ∉ A.map Update.cell := by
      rw [List.map_append, List.map_cons] at hnd'
      exact fun hmem => (List.nodup_append.1 hnd').2.2 _ hmem _ List.mem_cons_self rfl
    obtain ⟨hreads, hus⟩ := causal_cons.1 hus
    have hcausalA := (causal_append.1 hvs).1
    -- it reads only given cells, and `A` neither writes them nor reads its cell
    have hindep : ∀ a ∈ A, u.Indep a := by
      intro a ha
      refine ⟨fun hc => hu_notA (hc ▸ List.mem_map_of_mem ha), fun hr => ?_, fun hr => ?_⟩
      · exact hdisj a (hA a ha) (hreads _ hr)
      · rcases hcausalA.reads_mem ha hr with hS | hmem
        · exact hdisj u List.mem_cons_self hS
        · exact hu_notA hmem
    have hmove : applyAll (A ++ u :: B) T = applyAll (A ++ B) (u.apply T) := by
      rw [applyAll_append, applyAll_cons, ← applyAll_move (hsound u List.mem_cons_self)
        (fun a ha => hsound a (hA a ha)) hindep, ← applyAll_append]
    rw [applyAll_cons, hmove]
    refine ih hperm (List.nodup_cons.1 hnd).2 (fun v hv hc => ?_)
      (fun v hv => hsound v (List.mem_cons_of_mem u hv)) hus hvs.of_middle _
    rcases hc with hc | hc
    · exact hdisj v (List.mem_cons_of_mem u hv) hc
    · exact (List.nodup_cons.1 hnd).1 (hc ▸ List.mem_map_of_mem hv)

/-- The tape a causal order leaves depends only on the given cells: two tapes of one size
that agree there are left agreeing on the given cells and on every cell written. -/
theorem applyAll_congr {us : List (Update α)} (hsound : ∀ u ∈ us, u.Sound) :
    ∀ {S : Nat → Prop} {T T' : Array α}, Causal S us → T.size = T'.size →
      (∀ c, S c → T[c]? = T'[c]?) →
      ∀ c, S c ∨ c ∈ us.map Update.cell → (applyAll us T)[c]? = (applyAll us T')[c]? := by
  induction us with
  | nil =>
    intro S T T' _ _ hT c hc
    simp only [List.map_nil, List.not_mem_nil, or_false] at hc
    exact hT c hc
  | cons u us ih =>
    intro S T T' hus hsize hT c hc
    obtain ⟨hreads, hus⟩ := causal_cons.1 hus
    have hval : u.value T = u.value T' :=
      hsound u List.mem_cons_self T T' fun c hc => hT c (hreads c hc)
    -- after the first write the tapes agree on the given cells and on its cell
    have hT₁ : ∀ c, (S c ∨ c = u.cell) → (u.apply T)[c]? = (u.apply T')[c]? := by
      intro c hc
      by_cases hcu : c = u.cell
      · rw [hcu, u.getElem?_apply_self, u.getElem?_apply_self, hval, hsize]
      · rw [u.getElem?_apply_ne T hcu, u.getElem?_apply_ne T' hcu]
        exact hT c (hc.resolve_right hcu)
    refine ih (fun v hv => hsound v (List.mem_cons_of_mem u hv)) hus
      (by rw [Update.size_apply, Update.size_apply, hsize]) hT₁ c ?_
    rw [List.map_cons, List.mem_cons] at hc
    rcases hc with hc | hc | hc
    · exact .inl (.inl hc)
    · exact .inl (.inr hc)
    · exact .inr hc

/-! ## The accesses of a run -/

/-- A read or a write of a tape cell. -/
inductive Access where
  | read (c : Nat)
  | write (c : Nat)
  deriving DecidableEq

/-- `acc` is how the updates access the tape: for each update in turn, reads of cells its value
may read, then the write of its cell. -/
inductive Traces : List (Update α) → List Access → Prop
  | nil : Traces [] []
  | cons {u : Update α} {us : List (Update α)} {rs : List Nat} {acc : List Access} :
      (∀ c ∈ rs, u.reads c) → Traces us acc →
      Traces (u :: us) (rs.map Access.read ++ Access.write u.cell :: acc)

theorem Traces.append {us vs : List (Update α)} {acc acc' : List Access} (h : Traces us acc)
    (h' : Traces vs acc') : Traces (us ++ vs) (acc ++ acc') := by
  induction h with
  | nil => exact h'
  | cons hrs _ ih =>
    rw [List.cons_append, List.append_assoc, List.cons_append]
    exact .cons hrs ih

/-- Every cell is written once per update that writes it. -/
theorem Traces.count_write {us : List (Update α)} {acc : List Access} (h : Traces us acc)
    (c : Nat) : acc.count (.write c) = (us.map Update.cell).count c := by
  induction h with
  | nil => rfl
  | @cons u us rs acc _ _ ih =>
    have hreads : (rs.map Access.read).count (.write c) = 0 :=
      List.count_eq_zero_of_not_mem (by simp)
    rw [List.count_append, hreads, List.count_cons, ih, List.map_cons, List.count_cons]
    simp [beq_iff_eq]

/-- In a causal order every read is of a given cell or of a cell written before it. -/
theorem Traces.read_written {us : List (Update α)} {acc : List Access} (h : Traces us acc) :
    ∀ {S : Nat → Prop}, Causal S us → ∀ {pre post : List Access} {c : Nat},
      acc = pre ++ .read c :: post → S c ∨ .write c ∈ pre := by
  induction h with
  | nil => exact fun _ _ _ _ hacc => absurd hacc.symm (by simp)
  | @cons u us rs acc hrs _ ih =>
    intro S hcausal pre post c hacc
    obtain ⟨hreads, hcausal⟩ := causal_cons.1 hcausal
    rcases List.append_eq_append_iff.1 hacc with ⟨a', rfl, ha'⟩ | ⟨c', hrs', hc'⟩
    · -- the read comes after the write of `u`
      rcases a' with _ | ⟨x, a'⟩
      · simp at ha'
      · obtain ⟨rfl, hrest⟩ := List.cons_eq_cons.1 ha'
        rcases ih hcausal hrest with (hS | rfl) | hmem
        · exact .inl hS
        · exact .inr (List.mem_append_right _ List.mem_cons_self)
        · exact .inr (List.mem_append_right _ (List.mem_cons_of_mem _ hmem))
    · -- the read is one of the reads of `u`
      rcases c' with _ | ⟨x, c'⟩
      · simp at hc'
      · obtain ⟨rfl, -⟩ := List.cons_eq_cons.1 hc'
        have hmem : Access.read c ∈ rs.map Access.read := by
          rw [hrs']
          exact List.mem_append_right _ List.mem_cons_self
        obtain ⟨c₀, hc₀, hc₀c⟩ := List.mem_map.1 hmem
        cases hc₀c
        exact .inl (hreads c (hrs c hc₀))

end Tape

end TaylorOde
