import TaylorOde.Proofs.Decomposition.Pipeline
import Mathlib
/-!
# One time entry

Lowering gives the time one entry, the first time it meets it, and remembers where
(`Builder.time`); every later occurrence reuses that entry. So a decomposition has at most one
function entry standing for the time (`TimeUnique`), and the passes keep it so, since each
function entry they write is a kept entry renamed.

The builder invariant is `Builder.TimeOnce`: every time entry of the table is the one the
builder remembers. It holds at the start, where the table is the prefix, and each lowering keeps
it (`TimeOnce.lower`): a node appends entries of operators only.
-/

namespace TaylorOde

namespace Decomposition

open TaylorOde.Expr

/-- At most one function entry stands for the time. -/
def TimeUnique (d : Decomposition) : Prop :=
  ∀ i j, i ∈ d.functions → j ∈ d.functions → (d.entry i).rhs = .time → (d.entry j).rhs = .time →
    i = j

namespace Builder

section Run

variable {α β σ ε : Type} {f : α → StateT σ (Except ε) β}

/-- A state invariant that each step of a traversal keeps is kept by the traversal. -/
theorem run_mapM_inv {I : σ → Prop} {l : List α}
    (h : ∀ a ∈ l, ∀ s s' y, I s → (f a).run s = .ok (y, s') → I s') :
    ∀ s s' ys, I s → (l.mapM f).run s = .ok (ys, s') → I s' := by
  induction l with
  | nil =>
    intro s s' ys hs hrun
    obtain ⟨-, rfl⟩ := run_mapM_nil.1 hrun
    exact hs
  | cons a l ih =>
    intro s s' ys hs hrun
    obtain ⟨y, s₁, ys', ha, hl, -⟩ := run_mapM_cons.1 hrun
    exact ih (fun a' ha' => h a' (List.mem_cons_of_mem a ha')) s₁ s' ys'
      (h a List.mem_cons_self s s₁ y hs ha) hl

end Run

/-- Every time entry of the table is the one the builder remembers. -/
def TimeOnce (b : Builder) : Prop :=
  ∀ j e, b.entries[j]? = some e → e.rhs = .time → b.time = some (Expr.elem j)

/-- The entries laid out for a node are operator entries, none of them the time. -/
theorem layout_rhs_ne_time {a : Nat} {op : Op} {xs : List Expr} :
    ∀ e ∈ (layout a op xs).1, e.rhs ≠ .time := by
  cases op <;> simp [layout, Expr.node]

theorem timeOnce_start {names : List String} {params : List UInt32} :
    (start names params).TimeOnce := by
  intro j e he hrhs
  -- the prefix holds variables and parameters only
  have hmem : e ∈ (start names params).entries := Array.mem_of_getElem? he
  simp only [start, Array.mem_append, List.mem_toArray, List.mem_map] at hmem
  rcases hmem with ⟨v, -, rfl⟩ | ⟨p, -, rfl⟩ <;> cases hrhs

/-- Appending the entries of a node keeps the invariant. -/
theorem TimeOnce.append {b : Builder} (h : b.TimeOnce) (op : Op) (xs : List Expr) :
    (b.append op xs).1.TimeOnce := by
  intro j e he hrhs
  rw [append_entries] at he
  rw [append_time]
  rcases Nat.lt_or_ge j b.entries.size with hj | hj
  · rw [Array.getElem?_append_left hj] at he
    exact h j e he hrhs
  · rw [Array.getElem?_append_right hj] at he
    exact absurd hrhs (layout_rhs_ne_time e (Array.mem_of_getElem? he))

/-- The first time entry, pushed while none stood in the table, keeps the invariant. -/
theorem TimeOnce.push_time {b : Builder} (h : b.TimeOnce) (hnone : b.time = none) :
    ({ b with entries := b.entries.push { rhs := .time }, time := some (Expr.elem b.entries.size) } :
      Builder).TimeOnce := by
  intro j e he hrhs
  rcases Nat.lt_or_ge j b.entries.size with hj | hj
  · rw [Array.getElem?_push, if_neg (by omega)] at he
    rw [h j e he hrhs] at hnone
    cases hnone
  · have hsize : j = b.entries.size := by
      have := (Array.getElem?_eq_some_iff.1 he).1
      simp only [Array.size_push] at this
      omega
    rw [hsize]

/-- Lowering an expression keeps the invariant. -/
theorem TimeOnce.lower (e : Expr) :
    ∀ (b b' : Builder) (x : Expr), b.TimeOnce → (Builder.lower e).run b = .ok (x, b') →
      b'.TimeOnce := by
  induction e using Expr.recArgs with
  | num n =>
    intro b b' x h hrun
    obtain ⟨-, rfl⟩ := lower_num_run.1 hrun
    exact h
  | var v =>
    intro b b' x h hrun
    obtain ⟨_, -, -, rfl⟩ := lower_var_run.1 hrun
    exact h
  | param p =>
    intro b b' x h hrun
    obtain ⟨_, -, -, rfl⟩ := lower_param_run.1 hrun
    exact h
  | time =>
    intro b b' x h hrun
    rcases lower_time_run.1 hrun with ⟨-, rfl⟩ | ⟨hnone, -, rfl⟩
    · exact h
    · exact h.push_time hnone
  | func t op args hh ih =>
    intro b b' x h hrun
    rcases lower_func_run.1 hrun with ⟨-, rfl⟩ | ⟨-, xs, b₁, hargs, -, rfl⟩
    · exact h
    · have h₁ : b₁.TimeOnce := run_mapM_inv (fun a ha s s' y hs hs' => ih a ha s s' y hs hs')
        b b₁ xs h hargs
      exact h₁.append op xs

/-- Two time entries of a table with the invariant are one. -/
theorem TimeOnce.eq {b : Builder} (h : b.TimeOnce) {i j : Nat} {e e' : Entry}
    (hi : b.entries[i]? = some e) (hj : b.entries[j]? = some e') (he : e.rhs = .time)
    (he' : e'.rhs = .time) : i = j := by
  have hij : some (Expr.elem i) = some (Expr.elem j) := (h i e hi he).symm.trans (h j e' hj he')
  exact Variable.elementary_inj (Expr.var.inj (Option.some.inj hij))

end Builder

open Decomposition.Builder

/-- A freshly lowered table has at most one time entry. -/
theorem ofPrepared_timeUnique {names : List String} {prepared : List Expr} {d : Decomposition}
    (h : ofPrepared names prepared = .ok d) : d.TimeUnique := by
  obtain ⟨refs, b, hrun, rfl⟩ := ofPrepared_eq_ok.1 h
  have hb : b.TimeOnce := run_mapM_inv (fun a _ => TimeOnce.lower a) _ b refs timeOnce_start hrun
  have hlen := run_mapM_length hrun
  -- the function entries are the builder's entries past the prefix
  have hentry : ∀ i ∈ (⟨b.entries ++ (refs.map fun r => ({ rhs := r } : Entry)).toArray, names,
      paramsOf prepared, prepared.length⟩ : Decomposition).functions,
      b.entries[i]? = some ((⟨b.entries ++ (refs.map fun r => ({ rhs := r } : Entry)).toArray,
        names, paramsOf prepared, prepared.length⟩ : Decomposition).entry i) := by
    intro i hi
    have hlt : i < b.entries.size := by
      have := (mem_functions.1 hi).2
      simp only [functionsEnd, Array.size_append, List.size_toArray, List.length_map, hlen] at this
      omega
    simp only [entry, Array.getElem?_append_left hlt, Array.getElem?_eq_getElem hlt,
      Option.getD_some]
  intro i j hi hj hti htj
  exact hb.eq (hentry i hi) (hentry j hj) hti htj

/-- A right-hand side renamed to the time was the time. -/
theorem eq_time_of_renameRhs {r : Nat → Nat} {rhs : Expr} (h : renameRhs r rhs = .time) :
    rhs = .time := by
  cases rhs with
  | func t op args hh => simp [renameRhs, Expr.node] at h
  | _ =>
    simp only [renameRhs, renameArg] at h
    split at h
    · simp [Expr.elem] at h
    · exact h

/-- A renumbering keeps a single time entry: each function entry it writes is a kept entry
renamed. -/
theorem Renumbering.timeUnique {d d' : Decomposition} {r : Nat → Nat} {keep : Nat → Prop}
    (hr : Renumbering d d' r keep) (h : d.TimeUnique) : d'.TimeUnique := by
  intro k k' hk hk' htk htk'
  obtain ⟨hlo, hhi⟩ := mem_functions.1 hk
  obtain ⟨hlo', hhi'⟩ := mem_functions.1 hk'
  obtain ⟨i, hi, rfl, he, -⟩ := hr.source k hlo hhi
  obtain ⟨i', hi', rfl, he', -⟩ := hr.source k' hlo' hhi'
  rw [he] at htk
  rw [he'] at htk'
  have hsame : i = i' := h i i' (mem_functions.2 (hr.keep_function i hi))
    (mem_functions.2 (hr.keep_function i' hi')) (eq_time_of_renameRhs htk)
    (eq_time_of_renameRhs htk')
  rw [hsame]

namespace Decomposes

variable {names : List String} {prepared : List Expr} {d : Decomposition}

/-- Merging keeps a single time entry. -/
theorem timeUnique_cse_dce (h : Decomposes names prepared d) (ht : d.TimeUnique) :
    (cse d).dce.TimeUnique := by
  obtain ⟨r, hr, hsize⟩ := cse_renumbering h.wellFormed
  obtain ⟨r', hr', -⟩ := dce_renumbering (h.renumber hr hsize).wellFormed
  exact hr'.timeUnique (hr.timeUnique ht)

/-- Every combination of passes keeps a single time entry. -/
theorem timeUnique_runPasses (h : Decomposes names prepared d) (ht : d.TimeUnique)
    (merge order : Bool) : (Decomposition.runPasses merge order d).TimeUnique := by
  have h₁ : Decomposes names prepared (if merge then (cse d).dce else d) ∧
      (if merge then (cse d).dce else d).TimeUnique := by
    cases merge
    · exact ⟨h, ht⟩
    · exact ⟨h.cse_dce, h.timeUnique_cse_dce ht⟩
  cases order
  · exact h₁.2
  · obtain ⟨r, hr, -⟩ := reorder_renumbering h₁.1.wellFormed
    exact hr.timeUnique h₁.2

end Decomposes

/-- A successful build over non-elementary names, of well-tagged outputs whose nodes `N`
covers with room for their entries, is well formed with at most one time entry. -/
theorem build_timeUnique {names : List String} {outputs : List Expr} {opts : DecomposeOptions}
    {N : List Expr} {d : Decomposition} (h : build names outputs opts = .ok d)
    (hne : outputs ≠ []) (hnames : ∀ v ∈ names, Variable.elementaryIndex? v = none)
    (hvars : ∀ e ∈ outputs, ∀ v, Occurs (.var v) e → v ∈ names) (htag : WellTagged outputs)
    (hN : ∀ e ∈ outputs, ∀ n, Occurs n e → n.op?.isSome → n ∈ N)
    (hroom : names.length + outputs.length * (25 * nodeWeight N + 1) + 2 ^ 33 ≤ 2 ^ 64) :
    d.WellFormed ∧ d.TimeUnique := by
  obtain ⟨d₀, hd₀, hbuild, hdec⟩ := build_decomposes (two_le_sumSplit_of_build h hne) hnames
    hvars htag hN hroom
  rw [hbuild, Except.ok.injEq] at h
  subst h
  exact ⟨(hdec opts.cse opts.reorder).wellFormed,
    (hdec false false).timeUnique_runPasses (ofPrepared_timeUnique hd₀) opts.cse opts.reorder⟩

/-- The decomposition of an ODE system, with well-tagged right-hand sides and extra
expressions whose nodes `N` covers with room for their entries, is well formed with at most
one time entry. -/
theorem ofSystem_timeUnique {eqs : List (Expr × Expr)} {sys : OdeSystem} {extra : List Expr}
    {opts : DecomposeOptions} {N : List Expr} {d : Decomposition}
    (hsys : OdeSystem.ofEquations eqs = .ok sys) (htag : WellTagged (sys.rhs ++ extra))
    (hN : ∀ e ∈ sys.rhs ++ extra, ∀ n, Occurs n e → n.op?.isSome → n ∈ N)
    (hroom : sys.state.length + (sys.rhs ++ extra).length * (25 * nodeWeight N + 1) + 2 ^ 33 ≤
      2 ^ 64)
    (h : ofSystem sys extra opts = .ok d) : d.WellFormed ∧ d.TimeUnique := by
  obtain ⟨hextra, hbuild⟩ := ofSystem_ok h
  obtain ⟨hplain, hrhs, hsome⟩ := ofEquations_valid hsys
  have hne : sys.rhs ++ extra ≠ [] := fun hnil => hsome (List.append_eq_nil_iff.1 hnil).1
  refine build_timeUnique hbuild hne hplain (fun f hf => ?_) htag hN hroom
  rcases List.mem_append.1 hf with hf | hf
  · exact hrhs f hf
  · exact hextra f hf

end Decomposition

end TaylorOde
