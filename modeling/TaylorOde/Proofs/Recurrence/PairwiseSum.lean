import TaylorOde.Recurrence
import Mathlib.Data.Nat.Log
import Mathlib.Tactic.Set
/-!
# Pairwise summation

`CoeffOps.pairwiseSum` adds a list of values in rounds: each round adds neighbours from the
left and carries an odd last value over to the next round, until one value is left. The sum of
`k ≥ 1` values is then a tree of `k - 1` additions whose leaves are the values in their order,
and each round adds one level, so the tree has depth `⌈log₂ k⌉`.

To watch what the reduction asks of any builder, `CoeffOps.sumTraced b` runs `b` with a log
of the requests it is sent and pairs every value with its `AddTree`, the tree of additions
that built it from values no addition made. One round on the traced builder does what it does
on `b`, logs one addition per pair and pairs the trees up (`pairRound_sumTraced`); the whole
reduction follows by induction on the rounds (`pairwiseSumAux_sumTraced`). The main statement
is `CoeffOps.pairwiseSum_balanced`.
-/

namespace TaylorOde

/-- A value as the tree of additions that built it from values no addition made. -/
inductive AddTree (V : Type) where
  | leaf (v : V)
  | add (x y : AddTree V)

namespace AddTree

variable {V : Type}

/-- The values the additions start from, from the left. -/
def leaves : AddTree V → List V
  | leaf v => [v]
  | add x y => x.leaves ++ y.leaves

/-- The number of additions on a longest path from the root to a leaf. -/
def depth : AddTree V → Nat
  | leaf _ => 0
  | add x y => max x.depth y.depth + 1

/-- The trees one round of pairwise reduction makes: neighbours added from the left, an odd
last tree kept. -/
def pairUp : List (AddTree V) → List (AddTree V)
  | x :: y :: rest => add x y :: pairUp rest
  | rest => rest

theorem length_pairUp : ∀ ts : List (AddTree V), (pairUp ts).length = (ts.length + 1) / 2
  | x :: y :: rest => by
    rw [pairUp, List.length_cons, length_pairUp rest, List.length_cons, List.length_cons]
    omega
  | [] => by simp [pairUp]
  | [_] => by simp [pairUp]

/-- A round keeps the leaves and their order. -/
theorem flatMap_leaves_pairUp : ∀ ts : List (AddTree V),
    (pairUp ts).flatMap leaves = ts.flatMap leaves
  | x :: y :: rest => by simp [pairUp, leaves, flatMap_leaves_pairUp rest]
  | [] => rfl
  | [_] => rfl

theorem depth_le_of_mem_pairUp {d : Nat} : ∀ {ts : List (AddTree V)},
    (∀ t ∈ ts, t.depth ≤ d) → ∀ t ∈ pairUp ts, t.depth ≤ d + 1
  | x :: y :: rest, h, t, ht => by
    rw [pairUp, List.mem_cons] at ht
    rcases ht with rfl | ht
    · have hx := h x (by simp)
      have hy := h y (by simp)
      simp only [depth]
      omega
    · exact depth_le_of_mem_pairUp (fun t ht => h t (by simp [ht])) t ht
  | [], _, t, ht => by simp [pairUp] at ht
  | [x], h, t, ht => by
    change t ∈ [x] at ht
    exact Nat.le_succ_of_le (h t ht)

/-- Trees of depth at most `d`, the first of depth exactly `d`: what the round after `d` rounds
starts from. -/
structure Level (d : Nat) (ts : List (AddTree V)) : Prop where
  le : ∀ t ∈ ts, t.depth ≤ d
  head : ∀ t ∈ ts.head?, t.depth = d

/-- A round of at least two trees adds a level: the first sum holds the deepest tree. -/
theorem Level.pairUp {d : Nat} {x y : AddTree V} {rest : List (AddTree V)}
    (h : Level d (x :: y :: rest)) : Level (d + 1) (pairUp (x :: y :: rest)) := by
  refine ⟨depth_le_of_mem_pairUp h.le, fun t ht => ?_⟩
  rw [AddTree.pairUp, List.head?_cons, Option.mem_some_iff] at ht
  have hx := h.head x rfl
  have hy := h.le y (by simp)
  rw [← ht, depth]
  omega

/-- The values to be added, each a leaf, start at level zero. -/
theorem Level.leaves (vs : List V) : Level 0 (vs.map leaf) := by
  refine ⟨fun t ht => ?_, fun t ht => ?_⟩
  · obtain ⟨v, -, rfl⟩ := List.mem_map.1 ht
    exact Nat.le_refl 0
  · cases vs with
    | nil => cases ht
    | cons v vs =>
      obtain rfl : leaf v = t := Option.some.inj ht
      rfl

end AddTree

namespace CoeffOps

variable {σ V R : Type}

/-- A request to a builder: what it is asked to load, make or apply. -/
inductive Request (R : Type) where
  | load (r : R) (k : Nat)
  | constant (c : Const)
  | unary (f : UnaryFn)
  | binary (f : BinaryFn)

/-- Runs a step of a builder on its own state, logging the request and pairing the value it
makes with its addition tree. -/
def annotate (x : StateM σ V) (q : Request R) (tree : V → AddTree V) :
    StateM (σ × List (Request R)) (V × AddTree V) :=
  fun st => let (v, s) := x.run st.1; ((v, tree v), (s, st.2 ++ [q]))

/-- `b` with a log of the requests it is sent, and every value paired with the tree of
additions that built it; a value that any other request makes is a leaf. -/
def sumTraced (b : CoeffOps (StateM σ) V R) :
    CoeffOps (StateM (σ × List (Request R))) (V × AddTree V) R where
  load r k := annotate (b.load r k) (.load r k) .leaf
  isConstant := b.isConstant
  constant c := annotate (b.constant c) (.constant c) .leaf
  unary f x := annotate (b.unary f x.1) (.unary f) .leaf
  binary f x y := annotate (b.binary f x.1 y.1) (.binary f) fun v =>
    match f with
    | .add => .add x.2 y.2
    | _ => .leaf v

variable (b : CoeffOps (StateM σ) V R)

theorem run_sumTraced_add (x y : V × AddTree V) (st : σ × List (Request R)) :
    (b.sumTraced.binary .add x y).run st =
      ((((b.binary .add x.1 y.1).run st.1).1, .add x.2 y.2),
        (((b.binary .add x.1 y.1).run st.1).2, st.2 ++ [.binary .add])) := rfl

/-- One round on any builder: the first two terms are added, then the rest is paired. -/
theorem run_pairRound_cons_cons {τ W : Type} (c : CoeffOps (StateM τ) W R) (x y : W)
    (rest : List W) (s : τ) :
    (c.pairRound (x :: y :: rest)).run s =
      (((c.binary .add x y).run s).1 :: ((c.pairRound rest).run ((c.binary .add x y).run s).2).1,
        ((c.pairRound rest).run ((c.binary .add x y).run s).2).2) := rfl

theorem run_pairwiseSumAux_nil {τ W : Type} (c : CoeffOps (StateM τ) W R) (fuel : Nat)
    (s : τ) : (c.pairwiseSumAux fuel []).run s = (none, s) := by
  cases fuel <;> rfl

theorem run_pairwiseSumAux_singleton {τ W : Type} (c : CoeffOps (StateM τ) W R) (fuel : Nat)
    (x : W) (s : τ) : (c.pairwiseSumAux fuel [x]).run s = (some x, s) := by
  cases fuel <;> rfl

/-- A round that starts from at least two terms pairs them, then goes on with the sums. -/
theorem run_pairwiseSumAux_succ {τ W : Type} (c : CoeffOps (StateM τ) W R) (fuel : Nat)
    (x y : W) (rest : List W) (s : τ) :
    (c.pairwiseSumAux (fuel + 1) (x :: y :: rest)).run s =
      (c.pairwiseSumAux fuel ((c.pairRound (x :: y :: rest)).run s).1).run
        ((c.pairRound (x :: y :: rest)).run s).2 := rfl

/-- One round on the traced builder: it does on `b` what a round does, logs one addition per
pair and pairs the trees up. -/
theorem pairRound_sumTraced : ∀ (l : List (V × AddTree V)) (st : σ × List (Request R)),
    (b.pairRound (l.map Prod.fst)).run st.1 =
      (((b.sumTraced.pairRound l).run st).1.map Prod.fst, ((b.sumTraced.pairRound l).run st).2.1) ∧
    ((b.sumTraced.pairRound l).run st).2.2 = st.2 ++ List.replicate (l.length / 2) (.binary .add) ∧
    ((b.sumTraced.pairRound l).run st).1.map Prod.snd = AddTree.pairUp (l.map Prod.snd)
  | x :: y :: rest, st => by
    obtain ⟨hrun, hlog, htrees⟩ := pairRound_sumTraced rest
      (((b.binary .add x.1 y.1).run st.1).2, st.2 ++ [.binary .add])
    rw [List.map_cons, List.map_cons, run_pairRound_cons_cons, run_pairRound_cons_cons,
      run_sumTraced_add]
    refine ⟨?_, ?_, ?_⟩
    · rw [hrun]
      rfl
    · rw [hlog, List.length_cons, List.length_cons,
        show (rest.length + 1 + 1) / 2 = rest.length / 2 + 1 by omega, List.replicate_succ]
      simp
    · simp only [List.map_cons, htrees]
      rfl
  | [], st => ⟨rfl, show st.2 = _ by simp, rfl⟩
  | [_], st => ⟨rfl, show st.2 = _ by simp, rfl⟩

/-- The whole reduction on the traced builder, from `l.length` terms at level `d`, with enough
rounds left: it does on `b` what the reduction does, logs `l.length - 1` additions and nothing
else, gives none only for no terms, and otherwise a tree with the leaves of the terms in order
and `⌈log₂ (l.length)⌉` more levels. -/
theorem pairwiseSumAux_sumTraced : ∀ (fuel : Nat) (l : List (V × AddTree V))
    (st : σ × List (Request R)) (d : Nat), l.length ≤ fuel + 1 →
    AddTree.Level d (l.map Prod.snd) →
    let r := (b.sumTraced.pairwiseSumAux fuel l).run st
    (b.pairwiseSumAux fuel (l.map Prod.fst)).run st.1 = (r.1.map Prod.fst, r.2.1) ∧
    r.2.2 = st.2 ++ List.replicate (l.length - 1) (.binary .add) ∧
    (r.1 = none ↔ l = []) ∧
    ∀ x ∈ r.1, x.2.leaves = (l.map Prod.snd).flatMap AddTree.leaves ∧
      x.2.depth = d + Nat.clog 2 l.length
  | fuel, [], st, _, _, _ => by
    intro r
    have hr : r = (none, st) := run_pairwiseSumAux_nil _ fuel st
    rw [hr]
    exact ⟨run_pairwiseSumAux_nil _ fuel st.1, by simp, by simp, by simp⟩
  | fuel, [x], st, _, _, hl => by
    intro r
    have hr : r = (some x, st) := run_pairwiseSumAux_singleton _ fuel x st
    rw [hr]
    refine ⟨run_pairwiseSumAux_singleton _ fuel x.1 st.1, by simp, by simp, fun t ht => ?_⟩
    obtain rfl : t = x := (Option.some.inj ht).symm
    exact ⟨by simp, by simpa using hl.head t.2 rfl⟩
  | 0, _ :: _ :: _, _, _, hfuel, _ => absurd hfuel (by simp)
  | fuel + 1, x :: y :: rest, st, d, hfuel, hl => by
    intro r
    -- the first round, then the rounds after it from the paired-up terms one level up
    obtain ⟨hrun, hlog, htrees⟩ := pairRound_sumTraced b (x :: y :: rest) st
    set round := (b.sumTraced.pairRound (x :: y :: rest)).run st
    have hlen : round.1.length = (rest.length + 3) / 2 := by
      rw [← List.length_map (f := Prod.snd), htrees, AddTree.length_pairUp]
      simp
    have hlevel : AddTree.Level (d + 1) (round.1.map Prod.snd) := by
      rw [htrees]
      exact AddTree.Level.pairUp hl
    obtain ⟨hrun', hlog', hnone', htree'⟩ := pairwiseSumAux_sumTraced fuel round.1 round.2
      (d + 1) (by simp only [List.length_cons] at hfuel; omega) hlevel
    have hr : r = (b.sumTraced.pairwiseSumAux fuel round.1).run round.2 := rfl
    rw [← hr] at hrun' hlog' hnone' htree'
    refine ⟨?_, ?_, ?_, fun t ht => ?_⟩
    · rw [List.map_cons, List.map_cons, run_pairwiseSumAux_succ, ← List.map_cons,
        ← List.map_cons, hrun]
      exact hrun'
    · rw [hlog', hlog, List.append_assoc, List.replicate_append_replicate, hlen]
      simp only [List.length_cons]
      congr 2
      omega
    · simp only [reduceCtorEq, iff_false]
      rw [hnone']
      exact List.ne_nil_of_length_pos (by omega)
    · obtain ⟨hleaves, hdepth⟩ := htree' t ht
      refine ⟨by rw [hleaves, htrees, AddTree.flatMap_leaves_pairUp], ?_⟩
      -- a round halves the number of terms, rounding up, which takes one off `⌈log₂⌉`
      have hclog := Nat.clog_of_two_le (b := 2) (n := rest.length + 2) (by decide) (by omega)
      rw [show rest.length + 2 + 2 - 1 = rest.length + 3 by omega] at hclog
      rw [hdepth, hlen, List.length_cons, List.length_cons, hclog]
      omega

/-- Pairwise reduction of `k` values on any builder: it gives none exactly when `k = 0`; it sends
the builder `k - 1` additions and no other request; and the sum it returns is a tree of
additions whose leaves are the values, each once and in their order, of depth `⌈log₂ k⌉`. The
traced builder does on `b` what `b` does, so its trees and log are those of the run on `b`. -/
theorem pairwiseSum_balanced (terms : List V) (s : σ) :
    let traced := (b.sumTraced.pairwiseSum (terms.map fun v => (v, .leaf v))).run (s, [])
    (b.pairwiseSum terms).run s = (traced.1.map Prod.fst, traced.2.1) ∧
    (((b.pairwiseSum terms).run s).1 = none ↔ terms = []) ∧
    traced.2.2 = List.replicate (terms.length - 1) (.binary .add) ∧
    ∀ r ∈ traced.1, r.2.leaves = terms ∧ r.2.depth = Nat.clog 2 terms.length := by
  intro traced
  have hsnd : (terms.map fun v => (v, AddTree.leaf v)).map Prod.snd = terms.map AddTree.leaf := by
    simp [Function.comp_def]
  obtain ⟨hrun, hlog, hnone, htree⟩ :=
    pairwiseSumAux_sumTraced b (terms.map fun v => (v, AddTree.leaf v)).length
      (terms.map fun v => (v, .leaf v)) (s, []) 0 (Nat.le_succ _) (hsnd ▸ AddTree.Level.leaves terms)
  rw [show (terms.map fun v => (v, AddTree.leaf v)).map Prod.fst = terms by
    simp [Function.comp_def]] at hrun
  -- the plain run takes as many rounds as the traced one
  have hplain : (b.pairwiseSum terms).run s =
      (b.pairwiseSumAux (terms.map fun v => (v, AddTree.leaf v)).length terms).run s := by
    rw [List.length_map]
    rfl
  have hrun : (b.pairwiseSum terms).run s = (traced.1.map Prod.fst, traced.2.1) := hplain.trans hrun
  refine ⟨hrun, ?_, hlog.trans (by simp), fun t ht => ?_⟩
  · rw [hrun, Option.map_eq_none_iff]
    exact hnone.trans List.map_eq_nil_iff
  · obtain ⟨hleaves, hdepth⟩ := htree t ht
    refine ⟨?_, by rw [hdepth, List.length_map, Nat.zero_add]⟩
    rw [hleaves, hsnd, List.flatMap_map]
    simp [AddTree.leaves]

end CoeffOps

end TaylorOde
