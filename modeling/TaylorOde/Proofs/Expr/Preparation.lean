import TaylorOde.Proofs.Expr.Nodes
import TaylorOde.Decomposition.Build
import Mathlib
/-!
# Preparing expressions for decomposition

`Expr.prepare` splits long sums and expands powers with non-literal exponents, giving every node
it builds a tag derived from the node it is built for, the step that builds it and the pass.
This module shows what the decomposition relies on in a prepared family of expressions:

* every node of a prepared expression is a node of the input or one that preparation builds
  for a node of the input (`prepare_occurs`, `prepare_occurs_atom`), at most five per node
  and term of a long sum (`length_prepNew_le`);
* nodes keep caching their hashes and, over inputs whose tags name nodes and never extend one
  another by a step of preparation, the tags of the prepared family name nodes too
  (`WellTagged.prepared`).

The argument about tags is made once for any rewrite that derives tags this way
(`TagDerivation`), then applied to splitting and to power expansion in turn.
-/

namespace TaylorOde

namespace Expr

/-! ## Runs of a list -/

section Chunks

variable {α β : Type}

theorem mem_of_mem_chunks {n : Nat} {xs c : List α} {x : α} (hc : c ∈ chunks n xs)
    (hx : x ∈ c) : x ∈ xs := by
  induction xs using chunks.induct n with
  | case1 => simp [chunks] at hc
  | case2 xs hne hn =>
    rw [chunks] at hc
    simp only [hne, hn, dite_false, if_true, List.mem_singleton] at hc
    exact hc ▸ hx
  | case3 xs hne hn ih =>
    rw [chunks] at hc
    simp only [hne, hn, dite_false, if_false, List.mem_cons] at hc
    rcases hc with rfl | hc
    · exact List.mem_of_mem_take hx
    · exact List.mem_of_mem_drop (ih hc)

/-- Every run is non-empty, and the runs add up to the list. -/
theorem sum_length_chunks (n : Nat) (xs : List α) :
    ((chunks n xs).map List.length).sum = xs.length ∧ ∀ c ∈ chunks n xs, c ≠ [] := by
  induction xs using chunks.induct n with
  | case1 => simp [chunks]
  | case2 xs hne hn =>
    rw [chunks]
    simp [hne, hn]
  | case3 xs hne hn ih =>
    rw [chunks]
    simp only [hne, hn, dite_false, if_false, List.map_cons, List.sum_cons, List.mem_cons,
      forall_eq_or_imp]
    refine ⟨?_, ?_, ih.2⟩
    · rw [ih.1, List.length_take, List.length_drop]
      have : 0 < xs.length := List.length_pos_iff.2 hne
      omega
    · simpa [List.take_eq_nil_iff, hn] using hne

/-- All runs but the last hold `n` elements, so there are at most half as many runs as
elements, rounded up, when `2 ≤ n`. -/
theorem length_chunks_le {n : Nat} (hn : 2 ≤ n) (xs : List α) :
    2 * (chunks n xs).length ≤ xs.length + 1 := by
  induction xs using chunks.induct n with
  | case1 => simp [chunks]
  | case2 xs hne hn0 => omega
  | case3 xs hne hn0 ih =>
    rw [chunks]
    simp only [hne, hn0, dite_false, if_false, List.length_cons]
    rw [List.length_drop] at ih
    have : 0 < xs.length := List.length_pos_iff.2 hne
    by_cases hlong : n ≤ xs.length
    · omega
    · have : xs.drop n = [] := List.drop_eq_nil_of_le (by omega)
      rw [this] at ih ⊢
      simp [chunks]
      omega


end Chunks

/-! ## Node identity under rewriting -/

section Identity

/-- The derivation path of a tagged function node. -/
def path? : Expr → Option (List Nat)
  | .func (.path p) _ _ _ => some p
  | _ => none

theorem key_of_path?_none {x : Expr} (h : x.path? = none) : x.key = .shape x := by
  rcases x with _ | _ | _ | _ | ⟨_ | p, op, args, hh⟩ <;> simp_all [path?, key]

theorem key_of_path?_some {x : Expr} {p : List Nat} (h : x.path? = some p) :
    x.key = .tagged p := by
  rcases x with _ | _ | _ | _ | ⟨_ | q, op, args, hh⟩ <;> simp_all [path?, key]

/-- Nodes of one key are structurally equal when the key is a shape. -/
theorem beq_of_key_beq_of_path?_none {x y : Expr} (h : (x.key == y.key) = true)
    (hx : x.path? = none) : x.beq y = true := by
  rw [key_of_path?_none hx] at h
  cases hy : y.path? with
  | none => rwa [key_of_path?_none hy, NodeKey.shape_beq_shape] at h
  | some q => simp [key_of_path?_some hy] at h

theorem path?_eq_of_key_beq {x y : Expr} {p : List Nat} (h : (x.key == y.key) = true)
    (hx : x.path? = some p) : y.path? = some p := by
  rw [key_of_path?_some hx] at h
  cases hy : y.path? with
  | none => simp [key_of_path?_none hy] at h
  | some q =>
    rw [key_of_path?_some hy, NodeKey.tagged_beq_tagged, beq_iff_eq] at h
    rw [h]

@[simp] theorem child_anon (i : Nat) : NodeTag.anon.child i = .anon := rfl

@[simp] theorem child_path (p : List Nat) (i : Nat) :
    (NodeTag.path p).child i = .path (p ++ [i]) := rfl

@[simp] theorem path?_func_anon (op : Op) (args : List Expr) (h : UInt64) :
    (Expr.func .anon op args h).path? = none := rfl

@[simp] theorem path?_func_path (p : List Nat) (op : Op) (args : List Expr) (h : UInt64) :
    (Expr.func (.path p) op args h).path? = some p := rfl

theorem tag_of_path? {x : Expr} {q : List Nat} (h : x.path? = some q) : x.tag = .path q := by
  rcases x with _ | _ | _ | _ | ⟨_ | p, op, args, hh⟩ <;> simp_all [path?, tag]

/-- A node built by `node` caches the hash of its arguments. -/
theorem hash_eq_of_eq_node {t t' : NodeTag} {op op' : Op} {args args' : List Expr} {h : UInt64}
    (heq : Expr.func t op args h = node t' op' args') : h = nodeHash op args := by
  simp only [node, func.injEq] at heq
  obtain ⟨-, rfl, rfl, rfl⟩ := heq
  rfl

end Identity

/-! ## Splitting sums level by level -/

section Levels

variable {t : NodeTag} {split : Nat}

/-- The sums one level of splitting builds: one for each run of more than one term. -/
def splitLevelNew (t : NodeTag) (split : Nat) (level : List Expr) : List Expr :=
  (chunks split level).zipIdx.filterMap fun (chunk, j) =>
    match chunk with
    | [_] => none
    | many => some (node (t.child j) .sum many)

/-- The sums that splitting builds over all levels. -/
def splitLevelsNew (t : NodeTag) (split : Nat) : Nat → List Expr → List Expr
  | 0, _ => []
  | fuel + 1, level =>
    if level.length > split then
      splitLevelNew (t.child fuel) split level ++
        splitLevelsNew t split fuel (splitLevel (t.child fuel) split level)
    else []

theorem run_mem_splitLevelNew {level c : List Expr} {j : Nat}
    (hcj : (c, j) ∈ (chunks split level).zipIdx) (hne : ∀ a, c ≠ [a]) :
    node (t.child j) .sum c ∈ splitLevelNew t split level :=
  List.mem_filterMap.2 ⟨(c, j), hcj, by rcases c with _ | ⟨a, _ | ⟨b, r⟩⟩ <;> simp_all⟩

theorem splitLevel_occurs {level : List Expr} {x y : Expr} (hy : y ∈ splitLevel t split level)
    (hx : Occurs x y) : (∃ z ∈ level, Occurs x z) ∨ x ∈ splitLevelNew t split level := by
  simp only [splitLevel, List.mem_map] at hy
  obtain ⟨⟨c, j⟩, hcj, rfl⟩ := hy
  have hc : c ∈ chunks split level :=
    List.mem_of_getElem? (List.mem_zipIdx_iff_getElem?.1 hcj)
  split at hx
  · rename_i single hsingle
    have hcs : c = [single] := hsingle
    exact .inl ⟨single, mem_of_mem_chunks hc (by simp [hcs]), hx⟩
  · rename_i hne
    cases hx with
    | refl => exact .inr (run_mem_splitLevelNew hcj hne)
    | arg hz hocc => exact .inl ⟨_, mem_of_mem_chunks hc hz, hocc⟩

theorem splitLevels_occurs {fuel : Nat} {level : List Expr} {x y : Expr}
    (hy : y ∈ splitLevels t split fuel level) (hx : Occurs x y) :
    (∃ z ∈ level, Occurs x z) ∨ x ∈ splitLevelsNew t split fuel level := by
  induction fuel, level using splitLevels.induct t split with
  | case1 level => exact .inl ⟨y, hy, hx⟩
  | case2 fuel level hlong ih =>
    rw [splitLevels, if_pos hlong] at hy
    rw [splitLevelsNew, if_pos hlong, List.mem_append]
    rcases ih hy with ⟨z, hz, hxz⟩ | hnew
    · rcases splitLevel_occurs hz hxz with h | h
      · exact .inl h
      · exact .inr (.inl h)
    · exact .inr (.inr hnew)
  | case3 fuel level hshort =>
    rw [splitLevels, if_neg hshort] at hy
    exact .inl ⟨y, hy, hx⟩

theorem mem_splitLevelNew {level : List Expr} {x : Expr} (hx : x ∈ splitLevelNew t split level) :
    ∃ c j, (chunks split level)[j]? = some c ∧ x = node (t.child j) .sum c := by
  obtain ⟨⟨c, j⟩, hcj, hx⟩ := List.mem_filterMap.1 hx
  refine ⟨c, j, List.mem_zipIdx_iff_getElem?.1 hcj, ?_⟩
  rcases c with _ | ⟨a, _ | ⟨b, r⟩⟩ <;> simp_all

/-- A sum built at some level carries the tag of that level and its position there. -/
theorem mem_splitLevelsNew {fuel : Nat} {level : List Expr} {x : Expr}
    (hx : x ∈ splitLevelsNew t split fuel level) :
    ∃ f < fuel, ∃ j c, x = node ((t.child f).child j) .sum c := by
  induction fuel, level using splitLevels.induct t split with
  | case1 level => simp [splitLevelsNew] at hx
  | case2 fuel level hlong ih =>
    rw [splitLevelsNew, if_pos hlong, List.mem_append] at hx
    rcases hx with hx | hx
    · obtain ⟨c, j, -, rfl⟩ := mem_splitLevelNew hx
      exact ⟨fuel, Nat.lt_succ_self _, j, c, rfl⟩
    · obtain ⟨f, hf, j, c, rfl⟩ := ih hx
      exact ⟨f, Nat.lt_succ_of_lt hf, j, c, rfl⟩
  | case3 fuel level hshort => simp [splitLevelsNew, hshort] at hx

/-- One level builds one sum per position, so two of its sums with one tag are one sum. -/
theorem splitLevelNew_eq {P : List Nat} {level : List Expr} {x₁ x₂ : Expr}
    (hx₁ : x₁ ∈ splitLevelNew (.path P) split level)
    (hx₂ : x₂ ∈ splitLevelNew (.path P) split level) (htag : x₁.tag = x₂.tag) : x₁ = x₂ := by
  obtain ⟨c₁, j₁, hc₁, rfl⟩ := mem_splitLevelNew hx₁
  obtain ⟨c₂, j₂, hc₂, rfl⟩ := mem_splitLevelNew hx₂
  have hj : j₁ = j₂ := by simpa [node, tag] using htag
  subst hj
  rw [hc₁, Option.some.injEq] at hc₂
  rw [hc₂]

/-- Splitting builds one sum per level and position, so two of its sums with one tag are
one sum. -/
theorem splitLevelsNew_eq {P : List Nat} {fuel : Nat} {level : List Expr} {x₁ x₂ : Expr}
    (hx₁ : x₁ ∈ splitLevelsNew (.path P) split fuel level)
    (hx₂ : x₂ ∈ splitLevelsNew (.path P) split fuel level) (htag : x₁.tag = x₂.tag) :
    x₁ = x₂ := by
  induction fuel generalizing level with
  | zero => simp [splitLevelsNew] at hx₁
  | succ fuel ih =>
    by_cases hlong : level.length > split
    · rw [splitLevelsNew, if_pos hlong, List.mem_append] at hx₁ hx₂
      -- sums of this level and of deeper levels have different tags
      have level_tag : ∀ {l l' y z}, y ∈ splitLevelNew ((NodeTag.path P).child fuel) split l →
          z ∈ splitLevelsNew (.path P) split fuel l' → y.tag ≠ z.tag := by
        intro l l' y z hy hz hyz
        obtain ⟨c, j, -, rfl⟩ := mem_splitLevelNew hy
        obtain ⟨f, hf, j', c', rfl⟩ := mem_splitLevelsNew hz
        simp [node, tag] at hyz
        omega
      rcases hx₁ with hx₁ | hx₁ <;> rcases hx₂ with hx₂ | hx₂
      · exact splitLevelNew_eq hx₁ hx₂ htag
      · exact absurd htag (level_tag hx₁ hx₂)
      · exact absurd htag.symm (level_tag hx₂ hx₁)
      · exact ih hx₁ hx₂
    · rw [splitLevelsNew, if_neg hlong] at hx₁
      simp at hx₁

/-- Each sum built at one level takes a run of at least two terms. -/
theorem length_splitLevelNew_le (t : NodeTag) (split : Nat) (level : List Expr) :
    2 * (splitLevelNew t split level).length ≤ level.length := by
  have runs : ∀ (cs : List (List Expr)) (k : Nat), (∀ c ∈ cs, c ≠ []) →
      2 * ((cs.zipIdx k).filterMap fun (chunk, j) => match chunk with
        | [_] => none
        | many => some (node (t.child j) .sum many)).length ≤ (cs.map List.length).sum := by
    intro cs
    induction cs with
    | nil => simp
    | cons c cs ih =>
      intro k hne
      have hrest := ih (k + 1) (fun c' hc' => hne c' (List.mem_cons_of_mem _ hc'))
      rcases c with _ | ⟨a, _ | ⟨b, r⟩⟩
      · exact absurd rfl (hne [] (List.mem_cons_self ..))
      · simp only [List.zipIdx_cons, List.filterMap_cons, List.map_cons, List.sum_cons] at hrest ⊢
        omega
      · simp only [List.zipIdx_cons, List.filterMap_cons, List.map_cons, List.sum_cons,
          List.length_cons] at hrest ⊢
        omega
  have := runs (chunks split level) 0 (sum_length_chunks split level).2
  rwa [(sum_length_chunks split level).1] at this

/-- Splitting `n` terms builds fewer than `n` sums. -/
theorem length_splitLevelsNew_le (hsplit : 2 ≤ split) (fuel : Nat) (level : List Expr) :
    (splitLevelsNew t split fuel level).length ≤ level.length - 1 := by
  induction fuel, level using splitLevels.induct t split with
  | case1 level => simp [splitLevelsNew]
  | case2 fuel level hlong ih =>
    rw [splitLevelsNew, if_pos hlong, List.length_append]
    have hhere := length_splitLevelNew_le (t.child fuel) split level
    have hnext : 2 * (splitLevel (t.child fuel) split level).length ≤ level.length + 1 := by
      simpa [splitLevel] using length_chunks_le hsplit level
    have hpos : 0 < (splitLevel (t.child fuel) split level).length := by
      have hsum := (sum_length_chunks split level).1
      have : chunks split level ≠ [] := by rintro h; simp [h] at hsum; omega
      simpa [splitLevel, List.length_pos_iff] using this
    omega
  | case3 fuel level hshort => simp [splitLevelsNew, hshort]

end Levels


/-! ## Splitting long sums -/

section Split

variable {pass split : Nat}

/-- The nodes that splitting builds for one node of its input: the node that stands for it
(the node itself when nothing below it changed) and, for a long sum, the sums of the runs
of its terms. -/
def splitNew (pass split : Nat) : Expr → List Expr
  | e@(.func t op args _) =>
    splitSumsWith pass split e ::
      if op = .sum ∧ split < args.length then
        splitLevelsNew ((t.child 4).child pass) split args.length
          (args.map (splitSumsWith pass split))
      else []
  | _ => []

/-- What splitting does at a function node: a long sum becomes the sum of the runs of its
split terms; any other node stays itself when its arguments did, and is rebuilt over its
split arguments otherwise. -/
theorem splitSumsWith_cases (pass split : Nat) (t : NodeTag) (op : Op) (args : List Expr)
    (h : UInt64) :
    (op = .sum ∧ split < args.length ∧ splitSumsWith pass split (.func t op args h) =
        node ((t.child 5).child pass) .sum (splitLevels ((t.child 4).child pass) split
          args.length (args.map (splitSumsWith pass split)))) ∨
    (¬(op = .sum ∧ split < args.length) ∧
      ((splitSumsWith pass split (.func t op args h) = .func t op args h ∧
          sameNodes (args.map (splitSumsWith pass split)) args = true) ∨
        splitSumsWith pass split (.func t op args h) =
          node ((t.child 3).child pass) op (args.map (splitSumsWith pass split)))) := by
  rw [splitSumsWith.eq_1]
  by_cases hlong : op = .sum ∧ split < args.length
  · obtain ⟨rfl, hl⟩ := hlong
    exact .inl ⟨rfl, hl, by simp [hl]⟩
  · have hcond : (op == Op.sum && decide ((args.map (splitSumsWith pass split)).length > split))
        = false := by
      by_cases hop : op = .sum
      · subst hop
        have : ¬split < args.length := fun hl => hlong ⟨rfl, hl⟩
        simp [this]
      · simp [hop]
    rw [hcond, if_neg Bool.false_ne_true]
    refine .inr ⟨hlong, ?_⟩
    split
    · exact .inl ⟨rfl, ‹_›⟩
    · exact .inr rfl

theorem mem_splitNew {t : NodeTag} {op : Op} {args : List Expr} {h : UInt64} {x : Expr} :
    x ∈ splitNew pass split (.func t op args h) ↔
      x = splitSumsWith pass split (.func t op args h) ∨
      (op = .sum ∧ split < args.length ∧ x ∈ splitLevelsNew ((t.child 4).child pass) split
        args.length (args.map (splitSumsWith pass split))) := by
  simp only [splitNew, List.mem_cons]
  by_cases hlong : op = .sum ∧ split < args.length
  · simp [hlong]
  · rw [if_neg hlong]
    simp only [List.not_mem_nil, or_false]
    constructor
    · exact .inl
    · rintro (hx | ⟨hop, hl, -⟩)
      · exact hx
      · exact absurd ⟨hop, hl⟩ hlong

theorem splitSumsWith_of_op?_none {e : Expr} (he : e.op? = none) :
    splitSumsWith pass split e = e := by
  rcases e with _ | _ | _ | _ | ⟨t, op, args, h⟩ <;> simp_all [op?, splitSumsWith]

@[simp] theorem splitSumsWith_num (n : Literal) : splitSumsWith pass split (.num n) = .num n :=
  splitSumsWith_of_op?_none rfl

@[simp] theorem splitSumsWith_param (p : UInt32) :
    splitSumsWith pass split (.param p) = .param p :=
  splitSumsWith_of_op?_none rfl

@[simp] theorem splitSumsWith_var (v : String) : splitSumsWith pass split (.var v) = .var v :=
  splitSumsWith_of_op?_none rfl

@[simp] theorem splitSumsWith_time : splitSumsWith pass split .time = .time :=
  splitSumsWith_of_op?_none rfl

/-- Every node of a split expression is a node of the input or one that splitting builds
for a node of the input. -/
theorem splitSumsWith_occurs (e : Expr) :
    ∀ {x : Expr}, Occurs x (splitSumsWith pass split e) →
      Occurs x e ∨ ∃ n, Occurs n e ∧ x ∈ splitNew pass split n := by
  induction e using recArgs with
  | num n => intro x hx; rw [splitSumsWith_of_op?_none rfl] at hx; exact .inl hx
  | param p => intro x hx; rw [splitSumsWith_of_op?_none rfl] at hx; exact .inl hx
  | var v => intro x hx; rw [splitSumsWith_of_op?_none rfl] at hx; exact .inl hx
  | time => intro x hx; rw [splitSumsWith_of_op?_none rfl] at hx; exact .inl hx
  | func t op args h ih =>
    intro x hx
    -- a node below a split argument comes from the argument it was split from
    have from_arg : ∀ {y}, y ∈ args.map (splitSumsWith pass split) → Occurs x y →
        Occurs x (.func t op args h) ∨
          ∃ n, Occurs n (.func t op args h) ∧ x ∈ splitNew pass split n := by
      intro y hy hxy
      obtain ⟨a, ha, rfl⟩ := List.mem_map.1 hy
      rcases ih a ha hxy with hxa | ⟨n, hn, hxn⟩
      · exact .inl (.arg ha hxa)
      · exact .inr ⟨n, .arg ha hn, hxn⟩
    have self_new : ∀ {y}, y = splitSumsWith pass split (.func t op args h) →
        ∃ n, Occurs n (.func t op args h) ∧ y ∈ splitNew pass split n :=
      fun hy => ⟨_, .refl, mem_splitNew.2 (.inl hy)⟩
    rcases splitSumsWith_cases pass split t op args h with
      ⟨hop, hlong, heq⟩ | ⟨-, ⟨heq, -⟩ | heq⟩
    · rw [heq] at hx
      cases hx with
      | refl => exact .inr (self_new heq.symm)
      | arg hy hxy =>
        rcases splitLevels_occurs hy hxy with ⟨z, hz, hxz⟩ | hnew
        · exact from_arg hz hxz
        · exact .inr ⟨_, .refl, mem_splitNew.2 (.inr ⟨hop, hlong, hnew⟩)⟩
    · rw [heq] at hx
      exact .inl hx
    · rw [heq] at hx
      cases hx with
      | refl => exact .inr (self_new heq.symm)
      | arg hy hxy => exact from_arg hy hxy

/-- A split node caches the hash of its arguments. -/
theorem splitSumsWith_hashOk {e : Expr} (he : e.HashOk) :
    (splitSumsWith pass split e).HashOk := by
  intro t op args h hocc
  rcases splitSumsWith_occurs e hocc with hin | ⟨n, hn, hx⟩
  · exact he _ _ _ _ hin
  cases n with
  | num | param | var | time => simp [splitNew] at hx
  | func t' op' args' h' => ?_
  rcases mem_splitNew.1 hx with hx | ⟨-, -, hx⟩
  · rcases splitSumsWith_cases pass split t' op' args' h' with
      ⟨-, -, heq⟩ | ⟨-, ⟨heq, -⟩ | heq⟩ <;> rw [heq] at hx
    · exact hash_eq_of_eq_node hx
    · exact he _ _ _ _ (hx ▸ hn)
    · exact hash_eq_of_eq_node hx
  · obtain ⟨f, -, j, c, hc⟩ := mem_splitLevelsNew hx
    exact hash_eq_of_eq_node hc

/-- The suffixes by which splitting pass `pass` extends the tag of a node for the nodes it
builds: the node standing for it (`3`: rebuilt, `5`: a split sum) and the sums of runs
(`4`, with the level and the position). -/
def SplitSuffix (pass : Nat) (σ : List Nat) : Prop :=
  σ = [3, pass] ∨ σ = [5, pass] ∨ ∃ f j, σ = [4, pass, f, j]

/-- The node standing for a tagged node is the node itself or carries its tag extended by
`3` (rebuilt) or `5` (a split sum) and the pass. -/
theorem splitSumsWith_path (pass split : Nat) (p : List Nat) (op : Op) (args : List Expr)
    (h : UInt64) :
    (splitSumsWith pass split (.func (.path p) op args h) = .func (.path p) op args h) ∨
      (splitSumsWith pass split (.func (.path p) op args h)).path? = some (p ++ [3, pass]) ∨
      (splitSumsWith pass split (.func (.path p) op args h)).path? = some (p ++ [5, pass]) := by
  rcases splitSumsWith_cases pass split (.path p) op args h with
    ⟨-, -, heq⟩ | ⟨-, ⟨heq, -⟩ | heq⟩ <;> rw [heq]
  · exact .inr (.inr (by simp [node]))
  · exact .inl rfl
  · exact .inr (.inl (by simp [node]))

/-- A node that splitting builds is the node it stands for, or carries a tag derived from
that node's tag. -/
theorem splitNew_path {n x : Expr} {q : List Nat} (hx : x ∈ splitNew pass split n)
    (hq : x.path? = some q) :
    ∃ p, n.path? = some p ∧ ((x = n ∧ q = p) ∨ ∃ σ, q = p ++ σ ∧ SplitSuffix pass σ) := by
  cases n with
  | num | param | var | time => simp [splitNew] at hx
  | func t op args h => ?_
  rcases mem_splitNew.1 hx with rfl | ⟨-, -, hx⟩
  · cases t with
    | anon =>
      rcases splitSumsWith_cases pass split .anon op args h with
        ⟨-, -, heq⟩ | ⟨-, ⟨heq, -⟩ | heq⟩ <;> rw [heq] at hq <;> simp [node] at hq
    | path p =>
      refine ⟨p, rfl, ?_⟩
      rcases splitSumsWith_path pass split p op args h with heq | heq | heq
      · rw [heq, path?_func_path, Option.some.injEq] at hq
        exact .inl ⟨heq, hq.symm⟩
      · rw [heq, Option.some.injEq] at hq
        exact .inr ⟨_, hq.symm, .inl rfl⟩
      · rw [heq, Option.some.injEq] at hq
        exact .inr ⟨_, hq.symm, .inr (.inl rfl)⟩
  · obtain ⟨f, -, j, c, rfl⟩ := mem_splitLevelsNew hx
    cases t with
    | anon => simp [node] at hq
    | path p =>
      refine ⟨p, rfl, .inr ⟨[4, pass, f, j], ?_, .inr (.inr ⟨f, j, rfl⟩)⟩⟩
      simp [node] at hq
      simp [← hq]


/-- Splitting builds one node per tag for a node. -/
theorem splitNew_eq {n x₁ x₂ : Expr} {q : List Nat} (hx₁ : x₁ ∈ splitNew pass split n)
    (hx₂ : x₂ ∈ splitNew pass split n) (hq₁ : x₁.path? = some q) (hq₂ : x₂.path? = some q) :
    x₁ = x₂ := by
  cases n with
  | num | param | var | time => simp [splitNew] at hx₁
  | func t op args h => ?_
  -- the node standing for a node has a shorter tag than every sum of a run
  have stand_ne_run : ∀ {y z L l}, y = splitSumsWith pass split (.func t op args h) →
      z ∈ splitLevelsNew ((t.child 4).child pass) split L l →
      y.path? = some q → z.path? = some q → False := by
    intro y z L l hy hz hyq hzq
    obtain ⟨f, -, j, c, rfl⟩ := mem_splitLevelsNew hz
    cases t with
    | anon => simp [node] at hzq
    | path p =>
      simp only [node, child_path, path?_func_path, Option.some.injEq] at hzq
      subst hy
      rcases splitSumsWith_path pass split p op args h with heq | heq | heq
      all_goals
        rw [heq, ← hzq] at hyq
        simp at hyq
  rcases mem_splitNew.1 hx₁ with rfl | ⟨-, -, hx₁⟩ <;>
    rcases mem_splitNew.1 hx₂ with rfl | ⟨-, -, hx₂⟩
  · rfl
  · exact (stand_ne_run rfl hx₂ hq₁ hq₂).elim
  · exact (stand_ne_run rfl hx₁ hq₂ hq₁).elim
  · cases t with
    | anon => obtain ⟨f, -, j, c, rfl⟩ := mem_splitLevelsNew hx₁; simp [node] at hq₁
    | path p =>
      exact splitLevelsNew_eq (P := p ++ [4, pass]) (by simpa using hx₁) (by simpa using hx₂)
        ((tag_of_path? hq₁).trans (tag_of_path? hq₂).symm)

end Split

/-! ## The canonical constructors behind power expansion -/

section Canonical

/-- `y` is what a constructor given the tag `t` builds: a literal, or a function node under
`t`. -/
def BuiltUnder (t : NodeTag) (y : Expr) : Prop :=
  (∃ n, y = .num n) ∨ ∃ op args h, y = .func t op args h

theorem BuiltUnder.num (t : NodeTag) (n : Literal) : BuiltUnder t (.num n) := .inl ⟨n, rfl⟩

theorem BuiltUnder.node (t : NodeTag) (op : Op) (args : List Expr) :
    BuiltUnder t (node t op args) := .inr ⟨op, args, _, rfl⟩

theorem BuiltUnder.path? {t : NodeTag} {y : Expr} {q : List Nat} (hy : BuiltUnder t y)
    (hq : y.path? = some q) : t = .path q := by
  rcases hy with ⟨n, rfl⟩ | ⟨op, args, h, rfl⟩
  · simp [Expr.path?] at hq
  · cases t <;> simp_all

theorem num_of_fold? {v : Float} {k : FloatKind} {c : Expr} (h : fold? v k = some c) :
    ∃ n, c = .num n := by
  simp only [fold?, Option.map_eq_some_iff] at h
  obtain ⟨n, -, rfl⟩ := h
  exact ⟨n, rfl⟩

/-- What the canonical negation returns: a literal, the operand of a negation, or a new
negation node. -/
theorem neg_cases (t : NodeTag) (a : Expr) :
    (∃ n, neg t a = .num n) ∨ (∃ x ∈ a.args, neg t a = x) ∨ neg t a = node t .neg [a] := by
  unfold neg
  split
  · split
    · exact .inl (num_of_fold? ‹_›)
    · exact .inr (.inr rfl)
  · exact .inr (.inl ⟨_, by simp [args], rfl⟩)
  · exact .inr (.inr rfl)

/-- What the canonical product returns: a literal, one of its factors, the negation of one,
or a new product node. -/
theorem mul_cases (t : NodeTag) (a b : Expr) :
    (∃ n, mul t a b = .num n) ∨
      mul t a b ∈ [a, b, neg t a, neg t b, node t .mul [b, a], node t .mul [a, b]] := by
  unfold mul
  split
  · rename_i x y
    cases hf : fold? (x.value * y.value) (x.kind.common y.kind) with
    | some c =>
      obtain ⟨n, rfl⟩ := num_of_fold? hf
      exact .inl ⟨n, by simp only⟩
    | none =>
      simp only
      split_ifs <;> simp [zero, lit]
  · split_ifs <;> simp [zero, lit]

/-- What the canonical exponential returns: a literal or a new node. -/
theorem exp_cases (t : NodeTag) (a : Expr) :
    (∃ n, exp t a = .num n) ∨ exp t a = node t .exp [a] := by
  unfold exp
  split
  · split
    · exact .inl (num_of_fold? ‹_›)
    · exact .inr rfl
  · exact .inr rfl

/-- What the canonical logarithm returns: zero or a new node. -/
theorem log_cases (t : NodeTag) (a : Expr) : log t a = zero ∨ log t a = node t .log [a] := by
  unfold log
  split
  · exact .inl rfl
  · exact .inr rfl

theorem occurs_of_mem_args {x a : Expr} (hx : x ∈ a.args) : Occurs x a := by
  cases a with
  | func t op args h => exact .of_mem hx
  | _ => simp [args] at hx

/-- A node of a canonical negation is a node of its operand, or the result itself, a literal or
a node under the given tag. -/
theorem occurs_neg {t : NodeTag} {a y : Expr} (h : Occurs y (neg t a)) :
    Occurs y a ∨ (y = neg t a ∧ BuiltUnder t y) := by
  rcases neg_cases t a with ⟨n, hn⟩ | ⟨x, hx, hn⟩ | hn <;> rw [hn] at h
  · cases h
    exact .inr ⟨hn.symm, .num t _⟩
  · exact .inl (h.trans (occurs_of_mem_args hx))
  · cases h with
    | refl => exact .inr ⟨hn.symm, .node t _ _⟩
    | arg hb hy => exact .inl (by simpa using List.mem_singleton.1 hb ▸ hy)

/-- A node of a canonical product is a node of a factor, or the result itself, a literal or
a node under the given tag. -/
theorem occurs_mul {t : NodeTag} {a b y : Expr} (h : Occurs y (mul t a b)) :
    Occurs y a ∨ Occurs y b ∨ (y = mul t a b ∧ BuiltUnder t y) := by
  rcases mul_cases t a b with ⟨n, hn⟩ | hmem
  · rw [hn] at h
    cases h
    exact .inr (.inr ⟨hn.symm, .num t _⟩)
  simp only [List.mem_cons, List.not_mem_nil, or_false] at hmem
  rcases hmem with hm | hm | hm | hm | hm | hm <;> rw [hm] at h
  · exact .inl h
  · exact .inr (.inl h)
  · rcases occurs_neg h with hy | ⟨rfl, htag⟩
    · exact .inl hy
    · exact .inr (.inr ⟨hm.symm, htag⟩)
  · rcases occurs_neg h with hy | ⟨rfl, htag⟩
    · exact .inr (.inl hy)
    · exact .inr (.inr ⟨hm.symm, htag⟩)
  · cases h with
    | refl => exact .inr (.inr ⟨hm.symm, .node t _ _⟩)
    | arg hz hy =>
      simp only [List.mem_cons, List.not_mem_nil, or_false] at hz
      rcases hz with rfl | rfl
      · exact .inr (.inl hy)
      · exact .inl hy
  · cases h with
    | refl => exact .inr (.inr ⟨hm.symm, .node t _ _⟩)
    | arg hz hy =>
      simp only [List.mem_cons, List.not_mem_nil, or_false] at hz
      rcases hz with rfl | rfl
      · exact .inl hy
      · exact .inr (.inl hy)

theorem occurs_exp {t : NodeTag} {a y : Expr} (h : Occurs y (exp t a)) :
    Occurs y a ∨ (y = exp t a ∧ BuiltUnder t y) := by
  rcases exp_cases t a with ⟨n, hn⟩ | hn <;> rw [hn] at h
  · cases h
    exact .inr ⟨hn.symm, .num t _⟩
  · cases h with
    | refl => exact .inr ⟨hn.symm, .node t _ _⟩
    | arg hb hy => exact .inl (by simpa using List.mem_singleton.1 hb ▸ hy)

theorem occurs_log {t : NodeTag} {a y : Expr} (h : Occurs y (log t a)) :
    Occurs y a ∨ (y = log t a ∧ BuiltUnder t y) := by
  rcases log_cases t a with hn | hn <;> rw [hn] at h
  · cases h
    exact .inr ⟨hn.symm, .num t _⟩
  · cases h with
    | refl => exact .inr ⟨hn.symm, .node t _ _⟩
    | arg hb hy => exact .inl (by simpa using List.mem_singleton.1 hb ▸ hy)

theorem hashOk_num (n : Literal) : (Expr.num n).HashOk := by
  intro t op args h hocc
  cases hocc

theorem hashOk_neg {t : NodeTag} {a : Expr} (ha : a.HashOk) : (neg t a).HashOk := by
  rcases neg_cases t a with ⟨n, hn⟩ | ⟨x, hx, hn⟩ | hn <;> rw [hn]
  · exact hashOk_num n
  · exact ha.of_occurs (occurs_of_mem_args hx)
  · exact HashOk.node (by simpa using ha)

theorem hashOk_mul {t : NodeTag} {a b : Expr} (ha : a.HashOk) (hb : b.HashOk) :
    (mul t a b).HashOk := by
  rcases mul_cases t a b with ⟨n, hn⟩ | hmem
  · rw [hn]
    exact hashOk_num n
  simp only [List.mem_cons, List.not_mem_nil, or_false] at hmem
  rcases hmem with hm | hm | hm | hm | hm | hm <;> rw [hm]
  · exact ha
  · exact hb
  · exact hashOk_neg ha
  · exact hashOk_neg hb
  · exact HashOk.node (by simp [ha, hb])
  · exact HashOk.node (by simp [ha, hb])

theorem hashOk_exp {t : NodeTag} {a : Expr} (ha : a.HashOk) : (exp t a).HashOk := by
  rcases exp_cases t a with ⟨n, hn⟩ | hn <;> rw [hn]
  · exact hashOk_num n
  · exact HashOk.node (by simpa using ha)

theorem hashOk_log {t : NodeTag} {a : Expr} (ha : a.HashOk) : (log t a).HashOk := by
  rcases log_cases t a with hn | hn <;> rw [hn]
  · exact hashOk_num _
  · exact HashOk.node (by simpa using ha)

end Canonical

/-! ## Expanding powers -/

section Pow

variable {pass : Nat}

theorem expandPow_of_op?_none {e : Expr} (he : e.op? = none) : expandPow pass e = e := by
  rcases e with _ | _ | _ | _ | ⟨t, op, args, h⟩ <;> simp_all [op?, expandPow]

@[simp] theorem expandPow_num (n : Literal) : expandPow pass (.num n) = .num n :=
  expandPow_of_op?_none rfl

@[simp] theorem expandPow_param (p : UInt32) : expandPow pass (.param p) = .param p :=
  expandPow_of_op?_none rfl

@[simp] theorem expandPow_var (v : String) : expandPow pass (.var v) = .var v :=
  expandPow_of_op?_none rfl

@[simp] theorem expandPow_time : expandPow pass .time = .time :=
  expandPow_of_op?_none rfl

/-- The nodes that expanding powers builds for a node over its expanded arguments `args'`,
each with the step its tag is derived with: the exponential (`6`), product (`7`) and
logarithm (`8`) of `b ^ x = exp (x * log b)`, and the node rebuilt over new arguments
(`9`). -/
def powParts (pass : Nat) (t : NodeTag) (op : Op) (args' : List Expr) : List (Nat × Expr) :=
  let lg := log ((t.child 8).child pass) (args'.getD 0 zero)
  let m := mul ((t.child 7).child pass) (args'.getD 1 zero) lg
  [(6, exp ((t.child 6).child pass) m), (7, m), (8, lg),
    (9, node ((t.child 9).child pass) op args')]

/-- `y` is a node that power expansion builds for the node `n`: one of its parts, a literal
or a node under the tag of its step. -/
def PowBuilt (pass : Nat) (n y : Expr) : Prop :=
  ∃ t op args h k, n = .func t op args h ∧
    (k, y) ∈ powParts pass t op (args.map (expandPow pass)) ∧
    BuiltUnder ((t.child k).child pass) y

/-- What power expansion does at a function node: a power with a non-literal exponent
becomes the exponential part; any other node stays itself or becomes the rebuilt part. -/
theorem expandPow_cases (pass : Nat) (t : NodeTag) (op : Op) (args : List Expr) (h : UInt64) :
    (op = .pow ∧ ((args.map (expandPow pass)).getD 1 zero).isNumber = false ∧
      (6, expandPow pass (.func t op args h)) ∈ powParts pass t op (args.map (expandPow pass))) ∨
    expandPow pass (.func t op args h) = .func t op args h ∨
    (9, expandPow pass (.func t op args h)) ∈ powParts pass t op (args.map (expandPow pass)) := by
  rw [expandPow.eq_1]
  split
  · rename_i hpow
    simp only [Bool.and_eq_true, beq_iff_eq, Bool.not_eq_eq_eq_not, Bool.not_true] at hpow
    exact .inl ⟨hpow.1, hpow.2, by simp [powParts]⟩
  · split
    · exact .inr (.inl rfl)
    · exact .inr (.inr (by simp [powParts]))

/-- The exponent of a power with a non-literal exponent is its second argument. -/
theorem getElem?_of_getD_isNumber {l : List Expr} {i : Nat}
    (h : (l.getD i zero).isNumber = false) : l[i]? = some (l.getD i zero) := by
  rw [List.getD_eq_getElem?_getD] at h ⊢
  cases hl : l[i]? with
  | none => simp [hl, zero, lit, isNumber] at h
  | some v => rfl

/-- Every node of an expanded expression is a node of the input or one that expansion
builds for a node of the input. -/
theorem expandPow_occurs (e : Expr) :
    ∀ {y : Expr}, Occurs y (expandPow pass e) → Occurs y e ∨ ∃ n, Occurs n e ∧ PowBuilt pass n y := by
  induction e using recArgs with
  | func t op args h ih =>
    intro y hy
    -- a node below an expanded argument comes from the argument it was expanded from
    have from_arg : ∀ {z}, z ∈ args.map (expandPow pass) → Occurs y z →
        Occurs y (.func t op args h) ∨ ∃ n, Occurs n (.func t op args h) ∧ PowBuilt pass n y := by
      intro z hz hyz
      obtain ⟨a, ha, rfl⟩ := List.mem_map.1 hz
      rcases ih a ha hyz with hya | ⟨n, hn, hyn⟩
      · exact .inl (.arg ha hya)
      · exact .inr ⟨n, .arg ha hn, hyn⟩
    have built : ∀ {k}, (k, y) ∈ powParts pass t op (args.map (expandPow pass)) →
        BuiltUnder ((t.child k).child pass) y →
        ∃ n, Occurs n (.func t op args h) ∧ PowBuilt pass n y :=
      fun hk htag => ⟨_, .refl, t, op, args, h, _, rfl, hk, htag⟩
    rcases expandPow_cases pass t op args h with ⟨-, hx, hmem⟩ | heq | hmem
    · have hx' := getElem?_of_getD_isNumber hx
      have hb : (args.map (expandPow pass))[0]? =
          some ((args.map (expandPow pass)).getD 0 zero) := by
        have : 1 < (args.map (expandPow pass)).length := (List.getElem?_eq_some_iff.1 hx').1
        rw [List.getD_eq_getElem?_getD, List.getElem?_eq_getElem (by omega)]
        rfl
      simp only [powParts, List.mem_cons, Prod.mk.injEq, List.not_mem_nil, or_false] at hmem
      rcases hmem with ⟨-, heq⟩ | ⟨h7, -⟩ | ⟨h8, -⟩ | ⟨h9, -⟩
      · rw [heq] at hy
        rcases occurs_exp hy with hy | ⟨rfl, htag⟩
        · rcases occurs_mul hy with hy | hy | ⟨rfl, htag⟩
          · exact from_arg (List.mem_of_getElem? hx') hy
          · rcases occurs_log hy with hy | ⟨rfl, htag⟩
            · exact from_arg (List.mem_of_getElem? hb) hy
            · exact .inr (built (k := 8) (by simp [powParts]) htag)
          · exact .inr (built (k := 7) (by simp [powParts]) htag)
        · exact .inr (built (k := 6) (by simp [powParts]) htag)
      all_goals omega
    · rw [heq] at hy
      exact .inl hy
    · simp only [powParts, List.mem_cons, Prod.mk.injEq, List.not_mem_nil, or_false] at hmem
      rcases hmem with ⟨h6, -⟩ | ⟨h7, -⟩ | ⟨h8, -⟩ | ⟨-, heq⟩
      any_goals omega
      rw [heq] at hy
      cases hy with
      | refl => exact .inr (built (k := 9) (by simp [powParts]) (.node _ _ _))
      | arg hz hyz => exact from_arg hz hyz
  | _ =>
    intro y hy
    simp only [expandPow_num, expandPow_param, expandPow_var, expandPow_time] at hy
    exact .inl hy

/-- An expanded node caches the hash of its arguments. -/
theorem expandPow_hashOk (e : Expr) : e.HashOk → (expandPow pass e).HashOk := by
  induction e using recArgs with
  | func t op args h ih =>
    intro he
    have hargs : ∀ z ∈ args.map (expandPow pass), z.HashOk := by
      intro z hz
      obtain ⟨a, ha, rfl⟩ := List.mem_map.1 hz
      exact ih a ha (he.of_occurs (.of_mem ha))
    have hgetD : ∀ i, ((args.map (expandPow pass)).getD i zero).HashOk := by
      intro i
      rw [List.getD_eq_getElem?_getD]
      cases hi : (args.map (expandPow pass))[i]? with
      | none => exact hashOk_num _
      | some z => exact hargs z (List.mem_of_getElem? hi)
    rcases expandPow_cases pass t op args h with ⟨-, -, hmem⟩ | heq | hmem
    · simp only [powParts, List.mem_cons, Prod.mk.injEq, List.not_mem_nil, or_false] at hmem
      rcases hmem with ⟨-, heq⟩ | ⟨h7, -⟩ | ⟨h8, -⟩ | ⟨h9, -⟩
      · rw [heq]
        exact hashOk_exp (hashOk_mul (hgetD 1) (hashOk_log (hgetD 0)))
      all_goals omega
    · rw [heq]
      exact he
    · simp only [powParts, List.mem_cons, Prod.mk.injEq, List.not_mem_nil, or_false] at hmem
      rcases hmem with ⟨h6, -⟩ | ⟨h7, -⟩ | ⟨h8, -⟩ | ⟨-, heq⟩
      any_goals omega
      rw [heq]
      exact HashOk.node hargs
  | _ => intro he; simpa using he

/-- The suffixes by which expansion pass `pass` extends the tag of a node for the nodes it
builds: the step of the part and the pass. -/
def PowSuffix (pass : Nat) (σ : List Nat) : Prop :=
  ∃ k, σ = [k, pass] ∧ 6 ≤ k ∧ k ≤ 9

theorem mem_powParts {t : NodeTag} {op : Op} {args' : List Expr} {k : Nat} {y : Expr}
    (h : (k, y) ∈ powParts pass t op args') : 6 ≤ k ∧ k ≤ 9 := by
  simp only [powParts, List.mem_cons, Prod.mk.injEq, List.not_mem_nil, or_false] at h
  omega

/-- The parts of a node have different steps. -/
theorem powParts_unique {t : NodeTag} {op : Op} {args' : List Expr} {k : Nat} {y₁ y₂ : Expr}
    (h₁ : (k, y₁) ∈ powParts pass t op args') (h₂ : (k, y₂) ∈ powParts pass t op args') :
    y₁ = y₂ := by
  simp only [powParts, List.mem_cons, Prod.mk.injEq, List.not_mem_nil, or_false] at h₁ h₂
  rcases h₁ with ⟨rfl, rfl⟩ | ⟨rfl, rfl⟩ | ⟨rfl, rfl⟩ | ⟨rfl, rfl⟩ <;>
    rcases h₂ with ⟨h, rfl⟩ | ⟨h, rfl⟩ | ⟨h, rfl⟩ | ⟨h, rfl⟩ <;> simp_all

/-- A tagged node that expansion builds carries the tag of the node it is built for, extended
by the step of its part and the pass. -/
theorem powBuilt_path {n y : Expr} {q : List Nat} (hy : PowBuilt pass n y)
    (hq : y.path? = some q) : ∃ p, n.path? = some p ∧ ∃ σ, q = p ++ σ ∧ PowSuffix pass σ := by
  obtain ⟨t, op, args, h, k, rfl, hk, hbuilt⟩ := hy
  have ht := hbuilt.path? hq
  cases t with
  | anon => simp at ht
  | path p =>
    simp only [child_path, NodeTag.path.injEq] at ht
    exact ⟨p, rfl, [k, pass], by rw [← ht]; simp, k, rfl, mem_powParts hk⟩

/-- Expansion builds one node per tag for a node. -/
theorem powBuilt_eq {n y₁ y₂ : Expr} {q : List Nat} (hy₁ : PowBuilt pass n y₁)
    (hy₂ : PowBuilt pass n y₂) (hq₁ : y₁.path? = some q) (hq₂ : y₂.path? = some q) :
    y₁ = y₂ := by
  obtain ⟨t, op, args, h, k₁, rfl, hk₁, hb₁⟩ := hy₁
  obtain ⟨t', op', args', h', k₂, heq, hk₂, hb₂⟩ := hy₂
  simp only [func.injEq] at heq
  obtain ⟨rfl, rfl, rfl, rfl⟩ := heq
  have ht₁ := hb₁.path? hq₁
  have ht₂ := hb₂.path? hq₂
  have hk : k₁ = k₂ := by
    cases t with
    | anon => simp at ht₁
    | path p =>
      simp only [child_path, NodeTag.path.injEq] at ht₁ ht₂
      have := ht₁.trans ht₂.symm
      simpa using this
  subst hk
  exact powParts_unique hk₁ hk₂

end Pow

/-! ## Tags through a rewrite -/

section Derivation

/-- A tag names one node of the expressions. -/
def TagsIdentify (es : List Expr) : Prop :=
  ∀ x y p, (∃ e ∈ es, Occurs x e) → (∃ e ∈ es, Occurs y e) → x.path? = some p →
    y.path? = some p → x = y

/-- No tag of the expressions extends another by a step `k` with `steps k`. -/
def TagsFresh (steps : Nat → Prop) (es : List Expr) : Prop :=
  ∀ x y p k r, (∃ e ∈ es, Occurs x e) → (∃ e ∈ es, Occurs y e) → x.path? = some p →
    y.path? = some (p ++ k :: r) → ¬steps k

theorem TagsFresh.mono {steps steps' : Nat → Prop} {es : List Expr} (h : TagsFresh steps es)
    (hs : ∀ k, steps' k → steps k) : TagsFresh steps' es :=
  fun x y p k r hx hy hp hq hk => h x y p k r hx hy hp hq (hs k hk)

/-- Expressions whose tags name nodes agree with `beq` on every two nodes of one key. -/
theorem TagsIdentify.coherent {es : List Expr} (h : TagsIdentify es) : TagsCoherent es := by
  intro a b ha hb hkey
  cases hp : a.path? with
  | none => exact beq_of_key_beq_of_path?_none hkey hp
  | some p => exact h a b p ha hb hp (path?_eq_of_key_beq hkey hp) ▸ beq_self a

/-- A rewrite, run with a pass number, that builds nodes under tags derived from the input
nodes they are built for:
* every node of an output is a node of the input or one built for an input node `n`;
* a tagged built node is `n` itself or carries `n`'s tag extended by a suffix that starts
  with one of the rewrite's steps and the pass;
* one pass builds one node per tag for a node;
* outputs of inputs that cache their hashes cache theirs. -/
structure TagDerivation (R : Nat → Expr → Expr) (Built : Nat → Expr → Expr → Prop)
    (Suffix : Nat → List Nat → Prop) (steps : Nat → Prop) : Prop where
  occurs : ∀ i e y, Occurs y (R i e) → Occurs y e ∨ ∃ n, Occurs n e ∧ Built i n y
  path : ∀ i n y q, Built i n y → y.path? = some q →
    ∃ p, n.path? = some p ∧ ((y = n ∧ q = p) ∨ ∃ σ, q = p ++ σ ∧ Suffix i σ)
  suffix : ∀ i σ, Suffix i σ → ∃ k r, σ = k :: i :: r ∧ steps k
  eq : ∀ i n y₁ y₂ q, Built i n y₁ → Built i n y₂ → y₁.path? = some q → y₂.path? = some q →
    y₁ = y₂
  hash : ∀ i e, e.HashOk → (R i e).HashOk

section

variable {R : Nat → Expr → Expr} {Built : Nat → Expr → Expr → Prop}
  {Suffix : Nat → List Nat → Prop} {steps : Nat → Prop} {ps : List (Expr × Nat)}

/-- A tagged node of an output goes back to an input node whose tag its own extends, by
nothing (the node itself) or by a suffix of the output's pass. -/
theorem TagDerivation.origin (hR : TagDerivation R Built Suffix steps) {y : Expr}
    {q : List Nat} (hy : ∃ e ∈ ps.map (fun (e, i) => R i e), Occurs y e)
    (hq : y.path? = some q) :
    ∃ i n p σ, (∃ e ∈ ps.map Prod.fst, Occurs n e) ∧ n.path? = some p ∧ q = p ++ σ ∧
      ((σ = [] ∧ y = n) ∨ (Suffix i σ ∧ Built i n y)) := by
  obtain ⟨_, hmem, hocc⟩ := hy
  obtain ⟨⟨e, i⟩, hei, rfl⟩ := List.mem_map.1 hmem
  have he : e ∈ ps.map Prod.fst := List.mem_map.2 ⟨(e, i), hei, rfl⟩
  rcases hR.occurs i e y hocc with hye | ⟨n, hne, hbuilt⟩
  · exact ⟨i, y, q, [], ⟨e, he, hye⟩, hq, by simp, .inl ⟨rfl, rfl⟩⟩
  · obtain ⟨p, hp, ⟨hyn, hqp⟩ | ⟨σ, hqσ, hσ⟩⟩ := hR.path i n y q hbuilt hq
    · exact ⟨i, n, p, [], ⟨e, he, hne⟩, hp, by simp [hqp], .inl ⟨rfl, hyn⟩⟩
    · exact ⟨i, n, p, σ, ⟨e, he, hne⟩, hp, hqσ, .inr ⟨hσ, hbuilt⟩⟩

/-- Over fresh tags, a derived tag names its origin: two input tags extended by suffixes that
start with fresh steps agree only when tags and suffixes do. -/
theorem TagsFresh.parse {es : List Expr} (h : TagsFresh steps es) {n₁ n₂ : Expr}
    {p₁ p₂ σ₁ σ₂ : List Nat} (hn₁ : ∃ e ∈ es, Occurs n₁ e) (hn₂ : ∃ e ∈ es, Occurs n₂ e)
    (hp₁ : n₁.path? = some p₁) (hp₂ : n₂.path? = some p₂)
    (hσ₁ : ∀ k r, σ₁ = k :: r → steps k) (hσ₂ : ∀ k r, σ₂ = k :: r → steps k)
    (heq : p₁ ++ σ₁ = p₂ ++ σ₂) : p₁ = p₂ ∧ σ₁ = σ₂ := by
  rcases List.append_eq_append_iff.1 heq with ⟨a, rfl, rfl⟩ | ⟨c, rfl, rfl⟩
  · cases a with
    | nil => simp
    | cons k r => exact absurd (hσ₁ k (r ++ σ₂) rfl) (h n₁ n₂ p₁ k r hn₁ hn₂ hp₁ hp₂)
  · cases c with
    | nil => simp
    | cons k r => exact absurd (hσ₂ k (r ++ σ₁) rfl) (h n₂ n₁ p₂ k r hn₂ hn₁ hp₂ hp₁)

theorem TagDerivation.head (hR : TagDerivation R Built Suffix steps) {i : Nat}
    {σ : List Nat} (h : σ = [] ∨ Suffix i σ) : ∀ k r, σ = k :: r → steps k := by
  intro k r hσ
  rcases h with rfl | hs
  · simp at hσ
  · obtain ⟨k', r', rfl, hk'⟩ := hR.suffix i σ hs
    simp only [List.cons.injEq] at hσ
    exact hσ.1 ▸ hk'

/-- A rewrite that derives tags keeps tags naming nodes, when the input's tags name nodes and
never extend one another by the rewrite's steps. -/
theorem TagDerivation.identify (hR : TagDerivation R Built Suffix steps)
    (hid : TagsIdentify (ps.map Prod.fst)) (hfresh : TagsFresh steps (ps.map Prod.fst)) :
    TagsIdentify (ps.map fun (e, i) => R i e) := by
  intro y₁ y₂ q hy₁ hy₂ hq₁ hq₂
  obtain ⟨i₁, n₁, p₁, σ₁, hn₁, hp₁, hq₁', h₁⟩ := hR.origin hy₁ hq₁
  obtain ⟨i₂, n₂, p₂, σ₂, hn₂, hp₂, hq₂', h₂⟩ := hR.origin hy₂ hq₂
  have hσ₁ := hR.head (h₁.imp (·.1) (·.1))
  have hσ₂ := hR.head (h₂.imp (·.1) (·.1))
  obtain ⟨rfl, rfl⟩ := hfresh.parse hn₁ hn₂ hp₁ hp₂ hσ₁ hσ₂ (hq₁'.symm.trans hq₂')
  have hn : n₁ = n₂ := hid n₁ n₂ p₁ hn₁ hn₂ hp₁ hp₂
  subst hn
  rcases h₁ with ⟨rfl, rfl⟩ | ⟨hs₁, hb₁⟩ <;> rcases h₂ with ⟨hσ, rfl⟩ | ⟨hs₂, hb₂⟩
  · rfl
  · obtain ⟨k, r, hσ, -⟩ := hR.suffix i₂ [] hs₂
    simp at hσ
  · obtain ⟨k, r, hσ', -⟩ := hR.suffix i₁ _ hs₁
    simp [hσ] at hσ'
  · obtain ⟨k, r, hσ, -⟩ := hR.suffix i₁ σ₁ hs₁
    obtain ⟨k', r', hσ', -⟩ := hR.suffix i₂ σ₁ hs₂
    have hi : i₁ = i₂ := by
      rw [hσ] at hσ'
      simp only [List.cons.injEq] at hσ'
      exact hσ'.2.1
    subst hi
    exact hR.eq i₁ n₁ y₁ y₂ q hb₁ hb₂ hq₁ hq₂

/-- The tags a rewrite derives never extend one another by the steps of a later rewrite,
when no two suffixes of the rewrite differ by such a step and the input's tags are fresh for
the steps of both. -/
theorem TagDerivation.fresh (hR : TagDerivation R Built Suffix steps) {steps' : Nat → Prop}
    (hclosed : ∀ i₁ i₂ σ₁ σ₂ k r, (σ₁ = [] ∨ Suffix i₁ σ₁) → (σ₂ = [] ∨ Suffix i₂ σ₂) →
      σ₂ = σ₁ ++ k :: r → ¬steps' k)
    (hfresh : TagsFresh (fun k => steps k ∨ steps' k) (ps.map Prod.fst)) :
    TagsFresh steps' (ps.map fun (e, i) => R i e) := by
  intro y₁ y₂ q k r hy₁ hy₂ hq₁ hq₂ hk
  obtain ⟨i₁, n₁, p₁, σ₁, hn₁, hp₁, rfl, h₁⟩ := hR.origin hy₁ hq₁
  obtain ⟨i₂, n₂, p₂, σ₂, hn₂, hp₂, heq, h₂⟩ := hR.origin hy₂ hq₂
  have hs₁ : σ₁ = [] ∨ Suffix i₁ σ₁ := h₁.imp (·.1) (·.1)
  have hs₂ : σ₂ = [] ∨ Suffix i₂ σ₂ := h₂.imp (·.1) (·.1)
  have hσ₁ := hR.head hs₁
  have hσ₂ := hR.head hs₂
  rw [List.append_assoc] at heq
  rcases List.append_eq_append_iff.1 heq with ⟨a, hp, ha⟩ | ⟨c, hp, hc⟩
  · -- the second origin extends the first, by the head of the first suffix or by `k`
    cases a with
    | nil => exact hclosed i₁ i₂ σ₁ σ₂ k r hs₁ hs₂ (by simpa using ha.symm) hk
    | cons k' r' =>
      have : steps k' ∨ steps' k' := by
        cases σ₁ with
        | nil =>
          simp only [List.nil_append, List.cons_append, List.cons.injEq] at ha
          exact .inr (ha.1 ▸ hk)
        | cons k₁ r₁ =>
          simp only [List.cons_append, List.cons.injEq] at ha
          exact .inl (ha.1 ▸ hσ₁ k₁ r₁ rfl)
      exact hfresh n₁ n₂ p₁ k' r' hn₁ hn₂ hp₁ (hp ▸ hp₂) this
  · -- the first origin extends the second, by the head of the second suffix
    cases c with
    | nil => exact hclosed i₁ i₂ σ₁ σ₂ k r hs₁ hs₂ (by simpa using hc) hk
    | cons k' r' =>
      exact hfresh n₂ n₁ p₂ k' r' hn₂ hn₁ hp₂ (hp ▸ hp₁) (.inl (hσ₂ k' _ hc))

end

end Derivation

/-! ## Preparation keeps tags naming nodes -/

section Prepare

/-- Splitting derives tags by the steps `3` to `5`. -/
theorem splitDerivation (split : Nat) :
    TagDerivation (fun i => splitSumsWith i split) (fun i n y => y ∈ splitNew i split n)
      SplitSuffix (fun k => 3 ≤ k ∧ k ≤ 5) where
  occurs _ e _ hy := splitSumsWith_occurs e hy
  path _ _ _ _ hy hq := splitNew_path hy hq
  suffix _ σ hσ := by
    rcases hσ with rfl | rfl | ⟨f, j, rfl⟩
    · exact ⟨3, [], rfl, by omega⟩
    · exact ⟨5, [], rfl, by omega⟩
    · exact ⟨4, [f, j], rfl, by omega⟩
  eq _ _ _ _ _ h₁ h₂ hq₁ hq₂ := splitNew_eq h₁ h₂ hq₁ hq₂
  hash _ _ he := splitSumsWith_hashOk he

/-- Expanding powers derives tags by the steps `6` to `9`. -/
theorem powDerivation :
    TagDerivation expandPow PowBuilt PowSuffix (fun k => 6 ≤ k ∧ k ≤ 9) where
  occurs _ e _ hy := expandPow_occurs e hy
  path _ _ _ _ hy hq := by
    obtain ⟨p, hp, σ, hσ, hs⟩ := powBuilt_path hy hq
    exact ⟨p, hp, .inr ⟨σ, hσ, hs⟩⟩
  suffix _ σ hσ := by
    obtain ⟨k, rfl, hk⟩ := hσ
    exact ⟨k, [], rfl, hk⟩
  eq _ _ _ _ _ h₁ h₂ hq₁ hq₂ := powBuilt_eq h₁ h₂ hq₁ hq₂
  hash _ e he := expandPow_hashOk e he

/-- No suffix of splitting extends another by a step of power expansion. -/
theorem splitSuffix_closed (i₁ i₂ : Nat) (σ₁ σ₂ : List Nat) (k : Nat) (r : List Nat)
    (h₁ : σ₁ = [] ∨ SplitSuffix i₁ σ₁) (h₂ : σ₂ = [] ∨ SplitSuffix i₂ σ₂)
    (heq : σ₂ = σ₁ ++ k :: r) : ¬(6 ≤ k ∧ k ≤ 9) := by
  rcases h₁ with rfl | rfl | rfl | ⟨f, j, rfl⟩ <;>
    rcases h₂ with rfl | rfl | rfl | ⟨f', j', rfl⟩ <;> simp at heq <;> omega

/-- The invariants of expressions as they are built: every function node caches the hash
of its arguments, a tag names one node, and no tag extends another by a step from 3 to 9,
the steps by which preparation derives the tags of the nodes it builds. -/
structure WellTagged (es : List Expr) : Prop where
  hash : ∀ e ∈ es, e.HashOk
  identify : TagsIdentify es
  fresh : TagsFresh (fun k => 3 ≤ k ∧ k ≤ 9) es

/-- Preparing each expression with its position as the pass keeps every node caching its
hash and tags naming nodes. -/
theorem WellTagged.prepared {es : List Expr} (h : WellTagged es) (split : Nat) :
    let prepared := es.zipIdx.map fun (e, i) => expandPow i (splitSumsWith i split e)
    (∀ e ∈ prepared, e.HashOk) ∧ TagsIdentify prepared := by
  intro prepared
  have hfst : es.zipIdx.map Prod.fst = es := List.zipIdx_map_fst 0 es
  let split₁ := es.zipIdx.map fun (e, i) => (splitSumsWith i split e, i)
  have hsplit : split₁.map Prod.fst = es.zipIdx.map fun (e, i) => splitSumsWith i split e := by
    simp [split₁]
  have hprep : prepared = split₁.map fun (e, i) => expandPow i e := by
    simp [prepared, split₁]
  have hid₀ : TagsIdentify (es.zipIdx.map Prod.fst) := by rw [hfst]; exact h.identify
  have hfresh₀ : TagsFresh (fun k => 3 ≤ k ∧ k ≤ 9) (es.zipIdx.map Prod.fst) := by
    rw [hfst]; exact h.fresh
  have hid₁ : TagsIdentify (split₁.map Prod.fst) := hsplit ▸
    (splitDerivation split).identify hid₀ (hfresh₀.mono fun k hk => ⟨hk.1, by omega⟩)
  have hfresh₁ : TagsFresh (fun k => 6 ≤ k ∧ k ≤ 9) (split₁.map Prod.fst) := hsplit ▸
    (splitDerivation split).fresh splitSuffix_closed (hfresh₀.mono fun k hk => by omega)
  refine ⟨?_, hprep ▸ powDerivation.identify hid₁ hfresh₁⟩
  intro e he
  obtain ⟨⟨e₀, i⟩, hei, rfl⟩ := List.mem_map.1 he
  have he₀ : e₀ ∈ es := by rw [← hfst]; exact List.mem_map.2 ⟨(e₀, i), hei, rfl⟩
  exact powDerivation.hash i _ ((splitDerivation split).hash i e₀ (h.hash e₀ he₀))

end Prepare

/-! ## The nodes preparation builds -/

section Nodes

variable {pass split : Nat}

/-- The nodes that power expansion may build for a node: the parts of `powParts`. -/
def powNew (pass : Nat) : Expr → List Expr
  | .func t op args _ => (powParts pass t op (args.map (expandPow pass))).map Prod.snd
  | _ => []

/-- The nodes that preparation may build for a node of its input, the node included: the
nodes splitting builds for it, and the parts power expansion builds for each of them. -/
def prepNew (pass split : Nat) (n : Expr) : List Expr :=
  (n :: splitNew pass split n).flatMap fun m => m :: powNew pass m

theorem mem_powNew {n y : Expr} (hy : PowBuilt pass n y) : y ∈ powNew pass n := by
  obtain ⟨t, op, args, h, k, rfl, hk, -⟩ := hy
  exact List.mem_map.2 ⟨(k, y), hk, rfl⟩

theorem length_powNew_le (pass : Nat) (n : Expr) : (powNew pass n).length ≤ 4 := by
  cases n <;> simp [powNew, powParts]

theorem splitSumsWith_func (pass split : Nat) (t : NodeTag) (op : Op) (args : List Expr)
    (h : UInt64) :
    ∃ t' op' args' h', splitSumsWith pass split (.func t op args h) = .func t' op' args' h' := by
  rcases splitSumsWith_cases pass split t op args h with
    ⟨-, -, he⟩ | ⟨-, ⟨he, -⟩ | he⟩ <;> rw [he] <;> exact ⟨_, _, _, _, rfl⟩

/-- Splitting builds function nodes, and only for function nodes. -/
theorem func_of_mem_splitNew {n x : Expr} (hx : x ∈ splitNew pass split n) :
    n.op?.isSome ∧ x.op?.isSome := by
  cases n with
  | func t op args h =>
    refine ⟨rfl, ?_⟩
    rcases mem_splitNew.1 hx with rfl | ⟨-, -, hx⟩
    · obtain ⟨t', op', args', h', he⟩ := splitSumsWith_func pass split t op args h
      rw [he]
      rfl
    · obtain ⟨f, -, j, c, rfl⟩ := mem_splitLevelsNew hx
      rfl
  | _ => simp [splitNew] at hx

theorem length_splitNew_le (pass : Nat) (hsplit : 2 ≤ split) (n : Expr) :
    (splitNew pass split n).length ≤ n.args.length + 1 := by
  cases n with
  | func t op args h =>
    simp only [splitNew, List.length_cons, Expr.args]
    split
    · have := length_splitLevelsNew_le (t := (t.child 4).child pass) hsplit args.length
        (args.map (splitSumsWith pass split))
      simp only [List.length_map] at this
      omega
    · simp
  | _ => simp [splitNew]

/-- Preparation builds at most five nodes per node of its input and term of a long sum. -/
theorem length_prepNew_le (pass : Nat) (hsplit : 2 ≤ split) (n : Expr) :
    (prepNew pass split n).length ≤ 5 * (n.args.length + 2) := by
  have hpiece : ∀ m : Expr, (m :: powNew pass m).length ≤ 5 := fun m => by
    have := length_powNew_le pass m
    simp only [List.length_cons]
    omega
  have hflat : ∀ l : List Expr, (l.flatMap fun m => m :: powNew pass m).length ≤ 5 * l.length := by
    intro l
    induction l with
    | nil => simp
    | cons m l ih =>
      have := hpiece m
      simp only [List.flatMap_cons, List.length_append, List.length_cons] at this ⊢
      omega
  have := hflat (n :: splitNew pass split n)
  have := length_splitNew_le pass hsplit n
  simp only [prepNew, List.length_cons] at *
  omega

/-- Every function node of a prepared expression is one that preparation builds for a
function node of the input. -/
theorem prepare_occurs {e y : Expr}
    (hy : Occurs y (expandPow pass (splitSumsWith pass split e))) (hfun : y.op?.isSome) :
    ∃ n, Occurs n e ∧ n.op?.isSome ∧ y ∈ prepNew pass split n := by
  -- a node built by splitting, or one met in the split expression, and its power parts
  have split_node : ∀ {m}, Occurs m (splitSumsWith pass split e) → m.op?.isSome →
      ∃ n, Occurs n e ∧ n.op?.isSome ∧ (m = n ∨ m ∈ splitNew pass split n) := by
    intro m hm hmf
    rcases splitSumsWith_occurs e hm with hme | ⟨n, hne, hmn⟩
    · exact ⟨m, hme, hmf, .inl rfl⟩
    · exact ⟨n, hne, (func_of_mem_splitNew hmn).1, .inr hmn⟩
  have mem_prepNew : ∀ {n m z : Expr}, (m = n ∨ m ∈ splitNew pass split n) →
      (z = m ∨ z ∈ powNew pass m) → z ∈ prepNew pass split n := by
    intro n m z hm hz
    exact List.mem_flatMap.2 ⟨m, List.mem_cons.2 (hm.imp_left id), List.mem_cons.2 hz⟩
  rcases expandPow_occurs _ hy with hys | ⟨m, hm, hym⟩
  · obtain ⟨n, hn, hnf, hyn⟩ := split_node hys hfun
    exact ⟨n, hn, hnf, mem_prepNew hyn (.inl rfl)⟩
  · have hmf : m.op?.isSome := by
      obtain ⟨t, op, args, h, k, rfl, -⟩ := hym
      rfl
    obtain ⟨n, hn, hnf, hmn⟩ := split_node hm hmf
    exact ⟨n, hn, hnf, mem_prepNew hmn (.inr (mem_powNew hym))⟩

/-- Preparation builds literals and function nodes only: every other atom of a prepared
expression is an atom of the input. -/
theorem prepare_occurs_atom {e y : Expr}
    (hy : Occurs y (expandPow pass (splitSumsWith pass split e))) (hatom : y.op? = none) :
    (∃ c, y = .num c) ∨ Occurs y e := by
  have split_atom : Occurs y (splitSumsWith pass split e) → Occurs y e := by
    intro hys
    rcases splitSumsWith_occurs e hys with hye | ⟨n, -, hyn⟩
    · exact hye
    · have := (func_of_mem_splitNew hyn).2
      simp [hatom] at this
  rcases expandPow_occurs _ hy with hys | ⟨m, -, ⟨t, op, args, h, k, -, -, hbuilt⟩⟩
  · exact .inr (split_atom hys)
  · rcases hbuilt with hnum | ⟨op', args', h', rfl⟩
    · exact .inl hnum
    · simp [op?] at hatom

/-- Preparation succeeds when sums may keep at least two terms. -/
theorem prepare_eq (hsplit : 2 ≤ split) (e : Expr) :
    e.prepare pass split = .ok (expandPow pass (splitSumsWith pass split e)) := by
  simp [prepare, splitSumsPass, Nat.not_lt.2 hsplit, bind, Except.bind, pure, Except.pure]

end Nodes

end Expr

end TaylorOde
