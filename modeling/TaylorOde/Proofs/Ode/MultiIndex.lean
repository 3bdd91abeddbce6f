import TaylorOde.Ode.Variational
import Mathlib.Data.Nat.Choose.Sum
/-!
# Multi-indices and the names of variational variables

`multiIndices n k` lists every multi-index over `n` arguments of total order `k` exactly once,
and there are `C(n - 1 + k, k)` of them. The state of a variational system lists, layer by
layer in increasing total order, every component `k < D` with every multi-index of the layer
(`layerIndices`, `indicesUpTo`); by the hockey-stick identity there are `D · C(n + K, K)` of
them up to total order `K`.

A variational variable is named `∂[(i,e),…]x` after the nonzero entries `e` at positions
`i` of its multi-index. The name reads back: the base name and the multi-index are
determined by the name (`variationalName_inj`), and no variational name is elementary or
lacks the variational prefix.
-/

namespace TaylorOde

/-! ## Enumeration of the multi-indices -/

theorem multiIndices_succ_succ (n k : Nat) :
    multiIndices (n + 2) k =
      (List.range (k + 1)).reverse.flatMap fun e => (multiIndices (n + 1) (k - e)).map (e :: ·) :=
  rfl

/-- The multi-indices of a total order are exactly the lists of the right length with that
sum. -/
theorem mem_multiIndices {n k : Nat} {m : List Nat} (hn : 0 < n) :
    m ∈ multiIndices n k ↔ m.length = n ∧ m.sum = k := by
  obtain ⟨n, rfl⟩ : ∃ n', n = n' + 1 := ⟨n - 1, by omega⟩
  induction n generalizing k m with
  | zero =>
    constructor
    · intro hm
      rw [show multiIndices 1 k = [[k]] from rfl, List.mem_singleton] at hm
      simp [hm]
    · rintro ⟨hlen, hsum⟩
      obtain ⟨a, rfl⟩ := List.length_eq_one_iff.1 hlen
      simp_all [show multiIndices 1 k = [[k]] from rfl]
  | succ n ih =>
    rw [multiIndices_succ_succ, List.mem_flatMap]
    constructor
    · rintro ⟨e, he, hm⟩
      obtain ⟨m', hm', rfl⟩ := List.mem_map.1 hm
      obtain ⟨hlen, hsum⟩ := (ih (Nat.succ_pos n)).1 hm'
      have hek : e ≤ k := Nat.lt_succ_iff.1 (List.mem_range.1 (List.mem_reverse.1 he))
      refine ⟨by simp [hlen], ?_⟩
      rw [List.sum_cons, hsum]
      omega
    · rintro ⟨hlen, hsum⟩
      obtain ⟨e, m', rfl⟩ := List.exists_cons_of_length_eq_add_one hlen
      rw [List.sum_cons] at hsum
      refine ⟨e, List.mem_reverse.2 (List.mem_range.2 (by omega)), List.mem_map.2 ⟨m', ?_, rfl⟩⟩
      exact (ih (Nat.succ_pos n)).2 ⟨by simpa using hlen, by omega⟩

theorem nodup_multiIndices (n k : Nat) : (multiIndices n k).Nodup := by
  induction n, k using multiIndices.induct with
  | case1 k => exact List.nodup_nil
  | case2 k => exact List.nodup_singleton _
  | case3 n k ih =>
    rw [multiIndices_succ_succ, List.nodup_flatMap]
    refine ⟨fun e _ => (ih e).map fun _ _ h => List.cons_injective h, ?_⟩
    -- the blocks for different first entries are disjoint: their heads differ
    refine List.Pairwise.imp ?_ (List.pairwise_reverse.2 (List.nodup_range.imp Ne.symm))
    intro e e' hne m hm hm'
    obtain ⟨_, _, rfl⟩ := List.mem_map.1 hm
    obtain ⟨_, _, h⟩ := List.mem_map.1 hm'
    exact hne (List.cons_eq_cons.1 h).1.symm

/-- There are `C(n + k, n)` multi-indices of total order `k` over `n + 1` arguments. -/
theorem length_multiIndices (n k : Nat) : (multiIndices (n + 1) k).length = (n + k).choose n := by
  induction n generalizing k with
  | zero => simp [show multiIndices 1 k = [[k]] from rfl]
  | succ n ih =>
    rw [multiIndices_succ_succ, List.length_flatMap, List.map_reverse, List.sum_reverse]
    simp only [List.length_map, ih]
    rw [← List.sum_toFinset _ List.nodup_range, List.toFinset_range,
      ← Finset.sum_range_reflect]
    calc ∑ j ∈ Finset.range (k + 1), (n + (k - (k + 1 - 1 - j))).choose n
        = ∑ j ∈ Finset.range (k + 1), (j + n).choose n := by
          refine Finset.sum_congr rfl fun j hj => ?_
          have := Finset.mem_range.1 hj
          congr 1
          omega
      _ = (n + 1 + k).choose (n + 1) := by
          rw [Nat.sum_range_add_choose]
          congr 1
          omega

/-- The multi-indices come in strictly decreasing lexicographic order: the first entry
decreases from block to block, and within a block the rest decreases. -/
theorem pairwise_gt_multiIndices (n k : Nat) : (multiIndices n k).Pairwise fun a b => b < a := by
  induction n, k using multiIndices.induct with
  | case1 k => exact List.Pairwise.nil
  | case2 k => exact List.pairwise_singleton _ _
  | case3 n k ih =>
    rw [multiIndices_succ_succ, List.pairwise_flatMap, List.pairwise_reverse]
    refine ⟨fun e _ => ?_, List.pairwise_lt_range.imp fun {e e'} hlt x hx y hy => ?_⟩
    · rw [List.pairwise_map]
      exact (ih e).imp fun h => List.cons_lt_cons_iff.2 (.inr ⟨rfl, h⟩)
    · -- a block with a larger first entry comes first
      obtain ⟨_, -, rfl⟩ := List.mem_map.1 hx
      obtain ⟨_, -, rfl⟩ := List.mem_map.1 hy
      exact List.cons_lt_cons_iff.2 (.inl hlt)

/-- Over `n + 1` arguments, the multi-indices of total order `k` are every list of `n + 1`
natural numbers summing to `k`, each exactly once and nothing else, in strictly decreasing
lexicographic order; so there are `C(n + k, k)` of them. Over no arguments there are none. -/
theorem multiIndices_enumerates (n k : Nat) :
    (∀ m, (multiIndices (n + 1) k).count m = if m.length = n + 1 ∧ m.sum = k then 1 else 0) ∧
    (multiIndices (n + 1) k).Pairwise (fun a b => b < a) ∧
    (multiIndices (n + 1) k).length = (n + k).choose k ∧
    multiIndices 0 k = [] := by
  refine ⟨fun m => ?_, pairwise_gt_multiIndices _ _, ?_, rfl⟩
  · split
    · exact List.count_eq_one_of_mem (nodup_multiIndices _ _)
        ((mem_multiIndices (Nat.succ_pos n)).2 ‹_›)
    · exact List.count_eq_zero.2 fun hm => ‹¬_› ((mem_multiIndices (Nat.succ_pos n)).1 hm)
  · rw [length_multiIndices, Nat.choose_symm_add]

example : multiIndices 2 2 = [[2, 0], [1, 1], [0, 2]] := by decide

theorem multiIndices_zero (n : Nat) : multiIndices (n + 1) 0 = [List.replicate (n + 1) 0] := by
  have hlen : (multiIndices (n + 1) 0).length = 1 := by simp [length_multiIndices]
  obtain ⟨m, hm⟩ := List.length_eq_one_iff.1 hlen
  have hmem := (mem_multiIndices (Nat.succ_pos n)).1 (hm ▸ List.mem_singleton_self m)
  rw [hm, List.eq_replicate_iff.2 ⟨hmem.1, fun a ha => ?_⟩]
  exact Nat.eq_zero_of_le_zero (hmem.2 ▸ List.le_sum_of_mem ha)

/-! ## The layers of a variational state -/

/-- The components and multi-indices of total order `j`, as a layer of the variational state
lists them: multi-index by multi-index, each with every component. -/
def layerIndices (nArgs dim j : Nat) : List (Nat × List Nat) :=
  (multiIndices nArgs j).flatMap fun m => (List.range dim).map fun k => (k, m)

/-- The layers of total order `0 … order`, in turn. -/
def indicesUpTo (nArgs dim order : Nat) : List (Nat × List Nat) :=
  (List.range (order + 1)).flatMap (layerIndices nArgs dim)

section Layers

variable {nArgs dim : Nat}

theorem mem_layerIndices (hn : 0 < nArgs) {j : Nat} {p : Nat × List Nat} :
    p ∈ layerIndices nArgs dim j ↔ p.1 < dim ∧ p.2.length = nArgs ∧ p.2.sum = j := by
  simp only [layerIndices, List.mem_flatMap, List.mem_map, List.mem_range, mem_multiIndices hn]
  constructor
  · rintro ⟨m, ⟨hlen, hsum⟩, k, hk, rfl⟩
    exact ⟨hk, hlen, hsum⟩
  · rintro ⟨hk, hlen, hsum⟩
    exact ⟨p.2, ⟨hlen, hsum⟩, p.1, hk, rfl⟩

theorem nodup_layerIndices (j : Nat) : (layerIndices nArgs dim j).Nodup := by
  rw [layerIndices, List.nodup_flatMap]
  refine ⟨fun m _ => List.nodup_range.map fun _ _ h => (Prod.mk.inj h).1, ?_⟩
  refine (nodup_multiIndices nArgs j).imp fun hne p hp hp' => ?_
  obtain ⟨_, _, rfl⟩ := List.mem_map.1 hp
  obtain ⟨_, _, h⟩ := List.mem_map.1 hp'
  exact hne (Prod.mk.inj h).2.symm

theorem length_layerIndices (n j : Nat) :
    (layerIndices (n + 1) dim j).length = dim * (n + j).choose n := by
  rw [layerIndices, List.length_flatMap]
  simp [length_multiIndices, Nat.mul_comm]

theorem indicesUpTo_succ (order : Nat) :
    indicesUpTo nArgs dim (order + 1) =
      indicesUpTo nArgs dim order ++ layerIndices nArgs dim (order + 1) := by
  rw [indicesUpTo, List.range_succ, List.flatMap_append, List.flatMap_singleton]
  rfl

/-- The state of total order zero is the original components, each with the zero index. -/
theorem indicesUpTo_zero (hn : 0 < nArgs) :
    indicesUpTo nArgs dim 0 = (List.range dim).map fun k => (k, List.replicate nArgs 0) := by
  obtain ⟨n, rfl⟩ : ∃ n, nArgs = n + 1 := ⟨nArgs - 1, by omega⟩
  simp [indicesUpTo, layerIndices, multiIndices_zero]

theorem mem_indicesUpTo (hn : 0 < nArgs) {order : Nat} {p : Nat × List Nat} :
    p ∈ indicesUpTo nArgs dim order ↔ p.1 < dim ∧ p.2.length = nArgs ∧ p.2.sum ≤ order := by
  simp only [indicesUpTo, List.mem_flatMap, List.mem_range, mem_layerIndices hn]
  constructor
  · rintro ⟨j, hj, hk, hlen, rfl⟩
    exact ⟨hk, hlen, by omega⟩
  · rintro ⟨hk, hlen, hsum⟩
    exact ⟨p.2.sum, by omega, hk, hlen, rfl⟩

theorem nodup_indicesUpTo (hn : 0 < nArgs) (order : Nat) :
    (indicesUpTo nArgs dim order).Nodup := by
  rw [indicesUpTo, List.nodup_flatMap]
  refine ⟨fun j _ => nodup_layerIndices j, List.nodup_range.imp fun hne p hp hp' => ?_⟩
  -- layers of different total orders are disjoint
  exact hne (((mem_layerIndices hn).1 hp).2.2.symm.trans ((mem_layerIndices hn).1 hp').2.2)

/-- The layers come in increasing total order. -/
theorem pairwise_indicesUpTo (hn : 0 < nArgs) (order : Nat) :
    (indicesUpTo nArgs dim order).Pairwise fun p q => p.2.sum ≤ q.2.sum := by
  rw [indicesUpTo, List.pairwise_flatMap]
  constructor
  · intro j _
    refine List.Pairwise.imp_of_mem ?_ (List.pairwise_of_forall fun _ _ => trivial)
    intro p q hp hq _
    rw [((mem_layerIndices hn).1 hp).2.2, ((mem_layerIndices hn).1 hq).2.2]
  · refine (List.pairwise_lt_range).imp fun hjk p hp q hq => ?_
    rw [((mem_layerIndices hn).1 hp).2.2, ((mem_layerIndices hn).1 hq).2.2]
    exact Nat.le_of_lt hjk

/-- By the hockey-stick identity there are `D · C(n + K, K)` indices up to total order `K`. -/
theorem length_indicesUpTo (hn : 0 < nArgs) (order : Nat) :
    (indicesUpTo nArgs dim order).length = dim * (nArgs + order).choose order := by
  obtain ⟨n, rfl⟩ : ∃ n, nArgs = n + 1 := ⟨nArgs - 1, by omega⟩
  rw [indicesUpTo, List.length_flatMap]
  simp only [length_layerIndices]
  rw [List.sum_map_mul_left, ← List.sum_toFinset _ List.nodup_range, List.toFinset_range]
  congr 1
  calc ∑ j ∈ Finset.range (order + 1), (n + j).choose n
      = ∑ j ∈ Finset.range (order + 1), (j + n).choose n := by simp only [Nat.add_comm n]
    _ = (n + 1 + order).choose order := by
        rw [Nat.sum_range_add_choose, show order + n + 1 = n + 1 + order by omega,
          Nat.choose_symm_add]

/-- The zero layer comes first. -/
theorem isPrefix_indicesUpTo_zero (order : Nat) :
    indicesUpTo nArgs dim 0 <+: indicesUpTo nArgs dim order := by
  induction order with
  | zero => exact List.prefix_refl _
  | succ order ih =>
    rw [indicesUpTo_succ]
    exact ih.trans (List.prefix_append _ _)

end Layers

/-! ## Names of variational variables -/

/-- The text of one nonzero entry `e` at position `i` of a multi-index: `(i,e)`. -/
def entryText (p : Nat × Nat) : List Char :=
  '(' :: (Nat.toDigits 10 p.1 ++ ',' :: (Nat.toDigits 10 p.2 ++ [')']))

/-- The nonzero entries of a multi-index with their positions, counted from `i`. -/
def nonzeroEntries (i : Nat) (m : List Nat) : List (Nat × Nat) :=
  (m.zipIdx i).filterMap fun (e, j) => if e > 0 then some (j, e) else none

/-- A variational name as characters: the prefix, the entry texts in brackets, the base. -/
theorem toList_variationalName (b : String) (m : List Nat) :
    (variationalName b m).toList =
      '∂' :: '[' :: ([','].intercalate ((nonzeroEntries 0 m).map entryText) ++ ']' :: b.toList) := by
  have hparts : (m.zipIdx.filterMap fun x => if x.1 > 0 then
      some (toString "(" ++ toString x.2 ++ toString "," ++ toString x.1 ++ toString ")")
      else none).map String.toList = (nonzeroEntries 0 m).map entryText := by
    rw [nonzeroEntries, List.map_filterMap, List.map_filterMap]
    congr 1
    funext ⟨e, j⟩
    by_cases he : e > 0
    · have hl : (toString "(").toList = ['('] := rfl
      have hc : (toString ",").toList = [','] := rfl
      have hr : (toString ")").toList = [')'] := rfl
      simp only [he, if_true, Option.map_some, String.toList_append, Nat.toString_eq_repr,
        Nat.toList_repr, entryText, hl, hc, hr, List.append_assoc, List.cons_append,
        List.nil_append]
    · simp [he]
  have hprefix : Variable.variationalPrefix.toList = ['∂'] := rfl
  have hopen : "[".toList = ['['] := rfl
  have hcomma : ",".toList = [','] := rfl
  have hclose : "]".toList = [']'] := rfl
  unfold variationalName
  rw [String.toList_append, String.toList_append, String.toList_append, String.toList_append,
    String.toList_intercalate, hparts, hprefix, hopen, hcomma, hclose]
  simp only [List.append_assoc, List.cons_append, List.nil_append]

/-- A separator met first in both of two texts splits them at the same place. -/
theorem eq_of_append_cons_eq {α : Type} {c : α} {l₁ l₂ r₁ r₂ : List α} (h₁ : c ∉ l₁)
    (h₂ : c ∉ l₂) (h : l₁ ++ c :: r₁ = l₂ ++ c :: r₂) : l₁ = l₂ ∧ r₁ = r₂ := by
  induction l₁ generalizing l₂ with
  | nil =>
    cases l₂ with
    | nil => exact ⟨rfl, (List.cons_eq_cons.1 h).2⟩
    | cons y l₂ =>
      obtain ⟨rfl, -⟩ := List.cons_eq_cons.1 h
      exact absurd List.mem_cons_self h₂
  | cons x l₁ ih =>
    cases l₂ with
    | nil =>
      obtain ⟨rfl, -⟩ := List.cons_eq_cons.1 h
      exact absurd List.mem_cons_self h₁
    | cons y l₂ =>
      rw [List.cons_append, List.cons_append] at h
      obtain ⟨rfl, htail⟩ := List.cons_eq_cons.1 h
      obtain ⟨rfl, rfl⟩ := ih (fun hc => h₁ (List.mem_cons_of_mem _ hc))
        (fun hc => h₂ (List.mem_cons_of_mem _ hc)) htail
      exact ⟨rfl, rfl⟩

theorem toDigits_inj {a b : Nat} (h : Nat.toDigits 10 a = Nat.toDigits 10 b) : a = b := by
  rw [← Nat.ofDigitChars_toDigits (b := 10) (n := a) (by decide) (by decide), h,
    Nat.ofDigitChars_toDigits (by decide) (by decide)]

theorem not_mem_toDigits {c : Char} (hc : c.isDigit = false) (n : Nat) :
    c ∉ Nat.toDigits 10 n := fun h => by
  rw [Nat.isDigit_of_mem_toDigits (by decide) (by decide) h] at hc
  cases hc

/-- The entry texts joined by commas, one entry split off. -/
theorem intercalate_entryText_cons (p : Nat × Nat) (ps : List (Nat × Nat)) :
    [','].intercalate ((p :: ps).map entryText) =
      '(' :: (Nat.toDigits 10 p.1 ++ ',' :: (Nat.toDigits 10 p.2 ++ ')' ::
        if ps = [] then [] else ',' :: [','].intercalate (ps.map entryText))) := by
  cases ps with
  | nil => simp [entryText]
  | cons q qs => simp [List.intercalate_cons_cons, entryText]

theorem close_not_mem_entryTexts : ∀ ps : List (Nat × Nat),
    ']' ∉ [','].intercalate (ps.map entryText)
  | [] => by simp
  | p :: ps => by
    rw [intercalate_entryText_cons]
    have h1 := not_mem_toDigits (c := ']') rfl p.1
    have h2 := not_mem_toDigits (c := ']') rfl p.2
    have h3 := close_not_mem_entryTexts ps
    split <;> simp_all

/-- The entry texts joined by commas read back. -/
theorem entryTexts_inj : ∀ {ps qs : List (Nat × Nat)},
    [','].intercalate (ps.map entryText) = [','].intercalate (qs.map entryText) → ps = qs
  | [], [], _ => rfl
  | [], q :: qs, h => by
    rw [intercalate_entryText_cons] at h
    simp at h
  | p :: ps, [], h => by
    rw [intercalate_entryText_cons] at h
    simp at h
  | p :: ps, q :: qs, h => by
    rw [intercalate_entryText_cons, intercalate_entryText_cons, List.cons.injEq] at h
    -- the position ends at the first comma, the order at the first closing parenthesis
    obtain ⟨hi, h⟩ := eq_of_append_cons_eq (not_mem_toDigits rfl _) (not_mem_toDigits rfl _) h.2
    obtain ⟨he, htail⟩ := eq_of_append_cons_eq (not_mem_toDigits rfl _) (not_mem_toDigits rfl _) h
    have hp : p = q := Prod.ext (toDigits_inj hi) (toDigits_inj he)
    subst hp
    by_cases hps : ps = [] <;> by_cases hqs : qs = []
    · rw [hps, hqs]
    · simp [hps, hqs] at htail
    · simp [hps, hqs] at htail
    · simp only [hps, hqs, if_false, List.cons.injEq, true_and] at htail
      rw [entryTexts_inj htail]

theorem le_of_mem_nonzeroEntries {i : Nat} {m : List Nat} {p : Nat × Nat}
    (hp : p ∈ nonzeroEntries i m) : i ≤ p.1 := by
  obtain ⟨⟨e, j⟩, hej, hp⟩ := List.mem_filterMap.1 hp
  by_cases he : e > 0
  · simp only [he, if_true, Option.some.injEq] at hp
    rw [← hp]
    exact (List.mem_zipIdx hej).1
  · simp [he] at hp

theorem nonzeroEntries_cons (i e : Nat) (m : List Nat) :
    nonzeroEntries i (e :: m) =
      if e > 0 then (i, e) :: nonzeroEntries (i + 1) m else nonzeroEntries (i + 1) m := by
  by_cases he : e > 0 <;> simp [nonzeroEntries, List.zipIdx_cons, he]

/-- A multi-index of known length is determined by its nonzero entries. -/
theorem nonzeroEntries_inj : ∀ {m m' : List Nat} {i : Nat}, m.length = m'.length →
    nonzeroEntries i m = nonzeroEntries i m' → m = m'
  | [], [], _, _, _ => rfl
  | e :: m, e' :: m', i, hlen, h => by
    rw [nonzeroEntries_cons, nonzeroEntries_cons] at h
    have hlen' : m.length = m'.length := by simpa using hlen
    -- an entry at position `i` cannot stand among the later ones
    have hfresh : ∀ {x l}, (i, x) ∉ nonzeroEntries (i + 1) l := fun hx => by
      have := le_of_mem_nonzeroEntries hx
      omega
    split at h <;> split at h
    · obtain ⟨hee, h⟩ := List.cons_eq_cons.1 h
      rw [(Prod.mk.inj hee).2, nonzeroEntries_inj hlen' h]
    · exact absurd (h ▸ List.mem_cons_self) hfresh
    · exact absurd (h ▸ List.mem_cons_self) hfresh
    · rw [show e = 0 by omega, show e' = 0 by omega, nonzeroEntries_inj hlen' h]

/-- A variational name determines its base name and, among multi-indices of one length, its
multi-index. -/
theorem variationalName_inj {b b' : String} {m m' : List Nat} (hlen : m.length = m'.length)
    (h : variationalName b m = variationalName b' m') : b = b' ∧ m = m' := by
  have h := congrArg String.toList h
  rw [toList_variationalName, toList_variationalName, List.cons.injEq, List.cons.injEq] at h
  obtain ⟨hbody, hbase⟩ := eq_of_append_cons_eq (close_not_mem_entryTexts _)
    (close_not_mem_entryTexts _) h.2.2
  exact ⟨String.toList_inj.1 hbase, nonzeroEntries_inj hlen (entryTexts_inj hbody)⟩

theorem isVariational_variationalName (b : String) (m : List Nat) :
    Variable.isVariational (variationalName b m) = true := by
  unfold Variable.isVariational variationalName
  simp [String.append_assoc]

theorem elementaryIndex?_variationalName (b : String) (m : List Nat) :
    Variable.elementaryIndex? (variationalName b m) = none := by
  unfold Variable.elementaryIndex?
  rw [toList_variationalName]
  rfl

end TaylorOde
