import TaylorOde.Proofs.Expr.NormalForm
/-!
# Splitting long sums

`splitSums e split` rebuilds every sum of more than `split` terms as a balanced nest: the
terms are cut into runs of `split`, each run of more than one term becomes a sum, and this
repeats level by level until at most `split` terms remain. Main statement:
`splitSums_spec`. For `split ≥ 2`

* no sum of the result has more than `split` arguments (`sumsFit_splitSumsWith`);
* a subterm with no sum of more than `split` arguments is kept as the same node
  (`splitSumsWith_of_sumsFit`, `occurs_splitSumsWith`);
* normalising the result gives back a canonical expression, up to tags, as long as each of
  its long sums has at most one literal argument (`normalise_splitSumsWith`).

The last condition is needed. A canonical sum whose literals add up to NaN keeps them
unfolded, and a run of them may add up to a number, which normalising folds:
`x + inf + (-inf) + 1` split in runs of two normalises to `x + inf + (-inf)`
(`splitSums_folds_a_run`).

Normalising a split sum is followed level by level by the terms and literals it reads
through nested sums (`LevelParts`): a run's sum reads as its arguments did
(`sumParts_sum_stable`), as long as its terms are in canonical order and its literals fold
to themselves.
-/

namespace TaylorOde

namespace Expr

/-! ## Sums that fit -/

section Fit

variable {split : Nat}

/-- No sum node of the expression has more than `split` arguments. -/
def SumsFit (split : Nat) (e : Expr) : Prop :=
  ∀ t args h, Occurs (.func t .sum args h) e → args.length ≤ split

theorem sumsFit_func_iff {t : NodeTag} {op : Op} {args : List Expr} {h : UInt64} :
    SumsFit split (.func t op args h) ↔
      (op = .sum → args.length ≤ split) ∧ ∀ a ∈ args, SumsFit split a := by
  constructor
  · intro hfit
    refine ⟨fun hop => ?_, fun a ha t' args' h' hocc => hfit t' args' h' (.arg ha hocc)⟩
    subst hop
    exact hfit t args h .refl
  · rintro ⟨hsum, hargs⟩ t' args' h' hocc
    rcases occurs_func_iff.1 hocc with heq | ⟨b, hb, hocc'⟩
    · simp only [func.injEq] at heq
      obtain ⟨rfl, rfl, rfl, rfl⟩ := heq
      exact hsum rfl
    · exact hargs b hb t' args' h' hocc'

theorem sumsFit_of_op?_none {e : Expr} (he : e.op? = none) : SumsFit split e := by
  intro t args h hocc
  have heq := hocc.eq_of_args_nil (by cases e <;> simp_all [op?, Expr.args])
  subst heq
  cases he

theorem SumsFit.of_occurs {x e : Expr} (he : SumsFit split e) (hx : Occurs x e) :
    SumsFit split x :=
  fun t args h hocc => he t args h (hocc.trans hx)

/-- Structurally equal expressions have sums of the same numbers of arguments. -/
theorem SumsFit.of_beq {a b : Expr} (hab : a.beq b = true) (hb : SumsFit split b) :
    SumsFit split a := by
  induction a using recArgs generalizing b with
  | func t op args h ih =>
    obtain ⟨t', op', args', h', rfl⟩ : ∃ t' op' args' h', b = .func t' op' args' h' := by
      cases b <;> first | exact ⟨_, _, _, _, rfl⟩ | cases hab
    obtain ⟨-, rfl, hargs⟩ := func_beq_func.1 hab
    obtain ⟨hsum, hfit⟩ := sumsFit_func_iff.1 hb
    refine sumsFit_func_iff.2 ⟨fun hop => hargs.length_eq ▸ hsum hop, fun a ha => ?_⟩
    obtain ⟨b, hb, hba⟩ := hargs.symm.exists_of_mem_right ha
    exact ih a ha (beq_symm _ _ hba) (hfit b hb)
  | _ => exact sumsFit_of_op?_none rfl

end Fit

/-! ## Runs of a list -/

section Chunks

variable {α : Type}

theorem flatten_chunks {n : Nat} (hn : 0 < n) (xs : List α) : (chunks n xs).flatten = xs := by
  induction xs using chunks.induct n with
  | case1 => simp [chunks]
  | case2 xs hne hn0 => omega
  | case3 xs hne hn0 ih =>
    rw [chunks]
    simp only [hne, hn0, dite_false, if_false, List.flatten_cons, ih, List.take_append_drop]

theorem length_le_of_mem_chunks {n : Nat} (hn : 0 < n) {xs c : List α}
    (hc : c ∈ chunks n xs) : c.length ≤ n := by
  induction xs using chunks.induct n with
  | case1 => simp [chunks] at hc
  | case2 xs hne hn0 => omega
  | case3 xs hne hn0 ih =>
    rw [chunks] at hc
    simp only [hne, hn0, dite_false, if_false, List.mem_cons] at hc
    rcases hc with rfl | hc
    · exact List.length_take_le _ _
    · exact ih hc

end Chunks

/-! ## The levels of a split sum -/

section Levels

variable {t : NodeTag} {split : Nat}

/-- Every element of a level stands in an element of the next one. -/
theorem occurs_splitLevel {level : List Expr} {y : Expr} (hsplit : 0 < split) (hy : y ∈ level) :
    ∃ z ∈ splitLevel t split level, Occurs y z := by
  rw [← flatten_chunks hsplit level, List.mem_flatten] at hy
  obtain ⟨c, hc, hyc⟩ := hy
  obtain ⟨j, hj⟩ := List.mem_iff_getElem?.1 hc
  have hcj : (c, j) ∈ (chunks split level).zipIdx :=
    List.mem_zipIdx_iff_getElem?.2 hj
  refine ⟨_, List.mem_map_of_mem hcj, ?_⟩
  -- a run of one stands for itself, a longer run for its sum
  rcases c with _ | ⟨a, _ | ⟨b, rest⟩⟩
  · cases hyc
  · rw [List.mem_singleton] at hyc
    rw [hyc]
    exact .refl
  · exact .of_mem hyc

theorem occurs_splitLevels {fuel : Nat} {level : List Expr} {y : Expr} (hsplit : 0 < split)
    (hy : y ∈ level) : ∃ z ∈ splitLevels t split fuel level, Occurs y z := by
  induction fuel, level using splitLevels.induct t split generalizing y with
  | case1 level => exact ⟨y, by rwa [splitLevels], .refl⟩
  | case2 fuel level hlong ih =>
    rw [splitLevels, if_pos hlong]
    obtain ⟨z, hz, hyz⟩ := occurs_splitLevel (t := t.child fuel) hsplit hy
    obtain ⟨w, hw, hzw⟩ := ih hz
    exact ⟨w, hw, hyz.trans hzw⟩
  | case3 fuel level hshort => exact ⟨y, by rwa [splitLevels, if_neg hshort], .refl⟩

/-- The sums of one level fit when the elements of the level do. -/
theorem sumsFit_splitLevel {level : List Expr} (hsplit : 0 < split)
    (hlevel : ∀ y ∈ level, SumsFit split y) : ∀ z ∈ splitLevel t split level, SumsFit split z := by
  intro z hz
  simp only [splitLevel, List.mem_map] at hz
  obtain ⟨⟨c, j⟩, hcj, rfl⟩ := hz
  have hc : c ∈ chunks split level := List.mem_of_getElem? (List.mem_zipIdx_iff_getElem?.1 hcj)
  dsimp only
  split
  · exact hlevel _ (mem_of_mem_chunks hc (by simp))
  · exact sumsFit_func_iff.2 ⟨fun _ => length_le_of_mem_chunks hsplit hc,
      fun a ha => hlevel a (mem_of_mem_chunks hc ha)⟩

theorem sumsFit_splitLevels {fuel : Nat} {level : List Expr} (hsplit : 0 < split)
    (hlevel : ∀ y ∈ level, SumsFit split y) :
    ∀ z ∈ splitLevels t split fuel level, SumsFit split z := by
  induction fuel, level using splitLevels.induct t split with
  | case1 level => rwa [splitLevels]
  | case2 fuel level hlong ih =>
    rw [splitLevels, if_pos hlong]
    exact ih (sumsFit_splitLevel hsplit hlevel)
  | case3 fuel level hshort => rwa [splitLevels, if_neg hshort]

theorem length_splitLevel (t : NodeTag) (split : Nat) (level : List Expr) :
    (splitLevel t split level).length = (chunks split level).length := by
  simp [splitLevel]

/-- Each level of more than `split ≥ 2` terms shortens the list, so as many levels as
terms leave at most `split`. -/
theorem length_splitLevels_le (hsplit : 2 ≤ split) {fuel : Nat} {level : List Expr}
    (hlen : level.length ≤ fuel + split) : (splitLevels t split fuel level).length ≤ split := by
  induction fuel, level using splitLevels.induct t split with
  | case1 level =>
    rw [splitLevels]
    omega
  | case2 fuel level hlong ih =>
    rw [splitLevels, if_pos hlong]
    have hhalf := length_chunks_le hsplit level
    rw [← length_splitLevel (t.child fuel)] at hhalf
    exact ih (by omega)
  | case3 fuel level hshort =>
    rw [splitLevels, if_neg hshort]
    omega

end Levels

/-! ## Splitting keeps what fits -/

section Split

variable {pass split : Nat}

theorem sameNode_comm (a b : Expr) : a.sameNode b = b.sameNode a := by
  unfold sameNode
  cases a.key <;> cases b.key
  case tagged.tagged p q =>
    simp only [NodeKey.tagged_beq_tagged]
    exact Bool.eq_iff_iff.2 (by simp only [beq_iff_eq]; exact eq_comm)
  case shape.shape a b =>
    simp only [NodeKey.shape_beq_shape]
    exact Bool.eq_iff_iff.2 ⟨beq_symm _ _, beq_symm _ _⟩
  all_goals rfl

theorem sameNode_self (a : Expr) : a.sameNode a = true := by
  unfold sameNode
  cases a.key
  case tagged p => simp
  case shape a => exact beq_self a

theorem sameNodes_self : ∀ l : List Expr, sameNodes l l = true
  | [] => rfl
  | a :: l => by simp [sameNodes, sameNode_self a, sameNodes_self l]

theorem sameNode_of_sameNodes {f : Expr → Expr} :
    ∀ {l : List Expr}, sameNodes (l.map f) l = true → ∀ a ∈ l, (f a).sameNode a = true
  | [], _ => by simp
  | b :: l, h => by
    simp only [List.map_cons, sameNodes, Bool.and_eq_true] at h
    intro a ha
    rcases List.mem_cons.1 ha with rfl | ha
    · exact h.1
    · exact sameNode_of_sameNodes h.2 a ha

/-- A node that its split form is the same node as has sums that fit when its split form
does: a tagged node is the same node only as itself, and any other one only as a
structurally equal expression. -/
theorem sumsFit_of_sameNode {a : Expr} (hfit : SumsFit split (splitSumsWith pass split a))
    (hsame : (splitSumsWith pass split a).sameNode a = true) : SumsFit split a := by
  rw [sameNode_comm, sameNode] at hsame
  cases hp : a.path? with
  | none => exact SumsFit.of_beq (beq_of_key_beq_of_path?_none hsame hp) hfit
  | some p =>
    have hp' := path?_eq_of_key_beq hsame hp
    obtain ⟨op, args, h, rfl⟩ : ∃ op args h, a = .func (.path p) op args h := by
      rcases a with _ | _ | _ | _ | ⟨_ | q, op, args, h⟩ <;> simp_all [path?]
    rcases splitSumsWith_path pass split p op args h with heq | heq | heq
    · rwa [heq] at hfit
    · rw [heq, Option.some.injEq] at hp'
      simpa using congrArg List.length hp'
    · rw [heq, Option.some.injEq] at hp'
      simpa using congrArg List.length hp'

/-- No sum of a split expression has more than `split` arguments. -/
theorem sumsFit_splitSumsWith (pass : Nat) (hsplit : 2 ≤ split) (e : Expr) :
    SumsFit split (splitSumsWith pass split e) := by
  induction e using recArgs with
  | func t op args h ih =>
    rcases splitSumsWith_cases pass split t op args h with
      ⟨-, -, heq⟩ | ⟨hshort, ⟨heq, hsame⟩ | heq⟩ <;> rw [heq]
    · -- a long sum: the runs of its split terms, level by level
      refine sumsFit_func_iff.2 ⟨fun _ => length_splitLevels_le hsplit (by simp), ?_⟩
      refine sumsFit_splitLevels (by omega) fun y hy => ?_
      obtain ⟨a, ha, rfl⟩ := List.mem_map.1 hy
      exact ih a ha
    · -- nothing below changed: each argument is the same node as its split form
      refine sumsFit_func_iff.2 ⟨fun hop => ?_, fun a ha => ?_⟩
      · exact Nat.le_of_not_lt fun hlt => hshort ⟨hop, hlt⟩
      · exact sumsFit_of_sameNode (ih a ha) (sameNode_of_sameNodes hsame a ha)
    · refine sumsFit_func_iff.2 ⟨fun hop => ?_, fun y hy => ?_⟩
      · rw [List.length_map]
        exact Nat.le_of_not_lt fun hlt => hshort ⟨hop, hlt⟩
      · obtain ⟨a, ha, rfl⟩ := List.mem_map.1 hy
        exact ih a ha
  | _ =>
    rw [splitSumsWith_of_op?_none rfl]
    exact sumsFit_of_op?_none rfl

/-- Splitting keeps an expression whose sums fit as it is. -/
theorem splitSumsWith_of_sumsFit {e : Expr} (he : SumsFit split e) :
    splitSumsWith pass split e = e := by
  induction e using recArgs with
  | func t op args h ih =>
    obtain ⟨hsum, hargs⟩ := sumsFit_func_iff.1 he
    have hsplit : args.map (splitSumsWith pass split) = args := by
      conv_rhs => rw [← List.map_id args]
      exact List.map_congr_left fun a ha => ih a ha (hargs a ha)
    have hshort : (op == .sum && decide (args.length > split)) = false := by
      by_cases hop : op = .sum
      · simp [hop, hsum hop]
      · simp [hop]
    rw [splitSumsWith.eq_1]
    simp only [hsplit, sameNodes_self, if_true, hshort, Bool.false_eq_true, if_false]
  | _ => exact splitSumsWith_of_op?_none rfl

/-- A subterm whose sums fit stands in the split expression as the same node. -/
theorem occurs_splitSumsWith {x e : Expr} (hsplit : 0 < split) (hx : Occurs x e)
    (hfit : SumsFit split x) : Occurs x (splitSumsWith pass split e) := by
  induction hx with
  | refl =>
    rw [splitSumsWith_of_sumsFit hfit]
    exact .refl
  | @arg t op args h b hb hxb ih =>
    rcases splitSumsWith_cases pass split t op args h with
      ⟨-, -, heq⟩ | ⟨-, ⟨heq, -⟩ | heq⟩ <;> rw [heq]
    · obtain ⟨z, hz, hbz⟩ := @occurs_splitLevels ((t.child 4).child pass) split args.length _ _
        hsplit (List.mem_map_of_mem hb)
      exact ih.trans (hbz.trans (.of_mem hz))
    · exact .arg hb hxb
    · exact ih.trans (.of_mem (List.mem_map_of_mem hb))

end Split

/-! ## Normalising a split sum -/

section Normalise

/-- Terms and literals that a canonical sum collects back as they are: the terms in
canonical order, and at most one literal, which folds to itself. -/
def Collects (P : List Expr × List Literal) : Prop :=
  P.1.Pairwise (fun a b => SortedBefore a b = true) ∧ P.2.length ≤ 1 ∧
    literalTail P.2 = P.2.map .num

/-- The parts of two lists put one after another collect back when the parts together do. -/
theorem Collects.of_append {P₁ P₂ : List Expr × List Literal}
    (h : Collects (P₁.1 ++ P₂.1, P₁.2 ++ P₂.2)) : Collects P₁ ∧ Collects P₂ := by
  obtain ⟨hsorted, hlen, hlits⟩ := h
  dsimp only at hsorted hlen hlits
  obtain ⟨hs₁, hs₂, -⟩ := List.pairwise_append.1 hsorted
  have hnil : literalTail [] = ([] : List Literal).map .num := by simp [literalTail]
  rw [List.length_append] at hlen
  -- the one literal, if any, is on one side
  by_cases h₁ : P₁.2 = []
  · rw [h₁, List.nil_append] at hlits
    exact ⟨⟨hs₁, by simp [h₁], by rw [h₁]; exact hnil⟩, ⟨hs₂, by omega, hlits⟩⟩
  · have h₂ : P₂.2 = [] :=
      List.eq_nil_of_length_eq_zero (by have := List.length_pos_iff.2 h₁; omega)
    rw [h₂, List.append_nil] at hlits
    exact ⟨⟨hs₁, by omega, hlits⟩, ⟨hs₂, by simp [h₂], by rw [h₂]; exact hnil⟩⟩

theorem sumParts_ofTerms (t : NodeTag) {l : List Expr} (hne : l ≠ []) :
    sumParts [ofTerms t l] = sumParts l := by
  match l, hne with
  | [x], _ => rfl
  | a :: b :: rest, _ => exact sumParts_sum t _ _

/-- A canonical sum reads through as its arguments did when these collect back as they are. -/
theorem sumParts_sum_stable (t : NodeTag) {xs : List Expr} (hP : Collects (sumParts xs))
    (hne : sumParts xs ≠ ([], [])) : sumParts [sum t xs] = sumParts xs := by
  obtain ⟨hsorted, -, hlits⟩ := hP
  have hparts : sumParts ((sumParts xs).1 ++ (sumParts xs).2.map .num) = sumParts xs := by
    rw [sumParts_append, sumParts_of_plain fun x hx => plain_of_mem_sumParts hx,
      sumParts_map_num]
    simp
  rw [sum_eq, List.mergeSort_of_pairwise hsorted, hlits, sumParts_ofTerms t ?_, hparts]
  intro hnil
  rw [List.append_eq_nil_iff, List.map_eq_nil_iff] at hnil
  exact hne (Prod.ext hnil.1 hnil.2)

theorem sumParts_ne_of_not_sum {x : Expr} (h : x.isOp .sum = false) : sumParts [x] ≠ ([], []) := by
  cases hx : x.literal? with
  | none => simp [sumParts_plain hx h]
  | some n =>
    obtain rfl : x = .num n := by cases x <;> simp_all [literal?]
    simp [sumParts_num]

theorem sumParts_ne_of_forall {l : List Expr} (hne : l ≠ [])
    (h : ∀ y ∈ l, sumParts [y] ≠ ([], [])) : sumParts l ≠ ([], []) := by
  obtain ⟨y, rest, rfl⟩ := List.exists_cons_of_ne_nil hne
  intro hnil
  rw [sumParts_cons, Prod.mk.injEq, List.append_eq_nil_iff, List.append_eq_nil_iff] at hnil
  exact h y List.mem_cons_self (Prod.ext hnil.1.1 hnil.2.1)

theorem mapM_append_eq_ok {ε α β : Type} {f : α → Except ε β} {l₁ l₂ : List α} {bs : List β}
    (h : (l₁ ++ l₂).mapM f = .ok bs) :
    ∃ b₁ b₂, l₁.mapM f = .ok b₁ ∧ l₂.mapM f = .ok b₂ ∧ bs = b₁ ++ b₂ := by
  rw [List.mapM_append] at h
  cases h₁ : l₁.mapM f with
  | error err => simp [h₁, bind, Except.bind] at h
  | ok b₁ =>
    cases h₂ : l₂.mapM f with
    | error err => simp [h₁, h₂, bind, Except.bind] at h
    | ok b₂ =>
      simp only [h₁, h₂, bind, Except.bind, pure, Except.pure, Except.ok.injEq] at h
      exact ⟨b₁, b₂, rfl, rfl, h.symm⟩

/-- What one run of a level becomes: its term, or the sum of its terms under the tag of its
position. -/
def runSum (t : NodeTag) : List Expr × Nat → Expr
  | (chunk, j) =>
    match chunk with
    | [single] => single
    | many => node (t.child j) .sum many

theorem splitLevel_eq (t : NodeTag) (split : Nat) (level : List Expr) :
    splitLevel t split level = (chunks split level).zipIdx.map (runSum t) := by
  unfold splitLevel runSum
  rfl

/-- A level of a split sum whose elements normalise to expressions that each read through
to some term or literal, and all together to the parts `P`. -/
def LevelParts (P : List Expr × List Literal) (level : List Expr) : Prop :=
  ∃ level', level.mapM normalise = .ok level' ∧ sumParts level' = P ∧
    ∀ y ∈ level', sumParts [y] ≠ ([], [])

/-- Normalising the runs of a level reads through to the parts of the level: a run of one
is its term, and the sum of a longer run reads as its terms (`sumParts_sum_stable`). -/
theorem levelParts_runs (t : NodeTag) :
    ∀ (cs : List (List Expr)) (k : Nat) {level' : List Expr}, (∀ c ∈ cs, c ≠ []) →
      cs.flatten.mapM normalise = .ok level' → Collects (sumParts level') →
      (∀ y ∈ level', sumParts [y] ≠ ([], [])) →
      LevelParts (sumParts level') ((cs.zipIdx k).map (runSum t))
  | [], _, level', _, hmap, _, _ => by
    cases hmap
    exact ⟨[], rfl, rfl, by simp⟩
  | c :: cs, k, level', hne, hmap, hP, hy => by
    rw [List.flatten_cons] at hmap
    obtain ⟨c', rest', hc', hrest', rfl⟩ := mapM_append_eq_ok hmap
    rw [sumParts_append] at hP
    obtain ⟨hPc, hPrest⟩ := hP.of_append
    obtain ⟨zs', hzs', hparts, hz⟩ := levelParts_runs t cs (k + 1)
      (fun c hc => hne c (List.mem_cons_of_mem _ hc)) hrest' hPrest
      (fun y hy' => hy y (List.mem_append_right _ hy'))
    have hc'ne : ∀ y ∈ c', sumParts [y] ≠ ([], []) := fun y hy' => hy y (List.mem_append_left _ hy')
    have hclen := ((mapM_except_eq_ok _ _ _).1 hc').length_eq
    have hc'nil : c' ≠ [] := by
      rintro rfl
      exact hne c List.mem_cons_self (List.eq_nil_of_length_eq_zero hclen)
    -- the run itself normalises to an expression that reads as its terms
    obtain ⟨z, hz', hzparts⟩ :
        ∃ z, normalise (runSum t (c, k)) = .ok z ∧ sumParts [z] = sumParts c' := by
      rcases c with _ | ⟨a, _ | ⟨b, rest⟩⟩
      · exact absurd rfl (hne [] List.mem_cons_self)
      · obtain ⟨a', ha', rfl⟩ : ∃ a', normalise a = .ok a' ∧ c' = [a'] := by
          rw [List.mapM_cons, List.mapM_nil] at hc'
          cases ha : normalise a with
          | error err => simp [ha, bind, Except.bind] at hc'
          | ok a' =>
            simp only [ha, bind, Except.bind, pure, Except.pure, Except.ok.injEq] at hc'
            exact ⟨a', rfl, hc'.symm⟩
        exact ⟨a', ha', rfl⟩
      · refine ⟨sum ((t.child k).child 2) c', ?_,
          sumParts_sum_stable _ hPc (sumParts_ne_of_forall hc'nil hc'ne)⟩
        show normalise (node (t.child k) .sum (a :: b :: rest)) = _
        rw [node, normalise_func, hc']
        exact apply_eq_ok_iff.2 ⟨by simp [Op.accepts, Op.arity, ← hclen], rfl⟩
    refine ⟨z :: zs', ?_, ?_, ?_⟩
    · rw [List.zipIdx_cons, List.map_cons, List.mapM_cons, hz', hzs']
      rfl
    · rw [sumParts_cons, hzparts, hparts, sumParts_append]
    · intro y hy'
      rcases List.mem_cons.1 hy' with rfl | hy'
      · rw [hzparts]
        exact sumParts_ne_of_forall hc'nil hc'ne
      · exact hz y hy'

theorem levelParts_splitLevel {split : Nat} {P : List Expr × List Literal} {level : List Expr}
    (hsplit : 0 < split) (hP : Collects P) (h : LevelParts P level) (t : NodeTag) :
    LevelParts P (splitLevel t split level) := by
  obtain ⟨level', hmap, rfl, hy⟩ := h
  rw [splitLevel_eq]
  exact levelParts_runs t (chunks split level) 0 (sum_length_chunks split level).2
    (by rwa [flatten_chunks hsplit]) hP hy

/-- Every level of a split sum normalises to the parts of the first one. -/
theorem levelParts_splitLevels {split : Nat} {P : List Expr × List Literal} (hsplit : 0 < split)
    (hP : Collects P) (t : NodeTag) {fuel : Nat} {level : List Expr} (h : LevelParts P level) :
    LevelParts P (splitLevels t split fuel level) := by
  induction fuel, level using splitLevels.induct t split with
  | case1 level => rwa [splitLevels]
  | case2 fuel level hlong ih =>
    rw [splitLevels, if_pos hlong]
    exact ih (levelParts_splitLevel hsplit hP h _)
  | case3 fuel level hshort => rwa [splitLevels, if_neg hshort]

/-- A canonical sum forgets its tags as a sum of the terms and literals it reads, with their
tags forgotten. -/
theorem erase_sum_congr (t t' : NodeTag) {xs ys : List Expr}
    (h₁ : (sumParts xs).1.map erase = (sumParts ys).1.map erase)
    (h₂ : (sumParts xs).2 = (sumParts ys).2) : erase (sum t xs) = erase (sum t' ys) := by
  rw [erase_sum, erase_sum, sum_eq, sum_eq, sumParts_map_erase, sumParts_map_erase, h₁, h₂]

theorem Normal.func_inv {t : NodeTag} {op : Op} {args : List Expr} {h : UInt64}
    (he : Normal (.func t op args h)) :
    (∀ a ∈ args, Normal a) ∧ op.accepts args.length = true ∧
      erase (build t op args) = erase (.func t op args h) := by
  cases he with
  | atom he => cases he
  | func hargs harity hfix => exact ⟨hargs, harity, hfix⟩

/-- The literals of arguments none of which is a sum are the literal arguments. -/
theorem sumParts_snd_of_not_sum {args : List Expr} (h : ∀ a ∈ args, a.isOp .sum = false) :
    (sumParts args).2 = args.filterMap literal? := by
  induction args with
  | nil => rw [sumParts_nil]; rfl
  | cons a rest ih =>
    rw [sumParts_cons, ih fun b hb => h b (List.mem_cons_of_mem _ hb)]
    have ha := h a List.mem_cons_self
    cases hnum : a.literal? with
    | none => simp [sumParts_plain hnum ha, hnum]
    | some n =>
      obtain rfl : a = .num n := by cases a <;> simp_all [literal?]
      simp [sumParts_num, literal?]

theorem isOp_of_map_erase {xs ys : List Expr} (hys : ys.map erase = xs.map erase) {op : Op}
    (hxs : ∀ x ∈ xs, x.isOp op = false) : ∀ y ∈ ys, y.isOp op = false := by
  intro y hy
  obtain ⟨x, hx, hxy⟩ := List.mem_map.1 (hys ▸ List.mem_map_of_mem hy : erase y ∈ xs.map erase)
  rw [← isOp_erase, ← hxy, isOp_erase]
  exact hxs x hx

theorem pairwise_sortedBefore_of_map_erase {xs ys : List Expr} (hys : ys.map erase = xs.map erase)
    (hxs : xs.Pairwise (fun a b => SortedBefore a b = true)) :
    ys.Pairwise (fun a b => SortedBefore a b = true) := by
  have hmap : (xs.map erase).Pairwise (fun a b => SortedBefore a b = true) :=
    List.pairwise_map.2 (hxs.imp fun {a b} h => by
      rwa [sortedBefore_congr (erase_beq a) (erase_beq b)])
  rw [← hys] at hmap
  exact (List.pairwise_map.1 hmap).imp fun {a b} h => by
    rwa [sortedBefore_congr (erase_beq a) (erase_beq b)] at h

theorem exists_map_num : ∀ {l : List Expr}, (∀ x ∈ l, ∃ n, x = .num n) →
    ∃ ns : List Literal, l = ns.map .num
  | [], _ => ⟨[], rfl⟩
  | x :: rest, h => by
    obtain ⟨n, rfl⟩ := h x List.mem_cons_self
    obtain ⟨ns, rfl⟩ := exists_map_num fun y hy => h y (List.mem_cons_of_mem _ hy)
    exact ⟨n :: ns, rfl⟩

/-- Arguments that agree up to tags with those of a canonical sum node, and hold at most one
literal, collect back as they are. -/
theorem SumNodeArgs.collects {args xs ys : List Expr} (h : SumNodeArgs args xs)
    (hys : ys.map erase = xs.map erase) (hlen : (sumParts ys).2.length ≤ 1) :
    Collects (sumParts ys) := by
  obtain ⟨sorted, tail, rfl, hperm, hsorted, htail⟩ := h.split
  obtain ⟨hterms, hlits⟩ := htail.sumParts_stable
  have hparts : sumParts ((sorted ++ tail).map erase) = sumParts (ys.map erase) := by rw [hys]
  rw [sumParts_map_erase, sumParts_map_erase, sumParts_append,
    sumParts_of_plain fun x hx => plain_of_mem_sumParts (hperm.subset hx), hterms,
    List.append_nil, List.nil_append, Prod.mk.injEq] at hparts
  obtain ⟨ns, rfl⟩ := exists_map_num htail.literal
  rw [sumParts_map_num] at hlits hparts
  refine ⟨pairwise_sortedBefore_of_map_erase hparts.1.symm hsorted, hlen, ?_⟩
  rw [← hparts.2]
  exact hlits

/-- A canonical sum node with at most one literal argument, whose arguments normalise back
up to tags, normalises back up to tags from the nest of runs of its arguments: every level
reads through to the parts of the normalised arguments, which a canonical sum collects into
the node again. -/
theorem normalise_split_sum {t : NodeTag} {args : List Expr} {h : UInt64} {pass split : Nat}
    (hsplit : 0 < split) (hnormal : Normal (.func t .sum args h))
    (hlits : (args.filterMap literal?).length ≤ 1) (hne : args ≠ [])
    (hargs : ∀ a ∈ args, ∃ a', normalise (splitSumsWith pass split a) = .ok a' ∧ erase a' = erase a)
    (T T' : NodeTag) (fuel : Nat) :
    ∃ e', normalise (node T .sum
        (splitLevels T' split fuel (args.map (splitSumsWith pass split)))) = .ok e' ∧
      erase e' = erase (.func t .sum args h) := by
  obtain ⟨-, -, hfix⟩ := hnormal.func_inv
  -- the node is the canonical sum of its arguments
  obtain ⟨t', xs, hxs, hargs_xs⟩ := eq_func_of_erase_eq (hfix.trans (erase_func _ _ _ _))
  have hnode := sum_node_args t args hxs
  have hnot_sum := isOp_of_map_erase hargs_xs hnode.not_sum
  -- the split arguments normalise to the arguments, up to tags
  obtain ⟨args'', hmap, hrel⟩ := @exists_mapM_eq_ok _ _ _ (normalise ∘ splitSumsWith pass split)
    (fun a b => erase b = erase a) _ hargs
  have herase : args''.map erase = args.map erase := by
    rw [← List.forall₂_eq_eq_eq, List.forall₂_map_left_iff, List.forall₂_map_right_iff]
    exact hrel.flip
  have hparts := congrArg sumParts herase
  rw [sumParts_map_erase, sumParts_map_erase, Prod.mk.injEq] at hparts
  have hcollects : Collects (sumParts args'') := by
    refine hnode.collects (herase.trans hargs_xs) ?_
    rw [hparts.2, sumParts_snd_of_not_sum hnot_sum]
    exact hlits
  have hnot_sum'' := isOp_of_map_erase herase hnot_sum
  have hfirst : LevelParts (sumParts args'') (args.map (splitSumsWith pass split)) :=
    ⟨args'', by rw [List.mapM_map]; exact hmap, rfl,
      fun y hy => sumParts_ne_of_not_sum (hnot_sum'' y hy)⟩
  obtain ⟨final', hfinal, hfparts, -⟩ := levelParts_splitLevels hsplit hcollects T' hfirst
  have hnil : sumParts final' ≠ ([], []) := by
    rw [hfparts]
    refine sumParts_ne_of_forall ?_ fun y hy => sumParts_ne_of_not_sum (hnot_sum'' y hy)
    rintro rfl
    exact hne (List.eq_nil_of_length_eq_zero (by simpa using hrel.length_eq))
  have hfinal_ne : final'.length ≠ 0 := fun hlen => hnil (by
    rw [List.eq_nil_of_length_eq_zero hlen, sumParts_nil])
  refine ⟨sum (T.child 2) final', ?_, ?_⟩
  · rw [node, normalise_func, hfinal]
    refine apply_eq_ok_iff.2 ⟨?_, rfl⟩
    have hlen := ((mapM_except_eq_ok _ _ _).1 hfinal).length_eq
    simp only [Op.accepts, Op.arity, gt_iff_lt, decide_eq_true_eq]
    omega
  · rw [← hfix]
    exact erase_sum_congr _ _ (by rw [hfparts, hparts.1]) (by rw [hfparts, hparts.2])

/-- Every sum of the expression with more than `split` arguments has at most one literal
argument. -/
def FewLiterals (split : Nat) (e : Expr) : Prop :=
  ∀ t args h, Occurs (.func t .sum args h) e → split < args.length →
    (args.filterMap literal?).length ≤ 1

/-- Normalising a split normal expression whose long sums have at most one literal argument
gives it back, up to tags. -/
theorem normalise_splitSumsWith (pass : Nat) {split : Nat} (hsplit : 0 < split) {e : Expr}
    (he : Normal e) (hlits : FewLiterals split e) :
    ∃ e', normalise (splitSumsWith pass split e) = .ok e' ∧ erase e' = erase e := by
  induction e using recArgs with
  | func t op args h ih =>
    obtain ⟨hnormal, harity, hfix⟩ := he.func_inv
    have hargs : ∀ a ∈ args, ∃ a', normalise (splitSumsWith pass split a) = .ok a' ∧
        erase a' = erase a := fun a ha =>
      ih a ha (hnormal a ha) fun t' args' h' hocc => hlits t' args' h' (.arg ha hocc)
    rcases splitSumsWith_cases pass split t op args h with
      ⟨rfl, hlong, heq⟩ | ⟨-, ⟨heq, -⟩ | heq⟩ <;> rw [heq]
    · -- a long sum: the nest of runs of its split arguments
      exact normalise_split_sum hsplit he (hlits t args h .refl hlong)
        (List.ne_nil_of_length_pos (by omega)) hargs _ _ _
    · exact normalise_of_normal he
    · -- a node rebuilt over split arguments
      obtain ⟨args'', hmap, hrel⟩ := @exists_mapM_eq_ok _ _ _
        (normalise ∘ splitSumsWith pass split) (fun a b => erase b = erase a) _ hargs
      have herase : args''.map erase = args.map erase := by
        rw [← List.forall₂_eq_eq_eq, List.forall₂_map_left_iff, List.forall₂_map_right_iff]
        exact hrel.flip
      refine ⟨build (((t.child 3).child pass).child 2) op args'', ?_, ?_⟩
      · rw [node, normalise_func, List.mapM_map, hmap]
        exact apply_eq_ok_iff.2 ⟨hrel.length_eq ▸ harity, rfl⟩
      · rw [erase_build, herase, ← erase_build t, hfix]
  | _ =>
    rw [splitSumsWith_of_op?_none rfl]
    exact normalise_of_normal he

end Normalise

/-! ## Splitting sums -/

/-- Splitting the sums of more than `split ≥ 2` arguments succeeds; no sum of the result has
more than `split` arguments; every subterm whose sums fit stands in the result as the same
node; and a canonical expression whose long sums have at most one literal argument each is
given back by normalising the result, up to tags. A split below two is refused. -/
theorem splitSums_spec :
    (∀ e split, 2 ≤ split → ∃ s, splitSums e split = .ok s ∧ SumsFit split s ∧
      (∀ x, Occurs x e → SumsFit split x → Occurs x s) ∧
      (Built e → FewLiterals split e →
        ∃ e', normalise s = .ok e' ∧ e'.beq e = true ∧ erase e' = erase e)) ∧
    (∀ e split, split < 2 → splitSums e split =
      .error (.invalid s!"the split value for sums must be at least 2, got {split}")) := by
  refine ⟨fun e split hsplit => ⟨splitSumsWith 0 split e, ?_, sumsFit_splitSumsWith 0 hsplit e,
    fun x hx hfit => occurs_splitSumsWith (by omega) hx hfit, fun hbuilt hlits => ?_⟩,
    fun e split hsplit => ?_⟩
  · simp [splitSums, splitSumsPass, Nat.not_lt.2 hsplit]
  · obtain ⟨e', hnorm, herase⟩ := normalise_splitSumsWith 0 (by omega) hbuilt.normal hlits
    exact ⟨e', hnorm, beq_of_erase_eq herase, herase⟩
  · simp [splitSums, splitSumsPass, hsplit]

/-- `x + y + z + 1`, a canonical sum of four arguments with one literal. -/
def xyzOne : Expr := sum .anon [var "x", var "y", var "z", lit 1.0]

/-- `x + y + z + 1` split in runs of two fits, and normalising it gives the sum back; a split
of one is refused. -/
theorem xyzOne_split_in_pairs :
    (2 ≤ 2 ∧ Built xyzOne ∧ FewLiterals 2 xyzOne ∧ ∃ s, splitSums xyzOne 2 = .ok s ∧
      SumsFit 2 s ∧ ∃ e', normalise s = .ok e' ∧ e'.beq xyzOne = true) ∧
    (1 < 2 ∧ splitSums xyzOne 1 =
      .error (.invalid s!"the split value for sums must be at least 2, got {1}")) := by
  have hbuilt : Built xyzOne := by
    refine @Built.applied .anon .sum [var "x", var "y", var "z", lit 1.0] _ ?_
      (apply_eq_ok_iff.2 ⟨rfl, rfl⟩)
    simp only [List.mem_cons, List.not_mem_nil, or_false]
    rintro a (rfl | rfl | rfl | rfl) <;> exact .atom rfl
  -- the sum is the node of its four arguments, the literal last
  have hnode : xyzOne = node .anon .sum [var "x", var "y", var "z", lit 1.0] := by
    have hterms : (sumParts [var "x", var "y", var "z", lit 1.0]).1 =
        [var "x", var "y", var "z"] := by
      rw [sumParts_fst_eq_flatMap]
      simp [lit, sumParts_num, @sumParts_plain (var "x") rfl rfl, @sumParts_plain (var "y") rfl rfl,
        @sumParts_plain (var "z") rfl rfl]
    have hlits : (sumParts [var "x", var "y", var "z", lit 1.0]).2 = [Literal.ofFloat 1.0] := by
      rw [sumParts_snd_eq_flatMap]
      simp [sumLiterals, lit, sumParts_num, @sumParts_plain (var "x") rfl rfl,
        @sumParts_plain (var "y") rfl rfl, @sumParts_plain (var "z") rfl rfl]
    have hsorted : [var "x", var "y", var "z"].Pairwise (fun a b => SortedBefore a b = true) := by
      decide +kernel
    have hfold : Literal.fold? (0.0 + (Literal.ofFloat 1.0).value)
        (FloatKind.binary32.common (Literal.ofFloat 1.0).kind) = some (Literal.ofFloat 1.0) := by
      decide +kernel
    have hone : (Literal.ofFloat 1.0).isZero = false := by decide +kernel
    rw [xyzOne, sum_eq, hterms, hlits, List.mergeSort_of_pairwise hsorted]
    simp [literalTail, fold?, hfold, isZero, hone, ofTerms, lit]
  have hfew : FewLiterals 2 xyzOne := by
    intro t args h hocc _
    rw [hnode, node] at hocc
    rcases occurs_func_iff.1 hocc with heq | ⟨b, hb, hocc'⟩
    · simp only [func.injEq] at heq
      obtain ⟨-, -, rfl, -⟩ := heq
      decide +kernel
    · simp only [List.mem_cons, List.not_mem_nil, or_false] at hb
      rcases hb with rfl | rfl | rfl | rfl <;> cases hocc'
  obtain ⟨hfits, herror⟩ := splitSums_spec
  obtain ⟨s, hs, hfit, -, hround⟩ := hfits xyzOne 2 (Nat.le_refl 2)
  obtain ⟨e', he', hbeq, -⟩ := hround hbuilt hfew
  exact ⟨⟨Nat.le_refl 2, hbuilt, hfew, s, hs, hfit, e', he', hbeq⟩, by decide, herror xyzOne 1 (by decide)⟩

/-- `x + inf + (-inf) + 1`: its literals add up to NaN, so the canonical sum keeps all three. -/
def infSum : Expr := sum .anon [var "x", lit (1.0 / 0.0), lit (-(1.0 / 0.0)), lit 1.0]

/-- Normalising `x + inf + (-inf) + 1` split in runs of two does not give it back: the run
`(-inf) + 1` folds to `-inf`, and the sum comes back as `x + inf + (-inf)`. -/
theorem splitSums_folds_a_run :
    Built infSum ∧ ∃ s e', splitSums infSum 2 = .ok s ∧ normalise s = .ok e' ∧
      e'.beq infSum = false := by
  have hbuilt : Built infSum := by
    refine @Built.applied .anon .sum [var "x", lit (1.0 / 0.0), lit (-(1.0 / 0.0)), lit 1.0] _
      ?_ (apply_eq_ok_iff.2 ⟨rfl, rfl⟩)
    simp only [List.mem_cons, List.not_mem_nil, or_false]
    rintro a (rfl | rfl | rfl | rfl) <;> exact .atom rfl
  -- the sum is the plain node of its four arguments
  have hnan : (fold? (literalTotal [Literal.ofFloat (1.0 / 0.0), Literal.ofFloat (-(1.0 / 0.0)),
      Literal.ofFloat 1.0]) (literalKind [Literal.ofFloat (1.0 / 0.0),
      Literal.ofFloat (-(1.0 / 0.0)), Literal.ofFloat 1.0])).isNone = true := by
    decide +kernel
  have hnode : infSum = node .anon .sum
      [var "x", lit (1.0 / 0.0), lit (-(1.0 / 0.0)), lit 1.0] := by
    have hterms : (sumParts [var "x", lit (1.0 / 0.0), lit (-(1.0 / 0.0)), lit 1.0]).1 =
        [var "x"] := by
      rw [sumParts_fst_eq_flatMap]
      simp [lit, sumParts_num, @sumParts_plain (var "x") rfl rfl]
    have hlits : (sumParts [var "x", lit (1.0 / 0.0), lit (-(1.0 / 0.0)), lit 1.0]).2 =
        [Literal.ofFloat (1.0 / 0.0), Literal.ofFloat (-(1.0 / 0.0)), Literal.ofFloat 1.0] := by
      rw [sumParts_snd_eq_flatMap]
      simp [sumLiterals, lit, sumParts_num, @sumParts_plain (var "x") rfl rfl]
    rw [infSum, sum_eq, hterms, hlits, List.mergeSort_singleton, literalTail, if_neg (by simp)]
    simp only [literalTotal, literalKind] at hnan
    rw [Option.isNone_iff_eq_none.1 hnan]
    rfl
  -- split in runs of two: `(x + inf) + ((-inf) + 1)`
  have hsplit : splitSums infSum 2 = .ok (node .anon .sum
      [node .anon .sum [var "x", lit (1.0 / 0.0)], node .anon .sum [lit (-(1.0 / 0.0)), lit 1.0]]) := by
    rw [splitSums, splitSumsPass, if_neg (by decide), hnode, node]
    rcases splitSumsWith_cases 0 2 .anon .sum [var "x", lit (1.0 / 0.0), lit (-(1.0 / 0.0)), lit 1.0]
      _ with ⟨-, -, heq⟩ | ⟨hshort, -⟩
    · rw [heq]
      simp [lit, splitLevels, splitLevel_eq, chunks, runSum]
    · exact absurd ⟨rfl, by decide⟩ hshort
  -- normalising adds up each run, then the two sums
  have hrun : ∀ a b : Expr, a.op? = none → b.op? = none →
      normalise (node .anon .sum [a, b]) = .ok (sum .anon [a, b]) := by
    intro a b ha hb
    rw [node, normalise_func]
    simp only [List.mapM_cons, List.mapM_nil, normalise_of_op?_none ha, normalise_of_op?_none hb]
    rfl
  refine ⟨hbuilt, _, sum .anon [sum .anon [var "x", lit (1.0 / 0.0)],
    sum .anon [lit (-(1.0 / 0.0)), lit 1.0]], hsplit, ?_, by decide +kernel⟩
  rw [node, normalise_func]
  simp only [List.mapM_cons, List.mapM_nil, hrun (var "x") (lit (1.0 / 0.0)) rfl rfl,
    hrun (lit (-(1.0 / 0.0))) (lit 1.0) rfl rfl]
  rfl

end Expr

end TaylorOde
