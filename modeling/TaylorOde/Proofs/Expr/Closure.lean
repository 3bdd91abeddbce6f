import TaylorOde.Proofs.Expr.NormalForm
import TaylorOde.Proofs.Expr.Walk
import TaylorOde.Proofs.Decomposition.Table
import Mathlib
/-!
# What the constructors and derivatives are made of

The canonical constructors, `diff`, `gradient`, `normalise` and substitution create nothing
but literals and new function nodes whose operator accepts their number of arguments; every
other node of their result is a node of an input. `Buildable P` says that a property `P` of
single nodes holds of everything such a step can create, and `AllNodes P e` that every node
of `e` has it. Then `AllNodes P` passes from the inputs of each step to its output.

Two instances are used. `Accepted` (each operator accepts its number of arguments) is
`ArityOk` node by node: it is what keeps `normalise` from failing. `VarIn S` (a variable
is in `S`) bounds the variables a derivative may mention by those of its input.

## Main statements

* `allNodes_sum`, `allNodes_mul`, … and `allNodes_build`: the canonical constructors.
* `allNodes_partials`, `allNodes_diffBy`: forward derivatives.
* `gradientTagged_ok`: reverse accumulation succeeds for atoms and builds nothing else.
* `allNodes_normalise`, `arityOk_subst`.
-/

namespace TaylorOde

namespace Expr

/-- A property of single nodes that holds of every literal and of every function node whose
operator accepts its number of arguments. -/
structure Buildable (P : Expr → Prop) : Prop where
  num : ∀ n, P (.num n)
  func : ∀ {t op args h}, op.accepts args.length = true → P (.func t op args h)

/-- Every node of the expression has the property. -/
def AllNodes (P : Expr → Prop) (e : Expr) : Prop := ∀ x, Occurs x e → P x

/-- A function node whose operator accepts its number of arguments; atoms pass. -/
def Accepted : Expr → Prop
  | .func _ op args _ => op.accepts args.length = true
  | _ => True

/-- A variable in the set; other nodes pass. -/
def VarIn (S : String → Prop) : Expr → Prop
  | .var v => S v
  | _ => True

theorem buildable_accepted : Buildable Accepted :=
  ⟨fun _ => trivial, fun h => h⟩

theorem buildable_varIn (S : String → Prop) : Buildable (VarIn S) :=
  ⟨fun _ => trivial, fun _ => trivial⟩

theorem arityOk_iff_allNodes {e : Expr} : ArityOk e ↔ AllNodes Accepted e := by
  constructor
  · intro he x hx
    cases x with
    | func t op args h => exact he t op args h hx
    | _ => trivial
  · intro he t op args h hx
    exact he _ hx

theorem allNodes_varIn_iff {S : String → Prop} {e : Expr} :
    AllNodes (VarIn S) e ↔ ∀ v, Occurs (.var v) e → S v := by
  constructor
  · intro he v hv
    exact he _ hv
  · intro he x hx
    cases x with
    | var v => exact he v hx
    | _ => trivial

section Nodes

variable {P : Expr → Prop}

theorem AllNodes.of_occurs {x e : Expr} (he : AllNodes P e) (hx : Occurs x e) : AllNodes P x :=
  fun y hy => he y (hy.trans hx)

theorem AllNodes.self {e : Expr} (he : AllNodes P e) : P e := he e .refl

theorem AllNodes.of_mem_args {a : Expr} {t : NodeTag} {op : Op} {args : List Expr} {h : UInt64}
    (he : AllNodes P (.func t op args h)) (ha : a ∈ args) : AllNodes P a :=
  he.of_occurs (.of_mem ha)

theorem AllNodes.mono {Q : Expr → Prop} {e : Expr} (he : AllNodes P e) (hPQ : ∀ x, P x → Q x) :
    AllNodes Q e :=
  fun x hx => hPQ x (he x hx)

theorem allNodes_func_iff {t : NodeTag} {op : Op} {args : List Expr} {h : UInt64} :
    AllNodes P (.func t op args h) ↔ P (.func t op args h) ∧ ∀ a ∈ args, AllNodes P a := by
  constructor
  · intro he
    exact ⟨he.self, fun a ha => he.of_mem_args ha⟩
  · rintro ⟨hself, hargs⟩ x hx
    rcases occurs_func_iff.1 hx with rfl | ⟨b, hb, hxb⟩
    · exact hself
    · exact hargs b hb x hxb

theorem allNodes_of_op?_none {e : Expr} (he : e.op? = none) (hP : P e) : AllNodes P e := by
  intro x hx
  have hargs : e.args = [] := by cases e <;> simp_all [op?, args]
  rw [hx.eq_of_args_nil hargs]
  exact hP

end Nodes

/-- The terms read through nested sums are nodes of the arguments. -/
theorem occurs_of_mem_sumParts {args : List Expr} {x : Expr} (hx : x ∈ (sumParts args).1) :
    ∃ a ∈ args, Occurs x a := by
  induction args using sumParts.induct with
  | case1 => simp [sumParts_nil] at hx
  | case2 rest _ _ _ n ih =>
    rw [sumParts_cons, sumParts_num, List.nil_append] at hx
    obtain ⟨a, ha, hxa⟩ := ih hx
    exact ⟨a, List.mem_cons_of_mem _ ha, hxa⟩
  | case3 rest _ _ _ t inner h _ _ _ _ ihrest ihinner =>
    rw [sumParts_cons, sumParts_sum, List.mem_append] at hx
    rcases hx with hx | hx
    · obtain ⟨a, ha, hxa⟩ := ihinner hx
      exact ⟨_, List.mem_cons_self, .arg ha hxa⟩
    · obtain ⟨a, ha, hxa⟩ := ihrest hx
      exact ⟨a, List.mem_cons_of_mem _ ha, hxa⟩
  | case4 rest _ _ _ other hnum hsum ih =>
    obtain ⟨hnum', hsum'⟩ := plain_of_not_num_not_sum hnum hsum
    rw [sumParts_cons, sumParts_plain hnum' hsum', List.singleton_append, List.mem_cons] at hx
    rcases hx with rfl | hx
    · exact ⟨_, List.mem_cons_self, .refl⟩
    · obtain ⟨a, ha, hxa⟩ := ih hx
      exact ⟨a, List.mem_cons_of_mem _ ha, hxa⟩

/-! ## The canonical constructors -/

section Constructors

variable {P : Expr → Prop} (hP : Buildable P)
include hP

theorem allNodes_num (n : Literal) : AllNodes P (.num n) :=
  allNodes_of_op?_none rfl (hP.num n)

theorem allNodes_zero : AllNodes P zero := allNodes_num hP _

theorem allNodes_one : AllNodes P one := allNodes_num hP _

theorem allNodes_lit (x : Float) : AllNodes P (lit x) := allNodes_num hP _

theorem allNodes_node {t : NodeTag} {op : Op} {args : List Expr}
    (harity : op.accepts args.length = true) (hargs : ∀ a ∈ args, AllNodes P a) :
    AllNodes P (node t op args) :=
  allNodes_func_iff.2 ⟨hP.func harity, hargs⟩

theorem allNodes_getD {args : List Expr} (hargs : ∀ a ∈ args, AllNodes P a) (i : Nat) :
    AllNodes P (args.getD i zero) := by
  rw [List.getD_eq_getElem?_getD]
  cases hi : args[i]? with
  | none => exact allNodes_zero hP
  | some a => exact hargs a (List.mem_of_getElem? hi)

theorem allNodes_of_foldPair? {f : Float → Float → Float} {a b c : Expr}
    (h : foldPair? f a b = some c) : AllNodes P c := by
  obtain ⟨n, rfl⟩ := num_of_foldPair? h
  exact allNodes_num hP n

theorem allNodes_of_foldOne? {f : Float → Float} {a c : Expr} (h : foldOne? f a = some c) :
    AllNodes P c := by
  obtain ⟨n, rfl⟩ := num_of_foldOne? h
  exact allNodes_num hP n

theorem allNodes_sum {t : NodeTag} {args : List Expr} (hargs : ∀ a ∈ args, AllNodes P a) :
    AllNodes P (sum t args) := by
  -- every term of the result is a term read from the arguments or a literal
  have hterms : ∀ x ∈ (sumParts args).1.mergeSort SortedBefore ++ literalTail (sumParts args).2,
      AllNodes P x := by
    intro x hx
    rcases List.mem_append.1 hx with hx | hx
    · obtain ⟨a, ha, hxa⟩ := occurs_of_mem_sumParts (List.mem_mergeSort.1 hx)
      exact (hargs a ha).of_occurs hxa
    · obtain ⟨n, rfl⟩ := (tailOf_literalTail _).literal x hx
      exact allNodes_num hP n
  rw [sum_eq]
  unfold ofTerms
  split
  · exact allNodes_zero hP
  · exact hterms _ (by simp_all)
  · rename_i hnil _
    refine allNodes_node hP ?_ hterms
    have hpos := List.length_pos_of_ne_nil hnil
    simpa [Op.accepts, Op.arity] using hpos

theorem allNodes_neg {t : NodeTag} {a : Expr} (ha : AllNodes P a) : AllNodes P (neg t a) := by
  rcases neg_cases t a with ⟨n, hn⟩ | ⟨x, hx, hn⟩ | hn <;> rw [hn]
  · exact allNodes_num hP n
  · exact ha.of_occurs (occurs_of_mem_args hx)
  · exact allNodes_node hP rfl (by simpa using ha)

theorem allNodes_add {t : NodeTag} {a b : Expr} (ha : AllNodes P a) (hb : AllNodes P b) :
    AllNodes P (add t a b) :=
  allNodes_sum hP (by simp [ha, hb])

theorem allNodes_sub {t : NodeTag} {a b : Expr} (ha : AllNodes P a) (hb : AllNodes P b) :
    AllNodes P (sub t a b) :=
  allNodes_sum hP (by simp [ha, allNodes_neg hP hb])

theorem allNodes_mul {t : NodeTag} {a b : Expr} (ha : AllNodes P a) (hb : AllNodes P b) :
    AllNodes P (mul t a b) := by
  rcases mul_cases t a b with ⟨n, hn⟩ | hmem
  · rw [hn]
    exact allNodes_num hP n
  simp only [List.mem_cons, List.not_mem_nil, or_false] at hmem
  rcases hmem with hm | hm | hm | hm | hm | hm <;> rw [hm]
  · exact ha
  · exact hb
  · exact allNodes_neg hP ha
  · exact allNodes_neg hP hb
  · exact allNodes_node hP rfl (by simp [ha, hb])
  · exact allNodes_node hP rfl (by simp [ha, hb])

theorem allNodes_div {t : NodeTag} {a b : Expr} (ha : AllNodes P a) (hb : AllNodes P b) :
    AllNodes P (div t a b) := by
  rw [div_eq]
  split
  · exact allNodes_of_foldPair? hP ‹_›
  · split_ifs
    · exact ha
    · exact allNodes_zero hP
    · exact allNodes_node hP rfl (by simp [ha, hb])

theorem allNodes_square {t : NodeTag} {a : Expr} (ha : AllNodes P a) :
    AllNodes P (square t a) := by
  rw [square_eq]
  split
  · exact allNodes_of_foldOne? hP ‹_›
  · exact allNodes_node hP rfl (by simpa using ha)

theorem allNodes_exp {t : NodeTag} {a : Expr} (ha : AllNodes P a) : AllNodes P (exp t a) := by
  rw [exp_eq]
  split
  · exact allNodes_of_foldOne? hP ‹_›
  · exact allNodes_node hP rfl (by simpa using ha)

theorem allNodes_log {t : NodeTag} {a : Expr} (ha : AllNodes P a) : AllNodes P (log t a) := by
  unfold log
  split_ifs
  · exact allNodes_zero hP
  · exact allNodes_node hP rfl (by simpa using ha)

theorem allNodes_pow {t : NodeTag} {a b : Expr} (ha : AllNodes P a) (hb : AllNodes P b) :
    AllNodes P (pow t a b) := by
  rw [pow_eq]
  split_ifs
  · exact allNodes_one hP
  · exact ha
  · split
    · exact allNodes_of_foldPair? hP ‹_›
    · exact allNodes_node hP rfl (by simp [ha, hb])

theorem allNodes_sin {t : NodeTag} {a : Expr} (ha : AllNodes P a) : AllNodes P (sin t a) := by
  induction t, a using sin.induct with
  | case1 t tag x hash ih =>
    rw [sin]
    exact allNodes_neg hP (ih (ha.of_mem_args List.mem_cons_self))
  | case2 t e hneg =>
    rw [sin_of_not_neg hneg]
    exact allNodes_node hP rfl (by simpa using ha)

theorem allNodes_cos {t : NodeTag} {a : Expr} (ha : AllNodes P a) : AllNodes P (cos t a) := by
  induction a using cos.induct with
  | case1 tag x hash ih =>
    rw [cos]
    exact ih (ha.of_mem_args List.mem_cons_self)
  | case2 e hneg =>
    rw [cos_of_not_neg hneg]
    exact allNodes_node hP rfl (by simpa using ha)

/-- The canonical form of an operator over arguments of a number it accepts builds nothing
but literals and accepted nodes. -/
theorem allNodes_build {t : NodeTag} {op : Op} {args : List Expr}
    (hargs : ∀ a ∈ args, AllNodes P a) : AllNodes P (build t op args) := by
  have ha := allNodes_getD hP hargs 0
  have hb := allNodes_getD hP hargs 1
  have hab : ∀ x ∈ [args.getD 0 zero, args.getD 1 zero], AllNodes P x := by
    intro x hx
    simp only [List.mem_cons, List.not_mem_nil, or_false] at hx
    rcases hx with rfl | rfl
    · exact ha
    · exact hb
  have hone : ∀ x ∈ [args.getD 0 zero], AllNodes P x := by
    intro x hx
    rw [List.mem_singleton.1 hx]
    exact ha
  unfold build
  cases op
  case sum => exact allNodes_sum hP hargs
  case mul => exact allNodes_mul hP ha hb
  case div => exact allNodes_div hP ha hb
  case pow => exact allNodes_pow hP ha hb
  case neg => exact allNodes_neg hP ha
  case square => exact allNodes_square hP ha
  case exp => exact allNodes_exp hP ha
  case log => exact allNodes_log hP ha
  case sin => exact allNodes_sin hP ha
  case cos => exact allNodes_cos hP ha
  case atan2 | kepE => exact allNodes_node hP rfl hab
  all_goals exact allNodes_node hP rfl hone

theorem allNodes_unary {t : NodeTag} {op : Op} {a : Expr} (harity : op.accepts 1 = true)
    (ha : AllNodes P a) : AllNodes P (node t op [a]) :=
  allNodes_node hP harity (by simpa using ha)

/-- The partial derivatives of a node are built from the node, its arguments and literals. -/
theorem allNodes_partials {op : Op} {args : List Expr} {this : Expr} {t : NodeTag}
    (hthis : AllNodes P this) (hargs : ∀ a ∈ args, AllNodes P a) :
    ∀ g ∈ partials op args this t, AllNodes P g := by
  have ha := allNodes_getD hP hargs 0
  have hb := allNodes_getD hP hargs 1
  cases op <;>
    simp only [partials, List.mem_cons, List.not_mem_nil, or_false, forall_eq_or_imp, forall_eq,
      List.mem_map, forall_exists_index, and_imp, forall_apply_eq_imp_iff₂]
  case sum => exact fun _ _ => allNodes_one hP
  case mul => exact ⟨hb, ha⟩
  case div =>
    exact ⟨allNodes_div hP (allNodes_one hP) hb,
      allNodes_neg hP (allNodes_div hP ha (allNodes_square hP hb))⟩
  case neg => exact allNodes_lit hP _
  case square => exact allNodes_mul hP (allNodes_lit hP _) ha
  case sqrt => exact allNodes_div hP (allNodes_lit hP _) hthis
  case exp => exact hthis
  case log => exact allNodes_div hP (allNodes_one hP) ha
  case pow =>
    exact ⟨allNodes_mul hP hb (allNodes_pow hP ha (allNodes_sub hP hb (allNodes_one hP))),
      allNodes_mul hP hthis (allNodes_log hP ha)⟩
  case sin => exact allNodes_cos hP ha
  case cos => exact allNodes_neg hP (allNodes_sin hP ha)
  case tan => exact allNodes_add hP (allNodes_one hP) (allNodes_square hP hthis)
  case asin =>
    exact allNodes_div hP (allNodes_one hP)
      (allNodes_unary hP rfl (allNodes_sub hP (allNodes_one hP) (allNodes_square hP ha)))
  case acos =>
    exact allNodes_neg hP (allNodes_div hP (allNodes_one hP)
      (allNodes_unary hP rfl (allNodes_sub hP (allNodes_one hP) (allNodes_square hP ha))))
  case atan =>
    exact allNodes_div hP (allNodes_one hP) (allNodes_add hP (allNodes_one hP) (allNodes_square hP ha))
  case atan2 =>
    have hden := allNodes_add hP (t := t.child 0) (allNodes_square hP (t := t.child 1) ha)
      (allNodes_square hP (t := t.child 2) hb)
    exact ⟨allNodes_div hP hb hden, allNodes_neg hP (allNodes_div hP ha hden)⟩
  case sinh => exact allNodes_unary hP rfl ha
  case cosh => exact allNodes_unary hP rfl ha
  case tanh => exact allNodes_sub hP (allNodes_one hP) (allNodes_square hP hthis)
  case kepE =>
    have hden := allNodes_sub hP (t := t.child 0) (allNodes_one hP)
      (allNodes_mul hP (t := t.child 1) ha (allNodes_cos hP (t := t.child 2) hthis))
    exact ⟨allNodes_div hP (allNodes_sin hP hthis) hden, allNodes_div hP (allNodes_one hP) hden⟩

end Constructors

/-! ## Forward derivatives -/

section Forward

variable {P : Expr → Prop} (hP : Buildable P)
include hP

/-- A forward derivative is built from literals, the nodes of the expression and their partial
derivatives. -/
theorem allNodes_diffBy (x : Expr) {e : Expr} (he : AllNodes P e) : AllNodes P (diffBy x e) := by
  induction e using recArgs with
  | func t op args h ih =>
    have hargs : ∀ a ∈ args, AllNodes P a := fun a ha => he.of_mem_args ha
    unfold diffBy
    dsimp only
    split_ifs
    · exact allNodes_zero hP
    · apply allNodes_sum hP
      intro term hterm
      -- each term is a partial derivative times the derivative of its argument
      obtain ⟨⟨g, d⟩, hgd, hterm⟩ := List.mem_filterMap.1 hterm
      split at hterm
      · cases hterm
      · cases hterm
        have hg := allNodes_partials hP he hargs g (List.of_mem_zip hgd).1
        obtain ⟨a, ha, rfl⟩ := List.mem_map.1 (List.of_mem_zip hgd).2
        exact allNodes_mul hP hg (ih a ha (hargs a ha))
  | num | param | var | time =>
    unfold diffBy
    split_ifs
    · exact allNodes_one hP
    · exact allNodes_zero hP

end Forward

/-- Differentiating by a variable, a parameter or the time succeeds. -/
theorem diff_eq_ok {e x : Expr} (hx : checkDiffArg x = .ok ()) : diff e x = .ok (diffBy x e) := by
  simp [diff, hx, bind, Except.bind, pure, Except.pure]

theorem checkDiffArg_var (v : String) : checkDiffArg (.var v) = .ok () := rfl

theorem checkDiffArg_param (i : UInt32) : checkDiffArg (.param i) = .ok () := rfl

theorem checkDiffArg_time : checkDiffArg .time = .ok () := rfl

/-! ## Reverse accumulation -/

/-- Every node the post-order walk records is a node of the expression, or was recorded
before. -/
theorem mem_postOrderFrom (acc : Std.HashSet NodeKey × Array Expr) (e : Expr) :
    ∀ n ∈ (postOrderFrom acc e).2, n ∈ acc.2 ∨ Occurs n e := by
  induction acc, e using postOrderFrom.induct
    (motive_1 := fun acc args =>
      ∀ n ∈ (postOrderFrom.postOrderArgs acc args).2, n ∈ acc.2 ∨ ∃ a ∈ args, Occurs n a) with
  | case1 acc t op args h hseen =>
    intro n hn
    rw [postOrderFrom, if_pos hseen] at hn
    exact .inl hn
  | case2 acc t op args h hseen ih =>
    intro n hn
    rw [postOrderFrom, if_neg hseen] at hn
    rcases Array.mem_push.1 hn with hn | rfl
    · rcases ih n hn with hn | ⟨a, ha, hna⟩
      · exact .inl hn
      · exact .inr (.arg ha hna)
    · exact .inr .refl
  | case3 e acc hfunc =>
    intro n hn
    cases e with
    | func t op args h => exact absurd rfl (hfunc t op args h)
    | _ => exact .inl hn
  | case4 acc =>
    rename_i n hn
    exact .inl hn
  | case5 acc a rest iha ihrest =>
    rename_i n hn
    rw [postOrderFrom.postOrderArgs] at hn
    rcases ihrest n hn with hn | ⟨b, hb, hnb⟩
    · rcases iha n hn with hn | hna
      · exact .inl hn
      · exact .inr ⟨a, List.mem_cons_self, hna⟩
    · exact .inr ⟨b, List.mem_cons_of_mem _ hb, hnb⟩

theorem occurs_of_mem_postOrder {e n : Expr} (hn : n ∈ postOrder e) : Occurs n e := by
  rw [postOrder_eq] at hn
  rcases mem_postOrderFrom _ e n hn with hn | hn
  · simp at hn
  · exact hn

section Reverse

variable {P : Expr → Prop}

/-- Every contribution collected so far has the property at all its nodes. -/
def Adjoints.AllIn (P : Expr → Prop) (s : Adjoints) : Prop :=
  (∀ k, ∀ c ∈ s.nodes.getD k #[], AllNodes P c) ∧ ∀ l ∈ s.atoms, ∀ c ∈ l, AllNodes P c

theorem Adjoints.AllIn.push {wrt : List Expr} {s : Adjoints} {a c : Expr} (hs : s.AllIn P)
    (hc : AllNodes P c) : (s.push wrt a c).AllIn P := by
  unfold Adjoints.push
  split
  · refine ⟨fun k x hx => ?_, hs.2⟩
    rw [Std.HashMap.getD_alter] at hx
    split at hx
    · rw [Option.getD_some, ← Std.HashMap.getD_eq_getD_getElem?] at hx
      rcases Array.mem_push.1 hx with hx | rfl
      · exact hs.1 _ x hx
      · exact hc
    · exact hs.1 k x hx
  · refine ⟨hs.1, ?_⟩
    -- the atom's list of contributions grows by `c` at every matching position
    refine List.foldlRecOn (motive := fun atoms => ∀ l ∈ atoms, ∀ x ∈ l, AllNodes P x)
      _ _ hs.2 ?_
    rintro atoms hatoms ⟨target, i⟩ _ l hl x hx
    dsimp only at hl
    split at hl
    · obtain ⟨j, hj, rfl⟩ := Array.getElem_of_mem hl
      rw [Array.getElem_modify] at hx
      split at hx
      · rcases Array.mem_push.1 hx with hx | rfl
        · exact hatoms _ (Array.getElem_mem _) x hx
        · exact hc
      · exact hatoms _ (Array.getElem_mem _) x hx
    · exact hatoms l hl x hx

variable (hP : Buildable P)
include hP

/-- Visiting a node passes on contributions built from its summed adjoint and its partial
derivatives. -/
theorem Adjoints.AllIn.visit {wrt : List Expr} {t : NodeTag} {s : Adjoints} {n : Expr}
    (hs : s.AllIn P) (hn : AllNodes P n) : (s.visit wrt t n).AllIn P := by
  unfold Adjoints.visit
  split
  · rename_i tag op args h
    have hadj : AllNodes P (sum (t.child 0) (s.nodes.getD (Expr.func tag op args h).key #[]).toList) :=
      allNodes_sum hP fun c hc => hs.1 _ c (by simpa using hc)
    have herased : ({ s with nodes := s.nodes.erase (Expr.func tag op args h).key } : Adjoints).AllIn P := by
      refine ⟨fun k x hx => ?_, hs.2⟩
      rw [Std.HashMap.getD_erase] at hx
      split at hx
      · simp at hx
      · exact hs.1 k x hx
    dsimp only
    split
    · exact herased
    · refine List.foldlRecOn (motive := fun s : Adjoints => s.AllIn P) _ _ herased ?_
      rintro s' hs' ⟨⟨a, g⟩, j⟩ hmem
      dsimp only
      have hg : AllNodes P g := allNodes_partials hP hn (fun b hb => hn.of_mem_args hb) g
        (List.of_mem_zip (List.fst_mem_of_mem_zipIdx hmem)).2
      split
      · exact hs'
      · split
        · exact hs'
        · exact hs'.push (allNodes_mul hP hadj hg)
  · exact hs

/-- A walk over nodes with the property keeps the contributions built from them. -/
theorem Adjoints.AllIn.foldr_visit (wrt : List Expr) (tag : Nat → NodeTag) {s : Adjoints}
    (hs : s.AllIn P) {walk : Array (Expr × Nat)} (hwalk : ∀ p ∈ walk, AllNodes P p.1) :
    (walk.foldr (fun p s => match p with | (n, i) => s.visit wrt (tag i) n) s).AllIn P := by
  rw [← Array.foldr_toList]
  refine List.foldrRecOn (motive := fun s : Adjoints => s.AllIn P) _ _ hs ?_
  intro s' hs' p hp
  exact hs'.visit hP (hwalk p (Array.mem_toList_iff.1 hp))

/-- Reverse accumulation from atoms to differentiate by succeeds, and builds nothing but
literals, nodes of the expression and accepted nodes. -/
theorem gradientTagged_ok (t : NodeTag) {e : Expr} (he : AllNodes P e) {wrt : List Expr}
    (hwrt : ∀ a ∈ wrt, checkDiffArg a = .ok ()) :
    ∃ gs, gradientTagged t e wrt = .ok gs ∧ ∀ g ∈ gs, AllNodes P g := by
  have hloop : (forIn wrt ⟨⟩ fun a _ => do checkDiffArg a; pure (ForInStep.yield ⟨⟩) :
      Outcome PUnit) = .ok ⟨⟩ :=
    Decomposition.forIn_except_ok _ _ fun a ha => by
      simp [hwrt a ha, bind, Except.bind, pure, Except.pure]
  have hempty : ({ atoms := Array.replicate wrt.length #[] } : Adjoints).AllIn P :=
    ⟨fun k x hx => by simp at hx, fun l hl x hx => by
      rw [(Array.mem_replicate.1 hl).2] at hx
      simp at hx⟩
  have hwalk : ∀ p ∈ (postOrder e).zipIdx, AllNodes P p.1 := fun p hp =>
    he.of_occurs (occurs_of_mem_postOrder (Array.fst_mem_of_mem_zipIdx hp))
  unfold gradientTagged
  rw [hloop]
  refine ⟨_, rfl, ?_⟩
  intro g hg
  obtain ⟨⟨l, k⟩, hlk, rfl⟩ := List.mem_map.1 hg
  refine allNodes_sum hP fun c hc =>
    (Adjoints.AllIn.foldr_visit hP wrt (fun i => (t.child 0).child i) ?_ hwalk).2 l
      (Array.mem_toList_iff.1 (List.fst_mem_of_mem_zipIdx hlk)) c (Array.mem_toList_iff.1 hc)
  -- the seed `one` starts at the root
  split
  · refine ⟨fun k x hx => ?_, hempty.2⟩
    rw [Std.HashMap.getD_insert] at hx
    split at hx
    · have hone : x = one := by simpa using hx
      rw [hone]
      exact allNodes_one hP
    · simp at hx
  · exact hempty.push (allNodes_one hP)

end Reverse

/-! ## Normalising and substituting -/

/-- `normalise` rebuilds through `build`, which creates nothing but literals and accepted
nodes. -/
theorem allNodes_normalise {P : Expr → Prop} (hP : Buildable P) {x y : Expr} (hx : AllNodes P x)
    (hy : normalise x = .ok y) : AllNodes P y := by
  induction x using recArgs generalizing y with
  | func t op args h ih =>
    rw [normalise_func] at hy
    cases hmap : args.mapM normalise with
    | error err =>
      rw [hmap] at hy
      cases hy
    | ok args' =>
      rw [hmap] at hy
      obtain ⟨-, rfl⟩ := apply_eq_ok_iff.1 hy
      exact allNodes_build hP (forall_mem_of_forall₂ ((mapM_except_eq_ok _ _ _).1 hmap)
        fun a ha _ hb => ih a ha (hx.of_mem_args ha) hb)
  | num | param | var | time =>
    rw [normalise_of_op?_none rfl] at hy
    cases hy
    exact hx

/-- What `normalise` returns has accepted operators throughout. -/
theorem arityOk_of_normalise {x y : Expr} (hx : ArityOk x) (hy : normalise x = .ok y) :
    ArityOk y :=
  arityOk_iff_allNodes.2 (allNodes_normalise buildable_accepted (arityOk_iff_allNodes.1 hx) hy)

/-- An image that a substitution holds was inserted into it. -/
theorem Substitution.image_of_mem_insert {s : Substitution} {k v : Expr} {p : Expr × Expr}
    (hp : p ∈ (s.insert k v).entries) : p ∈ s.entries ∨ p.2 = v := by
  unfold Substitution.insert at hp
  split at hp
  · obtain ⟨q, hq, rfl⟩ := List.mem_map.1 hp
    split
    · exact .inr rfl
    · exact .inl hq
  · rcases List.mem_append.1 hp with hp | hp
    · exact .inl hp
    · exact .inr (by rw [List.mem_singleton.1 hp])

theorem Substitution.image_of_mem_ofList {pairs : List (Expr × Expr)} {p : Expr × Expr}
    (hp : p ∈ (Substitution.ofList pairs).entries) : ∃ q ∈ pairs, p.2 = q.2 := by
  unfold Substitution.ofList at hp
  revert hp
  refine List.foldlRecOn (motive := fun s : Substitution => p ∈ s.entries → ∃ q ∈ pairs, p.2 = q.2)
    _ _ (fun h => by simp at h) ?_
  intro s ih q hq hp
  rcases Substitution.image_of_mem_insert hp with hp | hp
  · exact ih hp
  · exact ⟨q, hq, hp⟩

/-- Substituting images whose operators accept their arguments keeps every operator accepting
its arguments: rebuilt nodes keep their operator and number of arguments. -/
theorem arityOk_subst {s : Substitution} (hs : ∀ p ∈ s.entries, ArityOk p.2) {e : Expr}
    (he : ArityOk e) : ArityOk (e.subst s) := by
  rw [arityOk_iff_allNodes] at he ⊢
  have himage : ∀ e v, s.find? e = some v → AllNodes Accepted v := by
    intro e v hv
    obtain ⟨p, hp, rfl⟩ := Option.map_eq_some_iff.1 hv
    exact arityOk_iff_allNodes.1 (hs p (List.mem_of_find?_eq_some hp))
  induction e using recArgs with
  | func t op args h ih =>
    unfold subst
    cases hfind : s.find? (.func t op args h) with
    | some v => exact himage _ v hfind
    | none =>
      dsimp only
      split_ifs
      · exact he
      · have harity : op.accepts args.length = true := he.self
        exact allNodes_node buildable_accepted (by simpa using harity) fun a ha => by
          obtain ⟨b, hb, rfl⟩ := List.mem_map.1 ha
          exact ih b hb (he.of_mem_args hb)
  | num | param | var | time =>
    unfold subst
    split
    · exact himage _ _ ‹_›
    · exact he

end Expr

end TaylorOde
