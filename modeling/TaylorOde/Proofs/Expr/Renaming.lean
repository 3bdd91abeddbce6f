import TaylorOde.Proofs.Expr.Substitution
import TaylorOde.Proofs.Expr.Closure
import Mathlib.Data.List.Nodup
/-!
# Renaming variables

`renameVariables names e` substitutes variables for variables. Up to structural equality it is
the plain renaming `renameBy f e`, which renames every variable by `f` and rebuilds every node
(`subst_beq_renameBy`), with `f` the new name each variable gets from the substitution
(`Substitution.newName`). Plain renamings are a functor: renaming twice is renaming by the
composite (`renameBy_renameBy`), and a renaming that fixes every variable of an expression
gives it back (`renameBy_beq_self`).

So a renaming by an injective map is undone by the inverse map, provided that no variable the
map does not rename is a new name: then the composite fixes every variable of the expression.
And the variables of a renamed expression are the new names of its variables
(`varNames_renameVariables`). The main statement is `renameVariables_inverse`.
-/

namespace TaylorOde

namespace Expr

/-! ## Plain renamings -/

/-- Renames every variable by `f`, rebuilding every function node over the renamed
arguments under its own tag. -/
def renameBy (f : String → String) : Expr → Expr
  | .num n => .num n
  | .param i => .param i
  | .var v => .var (f v)
  | .time => .time
  | .func t op args _ => node t op (args.map (renameBy f))

section RenameBy

variable (f : String → String)

@[simp] theorem renameBy_var (v : String) : renameBy f (.var v) = .var (f v) := by
  rw [renameBy]

@[simp] theorem renameBy_num (n : Literal) : renameBy f (.num n) = .num n := by
  rw [renameBy]

@[simp] theorem renameBy_param (i : UInt32) : renameBy f (.param i) = .param i := by
  rw [renameBy]

@[simp] theorem renameBy_time : renameBy f .time = .time := by
  rw [renameBy]

@[simp] theorem renameBy_func (t : NodeTag) (op : Op) (args : List Expr) (h : UInt64) :
    renameBy f (.func t op args h) = node t op (args.map (renameBy f)) := by
  rw [renameBy]

end RenameBy

/-- Renaming after a renaming is renaming by the composite. -/
theorem renameBy_renameBy (f g : String → String) (e : Expr) :
    renameBy g (renameBy f e) = renameBy (g ∘ f) e := by
  induction e using recArgs with
  | func t op args h ih =>
    have hargs : args.map (renameBy g ∘ renameBy f) = args.map (renameBy (g ∘ f)) :=
      List.map_congr_left fun a ha => ih a ha
    simp only [renameBy_func, node, List.map_map, hargs]
  | num | param | var | time => simp

/-- Renaming by a map that fixes every variable of an expression whose nodes cache their
hashes gives back an equal expression. -/
theorem renameBy_beq_self {f : String → String} {e : Expr}
    (hf : ∀ v, Occurs (.var v) e → f v = v) (he : e.HashOk) : (renameBy f e).beq e = true := by
  induction e using recArgs with
  | func t op args h ih =>
    have hargs : ArgsEq args (args.map (renameBy f)) :=
      List.forall₂_map_right_iff.2 (List.forall₂_same.2 fun a ha => beq_symm _ _
        (ih a ha (fun v hv => hf v (.arg ha hv)) (he.of_occurs (.of_mem ha))))
    rw [renameBy_func]
    exact beq_symm _ _ (func_beq_node (he t op args h .refl) hargs)
  | var v => simp [hf v .refl, beq_self]
  | num | param | time => simp [beq_self]

/-- Renaming respects structural equality. -/
theorem renameBy_congr (f : String → String) {x : Expr} :
    ∀ {y : Expr}, x.beq y = true → (renameBy f x).beq (renameBy f y) = true := by
  induction x using recArgs with
  | func t op args h ih =>
    intro y hxy
    cases y with
    | func t' op' args' h' =>
      obtain ⟨-, rfl, hargs⟩ := func_beq_func.1 hxy
      -- each argument comes with its hypothesis, then both sides are renamed
      have hpaired : List.Forall₂ (fun a b => (∀ {y : Expr}, a.beq y = true →
          (renameBy f a).beq (renameBy f y) = true) ∧ a.beq b = true) args args' :=
        (List.forall₂_and_left _ _).2 ⟨fun a ha => @ih a ha, hargs⟩
      simp only [renameBy_func]
      exact node_beq_node _ _ _ (List.forall₂_map_left_iff.2 (List.forall₂_map_right_iff.2
        (hpaired.imp fun {_ _} hab => hab.1 hab.2)))
    | _ => simp [beq] at hxy
  | num n => intro y hxy; cases y <;> simp_all [beq]
  | param i => intro y hxy; cases y <;> simp_all [beq]
  | var v => intro y hxy; cases y <;> simp_all [beq]
  | time => intro y hxy; cases y <;> simp_all [beq]

/-- Structurally equal expressions mention the same variables. -/
theorem occurs_var_of_beq {v : String} {x : Expr} :
    ∀ {y : Expr}, x.beq y = true → Occurs (.var v) x → Occurs (.var v) y := by
  induction x using recArgs with
  | func t op args h ih =>
    intro y hxy hv
    cases y with
    | func t' op' args' h' =>
      obtain ⟨-, -, hargs⟩ := func_beq_func.1 hxy
      rcases occurs_func_iff.1 hv with hv | ⟨a, ha, hva⟩
      · cases hv
      · obtain ⟨b, hb, hba⟩ := hargs.symm.exists_of_mem_right ha
        exact .arg hb (ih a ha (beq_symm _ _ hba) hva)
    | _ => simp [beq] at hxy
  | num n => intro y _ hv; cases occurs_iff_of_args_nil (e := .num n) rfl |>.1 hv
  | param i => intro y _ hv; cases occurs_iff_of_args_nil (e := .param i) rfl |>.1 hv
  | time => intro y _ hv; cases occurs_iff_of_args_nil (e := .time) rfl |>.1 hv
  | var w =>
    intro y hxy hv
    cases (occurs_var_iff.1 hv)
    cases y <;> simp_all [beq]

end Expr

/-! ## Substitutions of variables by variables -/

namespace Substitution

/-- Every key and every image of the substitution is a variable. -/
def VarsOnly (s : Substitution) : Prop :=
  ∀ p ∈ s.entries, (∃ a, p.1 = .var a) ∧ ∃ b, p.2 = .var b

/-- The new name a substitution gives a variable: the name of its image, or its own name when
it is no key. -/
def newName (s : Substitution) (v : String) : String :=
  match s.find? (.var v) with
  | some (.var w) => w
  | _ => v

variable {s : Substitution}

theorem VarsOnly.hashOk_images (hs : s.VarsOnly) : ∀ p ∈ s.entries, p.2.HashOk := by
  intro p hp t op args h hocc
  obtain ⟨-, b, hb⟩ := hs p hp
  rw [hb] at hocc
  cases hocc

/-- Only a variable can match a key. -/
theorem VarsOnly.find?_of_not_var (hs : s.VarsOnly) {e : Expr} (he : ∀ v, e ≠ .var v) :
    s.find? e = none := by
  cases hfind : s.find? e with
  | none => rfl
  | some img =>
    obtain ⟨p, hp, hkey, -⟩ := find?_eq_some hfind
    obtain ⟨⟨a, ha⟩, -⟩ := hs p hp
    rw [ha] at hkey
    cases e <;> simp_all [Expr.beq]

end Substitution

namespace Expr

variable {s : Substitution}

theorem subst_var_of_varsOnly (hs : s.VarsOnly) (v : String) :
    subst s (.var v) = .var (s.newName v) := by
  cases hfind : s.find? (.var v) with
  | none => rw [subst_of_op?_none hfind rfl, Substitution.newName, hfind]
  | some img =>
    obtain ⟨p, hp, -, rfl⟩ := Substitution.find?_eq_some hfind
    obtain ⟨-, b, hb⟩ := hs p hp
    rw [subst_of_find?_some hfind, Substitution.newName, hfind, hb]

/-- What a substitution of variables returns as the same node is structurally equal to the
node: an atom is compared by structure, and a rebuilt tagged node has a tag of its own. -/
theorem beq_of_sameNode_subst (hs : s.VarsOnly) {a : Expr} (h : (subst s a).sameNode a = true) :
    (subst s a).beq a = true := by
  cases a with
  | func t op args hh =>
    rw [subst_func (hs.find?_of_not_var (by simp))] at h ⊢
    split_ifs at h ⊢
    · exact beq_self _
    · cases t with
      | anon => simpa [sameNode, key, node, NodeTag.child] using h
      | path q => simp [sameNode, key, node, NodeTag.child] at h
  | var v =>
    rw [subst_var_of_varsOnly hs] at h ⊢
    simpa [sameNode, key] using h
  | num | param | time =>
    rw [subst_of_op?_none (hs.find?_of_not_var (by simp)) rfl]
    exact beq_self _

/-- A substitution of variables for variables is, up to structural equality, the plain
renaming by the new names. -/
theorem subst_beq_renameBy (hs : s.VarsOnly) {e : Expr} (he : e.HashOk) :
    (subst s e).beq (renameBy s.newName e) = true := by
  induction e using recArgs with
  | func t op args h ih =>
    have himages : ∀ a ∈ args, (subst s a).beq (renameBy s.newName a) = true :=
      fun a ha => ih a ha (he.of_occurs (.of_mem ha))
    rw [subst_func (hs.find?_of_not_var (by simp)), renameBy_func]
    split_ifs with hkept
    · -- every argument came back as the same node, so as an equal one
      have hargs : ArgsEq args (args.map (renameBy s.newName)) :=
        List.forall₂_map_right_iff.2 (List.forall₂_same.2 fun a ha =>
          beq_trans _ _ _ (beq_symm _ _ (beq_of_sameNode_subst hs
            (sameNode_of_sameNodes hkept a ha))) (himages a ha))
      exact func_beq_node (he t op args h .refl) hargs
    · exact node_beq_node _ _ _ (List.forall₂_map_left_iff.2 (List.forall₂_map_right_iff.2
        (List.forall₂_same.2 himages)))
  | var v =>
    rw [subst_var_of_varsOnly hs, renameBy_var]
    exact beq_self _
  | num | param | time =>
    rw [subst_of_op?_none (hs.find?_of_not_var (by simp)) rfl]
    simp [beq_self]

/-- The variables of an expression after a substitution of variables are the new names of its
variables. -/
theorem occurs_var_subst (hs : s.VarsOnly) {x : String} {e : Expr} :
    Occurs (.var x) (subst s e) ↔ ∃ v, Occurs (.var v) e ∧ s.newName v = x := by
  induction e using recArgs with
  | func t op args h ih =>
    -- kept or rebuilt, the node holds the arguments' images up to structural equality
    have hargs : Occurs (.var x) (subst s (.func t op args h)) ↔
        ∃ a ∈ args, Occurs (.var x) (subst s a) := by
      rw [subst_func (hs.find?_of_not_var (by simp))]
      split_ifs with hkept
      · rw [occurs_func_iff]
        simp only [reduceCtorEq, false_or]
        constructor
        · rintro ⟨a, ha, hxa⟩
          exact ⟨a, ha, occurs_var_of_beq (beq_symm _ _
            (beq_of_sameNode_subst hs (sameNode_of_sameNodes hkept a ha))) hxa⟩
        · rintro ⟨a, ha, hxa⟩
          exact ⟨a, ha, occurs_var_of_beq (beq_of_sameNode_subst hs
            (sameNode_of_sameNodes hkept a ha)) hxa⟩
      · simp [node, occurs_func_iff]
    rw [hargs]
    constructor
    · rintro ⟨a, ha, hxa⟩
      obtain ⟨v, hva, rfl⟩ := (ih a ha).1 hxa
      exact ⟨v, .arg ha hva, rfl⟩
    · rintro ⟨v, hv, rfl⟩
      rcases occurs_func_iff.1 hv with hv | ⟨a, ha, hva⟩
      · cases hv
      · exact ⟨a, ha, (ih a ha).2 ⟨v, hva, rfl⟩⟩
  | var w => simp [subst_var_of_varsOnly hs, occurs_var_iff, eq_comm]
  | num n =>
    rw [subst_of_op?_none (hs.find?_of_not_var (by simp)) rfl]
    simp [occurs_iff_of_args_nil (e := .num n) rfl]
  | param i =>
    rw [subst_of_op?_none (hs.find?_of_not_var (by simp)) rfl]
    simp [occurs_iff_of_args_nil (e := .param i) rfl]
  | time =>
    rw [subst_of_op?_none (hs.find?_of_not_var (by simp)) rfl]
    simp [occurs_iff_of_args_nil (e := .time) rfl]

/-- Substituting images whose nodes cache their hashes keeps the nodes caching their hashes. -/
theorem hashOk_subst (hs : ∀ p ∈ s.entries, p.2.HashOk) {e : Expr} (he : e.HashOk) :
    (subst s e).HashOk := by
  induction e using recArgs with
  | func t op args h ih =>
    cases hfind : s.find? (.func t op args h) with
    | some img =>
      obtain ⟨p, hp, -, rfl⟩ := Substitution.find?_eq_some hfind
      rw [subst_of_find?_some hfind]
      exact hs p hp
    | none =>
      rw [subst_func hfind]
      split_ifs
      · exact he
      · exact HashOk.node fun a ha => by
          obtain ⟨b, hb, rfl⟩ := List.mem_map.1 ha
          exact ih b hb (he.of_occurs (.of_mem hb))
  | num | param | var | time =>
    unfold subst
    split
    · rename_i img hfind
      obtain ⟨p, hp, -, rfl⟩ := Substitution.find?_eq_some hfind
      exact hs p hp
    · exact he

end Expr

/-! ## Renaming by a list of pairs -/

namespace Substitution

/-- Inserting keys that differ from every key present appends them. -/
theorem ofList_of_distinct {pairs : List (Expr × Expr)}
    (h : (pairs.map Prod.fst).Pairwise fun a b => a.beq b = false) :
    (ofList pairs).entries = pairs := by
  suffices hacc : ∀ acc : List (Expr × Expr), (∀ p ∈ acc, ∀ q ∈ pairs, p.1.beq q.1 = false) →
      (pairs.foldl (fun (s : Substitution) p => s.insert p.1 p.2) ⟨acc⟩).entries = acc ++ pairs from
    hacc [] (by simp)
  induction pairs with
  | nil => simp
  | cons q rest ih =>
    intro acc hacc
    rw [List.map_cons, List.pairwise_cons] at h
    -- the key is new, so it is appended
    have hfresh : ¬ (acc.any fun p => p.1 == q.1) = true := by
      simpa using fun a b hab => hacc (a, b) hab q List.mem_cons_self
    have hacc' : ∀ p ∈ acc ++ [q], ∀ r ∈ rest, p.1.beq r.1 = false := by
      intro p hp r hr
      rcases List.mem_append.1 hp with hp | hp
      · exact hacc p hp r (List.mem_cons_of_mem _ hr)
      · rw [List.mem_singleton.1 hp]
        exact h.1 r.1 (List.mem_map_of_mem hr)
    rw [List.foldl_cons, insert, if_neg hfresh, ih h.2 (acc ++ [q]) hacc',
      List.append_assoc, List.singleton_append]

variable {names : List (String × String)}

/-- Renaming pairs with distinct old names are the substitution's entries. -/
theorem entries_renaming (hkeys : (names.map Prod.fst).Nodup) :
    (ofList (names.map fun p => (Expr.var p.1, Expr.var p.2))).entries =
      names.map fun p => (Expr.var p.1, Expr.var p.2) := by
  refine ofList_of_distinct ?_
  rw [List.map_map]
  refine List.pairwise_map.2 ((List.pairwise_map.1 hkeys).imp fun hne => ?_)
  simpa [Expr.beq] using hne

theorem varsOnly_renaming (hkeys : (names.map Prod.fst).Nodup) :
    (ofList (names.map fun p => (Expr.var p.1, Expr.var p.2))).VarsOnly := by
  intro p hp
  rw [entries_renaming hkeys] at hp
  obtain ⟨q, -, rfl⟩ := List.mem_map.1 hp
  exact ⟨⟨q.1, rfl⟩, q.2, rfl⟩

/-- The new name of a variable: the one the pairs give it, or its own name when no pair
renames it. -/
theorem newName_renaming_eq_iff (hkeys : (names.map Prod.fst).Nodup) {v w : String} :
    (ofList (names.map fun p => (Expr.var p.1, Expr.var p.2))).newName v = w ↔
      (v, w) ∈ names ∨ (v ∉ names.map Prod.fst ∧ w = v) := by
  have hfind : (ofList (names.map fun p => (Expr.var p.1, Expr.var p.2))).find? (.var v) =
      (names.find? fun p => p.1 == v).map fun p => Expr.var p.2 := by
    simp only [find?, entries_renaming hkeys, List.find?_map, Option.map_map]
    rfl
  rw [newName, hfind]
  cases hq : names.find? fun p => p.1 == v with
  | some q =>
    have hqv : q.1 = v := by simpa using List.find?_some hq
    have hqmem := List.mem_of_find?_eq_some hq
    -- the pair that renames `v` is the only one with `v` first
    have huniq : ∀ w, (v, w) ∈ names → w = q.2 := fun w hw => by
      have := List.inj_on_of_nodup_map hkeys hw hqmem (by simp [hqv])
      rw [← this]
    constructor
    · rintro rfl
      exact .inl (by rw [← hqv]; exact hqmem)
    · rintro (hw | ⟨hv, -⟩)
      · exact (huniq w hw).symm
      · exact absurd (hqv ▸ List.mem_map_of_mem hqmem) hv
  | none =>
    have hv : v ∉ names.map Prod.fst := by
      simpa using fun w hw => List.find?_eq_none.1 hq (v, w) hw
    constructor
    · rintro rfl
      exact .inr ⟨hv, rfl⟩
    · rintro (hw | ⟨-, rfl⟩)
      · exact absurd (List.mem_map_of_mem (f := Prod.fst) hw) hv
      · rfl

end Substitution

namespace Expr

/-- Renaming variables by a map from old names to new names, given as pairs with distinct old
names. The renamed expression mentions exactly the new names of the variables the map renames
and the other variables of the expression. When the map is injective and no variable it leaves
alone is a new name, renaming by the inverse map gives back an expression structurally equal to
the original, for every expression whose nodes cache their hashes as the library builds them. -/
theorem renameVariables_inverse (names : List (String × String))
    (hkeys : (names.map Prod.fst).Nodup) (e : Expr) :
    (∀ x, x ∈ (renameVariables names e).varNames ↔
      (∃ v ∈ e.varNames, (v, x) ∈ names) ∨ (x ∈ e.varNames ∧ x ∉ names.map Prod.fst)) ∧
    ((names.map Prod.snd).Nodup →
      (∀ v ∈ e.varNames, v ∉ names.map Prod.fst → v ∉ names.map Prod.snd) → e.HashOk →
      (renameVariables (names.map Prod.swap) (renameVariables names e) == e) = true) := by
  have hs := Substitution.varsOnly_renaming hkeys
  refine ⟨fun x => ?_, fun hinj hfree he => ?_⟩
  · rw [mem_varNames, renameVariables, occurs_var_subst hs]
    constructor
    · rintro ⟨v, hv, hname⟩
      rcases (Substitution.newName_renaming_eq_iff hkeys).1 hname with hvx | ⟨hvd, rfl⟩
      · exact .inl ⟨v, mem_varNames.2 hv, hvx⟩
      · exact .inr ⟨mem_varNames.2 hv, hvd⟩
    · rintro (⟨v, hv, hvx⟩ | ⟨hx, hxd⟩)
      · exact ⟨v, mem_varNames.1 hv, (Substitution.newName_renaming_eq_iff hkeys).2 (.inl hvx)⟩
      · exact ⟨x, mem_varNames.1 hx, (Substitution.newName_renaming_eq_iff hkeys).2 (.inr ⟨hxd, rfl⟩)⟩
  · have hkeys' : ((names.map Prod.swap).map Prod.fst).Nodup := by rw [List.map_map]; exact hinj
    have hs' := Substitution.varsOnly_renaming hkeys'
    set σ := Substitution.ofList (names.map fun p => (Expr.var p.1, Expr.var p.2))
    set τ := Substitution.ofList ((names.map Prod.swap).map fun p => (Expr.var p.1, Expr.var p.2))
    -- the inverse new name of every new name of a variable of `e` is that variable
    have hfix : ∀ v, Occurs (.var v) e → (τ.newName ∘ σ.newName) v = v := by
      intro v hv
      rcases (Substitution.newName_renaming_eq_iff hkeys).1 rfl with hvw | ⟨hvd, hw⟩
      · exact (Substitution.newName_renaming_eq_iff hkeys').2
          (.inl (by simpa using List.mem_map_of_mem (f := Prod.swap) hvw))
      · rw [Function.comp_apply, hw]
        exact (Substitution.newName_renaming_eq_iff hkeys').2
          (.inr ⟨by simpa [List.map_map] using hfree v (mem_varNames.2 hv) hvd, rfl⟩)
    have hrenamed := subst_beq_renameBy hs he
    have hback := subst_beq_renameBy hs' (hashOk_subst hs.hashOk_images he)
    have hcomposite := renameBy_congr τ.newName hrenamed
    rw [renameBy_renameBy] at hcomposite
    -- renamed back is renamed by the composite, which fixes every variable of `e`
    exact beq_trans _ _ _ hback (beq_trans _ _ _ hcomposite (renameBy_beq_self hfix he))

/-! ## Swapping two variables -/

/-- `(x + z) · exp y`. -/
def xzExpY : Expr :=
  node (.path [0]) .mul [node (.path [1]) .sum [var "x", var "z"], node (.path [2]) .exp [var "y"]]

theorem occurs_var_xzExpY {v : String} : Occurs (.var v) xzExpY ↔ v = "x" ∨ v = "z" ∨ v = "y" := by
  simp [xzExpY, node, occurs_func_iff, occurs_var_iff, or_assoc]

theorem hashOk_xzExpY : xzExpY.HashOk := by
  have hvar : ∀ v : String, (Expr.var v).HashOk := fun v t op args h hocc => by cases hocc
  refine HashOk.node fun a ha => ?_
  simp only [List.mem_cons, List.mem_nil_iff, or_false] at ha
  rcases ha with rfl | rfl <;> refine HashOk.node fun b hb => ?_ <;>
    simp only [List.mem_cons, List.mem_nil_iff, or_false] at hb <;> rcases hb with rfl | rfl <;>
    exact hvar _

/-- Swapping `x` and `y` in `(x + z) · exp y` keeps `z`, and swapping back gives the
expression again. -/
theorem xzExpY_swap_undone :
    ([("x", "y"), ("y", "x")].map Prod.fst).Nodup ∧ ([("x", "y"), ("y", "x")].map Prod.snd).Nodup ∧
    "z" ∈ (renameVariables [("x", "y"), ("y", "x")] xzExpY).varNames ∧
    (renameVariables ([("x", "y"), ("y", "x")].map Prod.swap)
      (renameVariables [("x", "y"), ("y", "x")] xzExpY) == xzExpY) = true := by
  have hkeys : ([("x", "y"), ("y", "x")].map Prod.fst).Nodup := by decide
  have hinj : ([("x", "y"), ("y", "x")].map Prod.snd).Nodup := by decide
  obtain ⟨hvars, hround⟩ := renameVariables_inverse _ hkeys xzExpY
  refine ⟨hkeys, hinj, (hvars "z").2 (.inr ⟨mem_varNames.2 (occurs_var_xzExpY.2 (by simp)),
    by decide⟩), hround hinj (fun v hv hvd => ?_) hashOk_xzExpY⟩
  rcases occurs_var_xzExpY.1 (mem_varNames.1 hv) with rfl | rfl | rfl <;> simp_all

end Expr

end TaylorOde
