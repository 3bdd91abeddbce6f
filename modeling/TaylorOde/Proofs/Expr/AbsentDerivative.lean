import TaylorOde.Proofs.Expr.Closure
import TaylorOde.Proofs.Decomposition.Pipeline
import Mathlib
/-!
# Derivatives by an atom an expression does not mention

Both ways of differentiating give exactly the literal `+0` for a variable, a parameter or the
time that does not occur in the expression, not merely a tree whose value is zero.

* Forward differentiation (`diffBy`) answers `zero` at every atom other than the one it
  differentiates by, and a node all of whose arguments have the derivative `zero` has the
  derivative `zero` (`diffBy_of_not_occurs`).
* Reverse accumulation (`gradientTagged`) pushes a contribution to the list of a target only
  for an argument, of a node of the expression, equal to that target (`Adjoints.visit_atoms`).
  So the list of a target the expression does not mention stays empty along the walk
  (`AtomsQuiet`), and its sum is `zero` (`gradientTagged_of_not_occurs`).

Both fail, with an invalid-input error, exactly when an argument is not a variable, a parameter
or the time. The main statement is `derivative_by_absent_atom`.
-/

namespace TaylorOde

namespace Expr

/-- A variable, a parameter or the time: what an expression can be differentiated by. -/
def isDiffArg : Expr → Bool
  | .var _ | .param _ | .time => true
  | _ => false

theorem checkDiffArg_eq_ok_iff {x : Expr} : checkDiffArg x = .ok () ↔ x.isDiffArg = true := by
  cases x <;> simp [checkDiffArg, isDiffArg]

/-- Anything else is refused as invalid input. -/
theorem checkDiffArg_eq_error {x : Expr} (hx : x.isDiffArg = false) :
    ∃ msg, checkDiffArg x = .error (.invalid msg) := by
  cases x <;> simp_all [checkDiffArg, isDiffArg]

theorem checkDiffArg_cases (x : Expr) :
    checkDiffArg x = .ok () ∨ ∃ msg, checkDiffArg x = .error (.invalid msg) := by
  cases hx : x.isDiffArg
  · exact .inr (checkDiffArg_eq_error hx)
  · exact .inl (checkDiffArg_eq_ok_iff.2 hx)

/-- An expression structurally equal to an atom one differentiates by is that atom. -/
theorem eq_of_beq_of_isDiffArg {a x : Expr} (hx : x.isDiffArg = true) (h : a.beq x = true) :
    a = x := by
  cases x <;> cases a <;> simp_all [isDiffArg, beq]

theorem isZero_zero : zero.isZero = true := rfl

theorem sum_nil (t : NodeTag) : sum t [] = zero := by
  simp [sum, sumParts_nil]

/-- A loop in `Except` whose steps either continue or fail with an error of some kind fails,
with an error of that kind, as soon as one of its steps fails. -/
theorem forIn_except_error {ε α : Type} (P : ε → Prop) (l : List α)
    (f : α → PUnit → Except ε (ForInStep PUnit))
    (hf : ∀ x, f x ⟨⟩ = .ok (.yield ⟨⟩) ∨ ∃ err, f x ⟨⟩ = .error err ∧ P err)
    (hfail : ∃ x ∈ l, ∃ err, f x ⟨⟩ = .error err) : ∃ err, forIn l ⟨⟩ f = .error err ∧ P err := by
  induction l with
  | nil => simp at hfail
  | cons x xs ih =>
    rw [List.forIn_cons]
    rcases hf x with hx | ⟨err, hx, hp⟩
    · -- the first step continues, so a later one fails
      rw [hx]
      obtain ⟨y, hy, hyerr⟩ := hfail
      rcases List.mem_cons.1 hy with rfl | hy
      · obtain ⟨err, herr⟩ := hyerr
        rw [hx] at herr
        cases herr
      · exact ih ⟨y, hy, hyerr⟩
    · exact ⟨err, by rw [hx]; rfl, hp⟩

/-! ## Forward differentiation -/

/-- The forward derivative by an atom that does not occur is the literal zero. -/
theorem diffBy_of_not_occurs {x : Expr} (hx : x.isDiffArg = true) {e : Expr}
    (he : ¬ Occurs x e) : diffBy x e = zero := by
  induction e using recArgs with
  | func t op args h ih =>
    -- every argument has the derivative `zero`, so the node has it too
    have hds : args.map (diffBy x) = args.map fun _ => zero :=
      List.map_congr_left fun a ha => ih a ha fun hxa => he (.arg ha hxa)
    rw [diffBy, hds]
    simp [isZero_zero]
  | num | param | var | time =>
    have hne : (_ == x) = false :=
      Bool.eq_false_iff.2 fun h => he (eq_of_beq_of_isDiffArg hx h ▸ .refl)
    unfold diffBy
    simp [hne]

/-! ## Reverse accumulation -/

/-- What a visit does to the lists of the targets: at most one push per argument of the
visited node. -/
theorem Adjoints.visit_atoms (P : Array (Array Expr) → Prop) {wrt : List Expr} {t : NodeTag}
    {s : Adjoints} {n : Expr}
    (hpush : ∀ (s : Adjoints) a c, a ∈ n.args → P s.atoms → P (s.push wrt a c).atoms)
    (hs : P s.atoms) : P (s.visit wrt t n).atoms := by
  unfold Adjoints.visit
  split
  · rename_i tag op args h
    dsimp only
    split
    · exact hs
    · refine List.foldlRecOn (motive := fun s : Adjoints => P s.atoms) _ _ hs ?_
      rintro s' hs' ⟨⟨a, g⟩, j⟩ hmem
      have ha : a ∈ args := (List.of_mem_zip (List.fst_mem_of_mem_zipIdx hmem)).1
      dsimp only
      split
      · exact hs'
      · split
        · exact hs'
        · exact hpush s' a _ ha hs'
  · exact hs

/-- One list of contributions per target, and an empty one for every target the expression
does not mention. -/
def AtomsQuiet (wrt : List Expr) (e : Expr) (atoms : Array (Array Expr)) : Prop :=
  atoms.size = wrt.length ∧ ∀ i (hi : i < wrt.length), ¬ Occurs wrt[i] e → atoms[i]? = some #[]

section Quiet

variable {wrt : List Expr} {e : Expr}

theorem AtomsQuiet.start : AtomsQuiet wrt e (Array.replicate wrt.length #[]) :=
  ⟨Array.size_replicate, fun i hi _ => by simp [hi]⟩

/-- A contribution for a node of the expression lands only in the lists of targets equal to
it, which the expression mentions. -/
theorem AtomsQuiet.push (hwrt : ∀ x ∈ wrt, x.isDiffArg = true) {s : Adjoints} {a c : Expr}
    (hs : AtomsQuiet wrt e s.atoms) (ha : Occurs a e) : AtomsQuiet wrt e (s.push wrt a c).atoms := by
  unfold Adjoints.push
  split
  · exact hs
  · refine List.foldlRecOn (motive := AtomsQuiet wrt e) _ _ hs ?_
    rintro atoms hatoms ⟨target, j⟩ hmem
    have hj : j < wrt.length := by simpa using (List.mem_zipIdx hmem).2.1
    have htarget : wrt[j] = target := by
      have := (List.mem_zipIdx hmem).2.2
      simpa using this.symm
    dsimp only
    split
    · rename_i hbeq
      -- the target is `a` itself, so it is mentioned and its list may grow
      have hta : target = a := (eq_of_beq_of_isDiffArg (htarget ▸ hwrt _ (List.getElem_mem hj))
        (beq_symm _ _ (by simpa using hbeq))).symm
      refine ⟨by simp [hatoms.1], fun i hi hocc => ?_⟩
      have hij : j ≠ i := by
        rintro rfl
        exact hocc (htarget ▸ hta ▸ ha)
      rw [Array.getElem?_modify, if_neg hij]
      exact hatoms.2 i hi hocc
    · exact hatoms

theorem AtomsQuiet.visit (hwrt : ∀ x ∈ wrt, x.isDiffArg = true) {t : NodeTag} {s : Adjoints}
    {n : Expr} (hs : AtomsQuiet wrt e s.atoms) (hn : Occurs n e) :
    AtomsQuiet wrt e (s.visit wrt t n).atoms :=
  Adjoints.visit_atoms (AtomsQuiet wrt e)
    (fun _ _ _ ha hq => hq.push hwrt ((occurs_of_mem_args ha).trans hn)) hs

/-- A walk over nodes of the expression keeps the lists of the targets it does not mention
empty. -/
theorem AtomsQuiet.foldr_visit (hwrt : ∀ x ∈ wrt, x.isDiffArg = true) (tag : Nat → NodeTag)
    {s : Adjoints} (hs : AtomsQuiet wrt e s.atoms) (walk : Array (Expr × Nat))
    (hwalk : ∀ p ∈ walk, Occurs p.1 e) :
    AtomsQuiet wrt e (walk.foldr (fun p s => s.visit wrt (tag p.2) p.1) s).atoms := by
  rw [← Array.foldr_toList]
  exact List.foldrRecOn (motive := fun s : Adjoints => AtomsQuiet wrt e s.atoms) _ _ hs
    fun s' hs' p hp => hs'.visit hwrt (hwalk p (Array.mem_toList_iff.1 hp))

end Quiet

/-- Reverse accumulation succeeds for atoms and gives one derivative per target, the literal
zero for every target the expression does not mention. -/
theorem gradientTagged_of_not_occurs (t : NodeTag) (e : Expr) {wrt : List Expr}
    (hwrt : ∀ x ∈ wrt, x.isDiffArg = true) : ∃ gs, gradientTagged t e wrt = .ok gs ∧
      gs.length = wrt.length ∧ ∀ i (hi : i < wrt.length), ¬ Occurs wrt[i] e → gs[i]? = some zero := by
  have hloop : (forIn wrt ⟨⟩ fun a _ => do checkDiffArg a; pure (ForInStep.yield ⟨⟩) :
      Outcome PUnit) = .ok ⟨⟩ :=
    Decomposition.forIn_except_ok _ _ fun a ha => by
      simp [checkDiffArg_eq_ok_iff.2 (hwrt a ha), bind, Except.bind, pure, Except.pure]
  unfold gradientTagged
  rw [hloop]
  refine ⟨_, rfl, ?_⟩
  dsimp only
  generalize hwalk : Array.foldr _ _ (postOrder e).zipIdx = done
  have hdone : AtomsQuiet wrt e done.atoms := by
    rw [← hwalk]
    refine AtomsQuiet.foldr_visit hwrt (fun i => (t.child 0).child i) ?_ _
      fun p hp => occurs_of_mem_postOrder (Array.fst_mem_of_mem_zipIdx hp)
    -- the seed `one` goes to the root, or to the targets equal to it when it is an atom
    split
    · exact AtomsQuiet.start
    · exact AtomsQuiet.start.push hwrt .refl
  refine ⟨by simp [hdone.1], fun i hi hocc => ?_⟩
  rw [List.getElem?_map, List.getElem?_zipIdx, Array.getElem?_toList, hdone.2 i hi hocc]
  simp [sum_nil]

/-- Derivatives by an atom an expression does not mention are the literal zero. Forward
differentiation by such an atom gives `zero`; reverse accumulation gives one derivative per
target, `zero` for every target the expression does not mention. Both fail as invalid input on
an argument that is not a variable, a parameter or the time. -/
theorem derivative_by_absent_atom (e : Expr) :
    (∀ x, x.isDiffArg = true → ¬ Occurs x e → diff e x = .ok zero) ∧
    (∀ x, x.isDiffArg = false → ∃ msg, diff e x = .error (.invalid msg)) ∧
    (∀ wrt : List Expr, (∀ x ∈ wrt, x.isDiffArg = true) → ∃ gs, gradient e wrt = .ok gs ∧
      gs.length = wrt.length ∧ ∀ i (hi : i < wrt.length), ¬ Occurs wrt[i] e → gs[i]? = some zero) ∧
    (∀ wrt : List Expr, (∃ x ∈ wrt, x.isDiffArg = false) →
      ∃ msg, gradient e wrt = .error (.invalid msg)) := by
  refine ⟨fun x hx hocc => ?_, fun x hx => ?_,
    fun wrt hwrt => gradientTagged_of_not_occurs .anon e hwrt, fun wrt hbad => ?_⟩
  · rw [diff_eq_ok (checkDiffArg_eq_ok_iff.2 hx), diffBy_of_not_occurs hx hocc]
  · obtain ⟨msg, hmsg⟩ := checkDiffArg_eq_error hx
    exact ⟨msg, by simp [diff, hmsg, bind, Except.bind]⟩
  · -- the check of the targets fails at the first one that is no atom to differentiate by
    obtain ⟨err, hloop, msg, rfl⟩ := forIn_except_error (fun err => ∃ msg, err = .invalid msg) wrt
      (fun a _ => do checkDiffArg a; pure (ForInStep.yield ⟨⟩)) (fun a => by
        rcases checkDiffArg_cases a with ha | ⟨msg, ha⟩
        · exact .inl (by simp [ha, bind, Except.bind, pure, Except.pure])
        · exact .inr ⟨_, by simp [ha, bind, Except.bind], msg, rfl⟩)
      (by
        obtain ⟨x, hx, hbad⟩ := hbad
        obtain ⟨msg, hmsg⟩ := checkDiffArg_eq_error hbad
        exact ⟨x, hx, .invalid msg, by simp [hmsg, bind, Except.bind]⟩)
    exact ⟨msg, by rw [gradient, gradientTagged, hloop]; rfl⟩

/-! ## A product of a sine and a variable -/

/-- `sin x · y`. -/
def sinXTimesY : Expr := node (.path [0]) .mul [node (.path [1]) .sin [var "x"], var "y"]

theorem not_occurs_sinXTimesY {a : Expr} (ha : a = var "z" ∨ a = .time) :
    ¬ Occurs a sinXTimesY := by
  rcases ha with rfl | rfl <;> simp [sinXTimesY, node, occurs_func_iff, occurs_var_iff]

/-- `sin x · y` differentiated by `z`, and its gradient by `x`, `z` and the time: the
derivatives by `z` and by the time are the literal zero. Differentiating by a literal fails. -/
theorem sinXTimesY_absent_derivatives :
    diff sinXTimesY (var "z") = .ok zero ∧
    (∃ gs, gradient sinXTimesY [var "x", var "z", .time] = .ok gs ∧ gs.length = 3 ∧
      gs[1]? = some zero ∧ gs[2]? = some zero) ∧
    ∃ msg, diff sinXTimesY one = .error (.invalid msg) := by
  obtain ⟨hdiff, hbad, hgrad, -⟩ := derivative_by_absent_atom sinXTimesY
  obtain ⟨gs, hgs, hlen, hzero⟩ := hgrad [var "x", var "z", .time] (by decide)
  exact ⟨hdiff _ rfl (not_occurs_sinXTimesY (.inl rfl)),
    ⟨gs, hgs, hlen, hzero 1 (by decide) (not_occurs_sinXTimesY (.inl rfl)),
      hzero 2 (by decide) (not_occurs_sinXTimesY (.inr rfl))⟩, hbad one rfl⟩

end Expr

end TaylorOde
