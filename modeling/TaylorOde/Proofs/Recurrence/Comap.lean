import TaylorOde.Proofs.Recurrence.Loads
import Mathlib
/-!
# Renaming the references of a recurrence

The recurrences see their references only through `load` and `isConstant`; everything else
they do is arithmetic on loaded values. So running a recurrence with operations that rename
references before loading them (`CoeffOps.comap`) is running it on the renamed references
(`coefficient_comap`). Each helper of the recurrences has its lemma: the sums, scalings and
optional arithmetic do not see references at all, a convolution sees its two references, and
`higher` and `direct` see the arguments and the hidden dependencies.
-/

namespace TaylorOde

namespace CoeffOps

section Sums

variable {m : Type → Type} [Monad m] {V R : Type} (b : CoeffOps m V R)

theorem pairwiseSumAux_nil (fuel : Nat) : b.pairwiseSumAux fuel [] = pure none := by
  cases fuel <;> rfl

theorem pairwiseSumAux_singleton (fuel : Nat) (x : V) :
    b.pairwiseSumAux fuel [x] = pure (some x) := by
  cases fuel <;> rfl

theorem pairwiseSumAux_zero (x y : V) (rest : List V) :
    b.pairwiseSumAux 0 (x :: y :: rest) = pure (some x) := rfl

theorem pairwiseSumAux_succ (fuel : Nat) (x y : V) (rest : List V) :
    b.pairwiseSumAux (fuel + 1) (x :: y :: rest) =
      b.pairRound (x :: y :: rest) >>= b.pairwiseSumAux fuel := rfl

end Sums

variable {m : Type → Type} {V R R' : Type} (b : CoeffOps m V R) (f : R' → R)

/-- The operations on references of another kind, each renamed by `f` before it is loaded or
tested. -/
def comap : CoeffOps m V R' where
  load r k := b.load (f r) k
  isConstant r := b.isConstant (f r)
  constant := b.constant
  unary := b.unary
  binary := b.binary

@[simp] theorem comap_load (r : R') (k : Nat) : (b.comap f).load r k = b.load (f r) k := rfl

@[simp] theorem comap_isConstant (r : R') : (b.comap f).isConstant r = b.isConstant (f r) := rfl

@[simp] theorem comap_constant : (b.comap f).constant = b.constant := rfl

@[simp] theorem comap_unary : (b.comap f).unary = b.unary := rfl

@[simp] theorem comap_binary : (b.comap f).binary = b.binary := rfl

/-! ## Helpers that do not see references -/

variable [Monad m]

@[simp] theorem comap_pairRound (l : List V) : (b.comap f).pairRound l = b.pairRound l := by
  fun_induction b.pairRound l with
  | case1 x y rest ih => simp only [pairRound, ih, comap_binary]
  | case2 rest hne =>
    rcases rest with _ | ⟨x, _ | ⟨y, rest⟩⟩
    · rfl
    · rfl
    · exact (hne x y rest rfl).elim

@[simp] theorem comap_pairwiseSum (l : List V) :
    (b.comap f).pairwiseSum l = b.pairwiseSum l := by
  -- the rounds are the same at every fuel
  have haux : ∀ fuel, (b.comap f).pairwiseSumAux fuel = b.pairwiseSumAux fuel := by
    intro fuel
    induction fuel with
    | zero =>
      funext l
      rcases l with _ | ⟨x, _ | ⟨y, rest⟩⟩
      · simp only [pairwiseSumAux_nil]
      · simp only [pairwiseSumAux_singleton]
      · simp only [pairwiseSumAux_zero]
    | succ fuel ih =>
      funext l
      rcases l with _ | ⟨x, _ | ⟨y, rest⟩⟩
      · simp only [pairwiseSumAux_nil]
      · simp only [pairwiseSumAux_singleton]
      · simp only [pairwiseSumAux_succ, comap_pairRound, ih]
  simp only [pairwiseSum, haux]

@[simp] theorem comap_scale (c : Const) (x : Option V) : (b.comap f).scale c x = b.scale c x := by
  cases x <;> rfl

@[simp] theorem comap_mulOpt (x y : Option V) : (b.comap f).mulOpt x y = b.mulOpt x y := by
  cases x <;> cases y <;> rfl

@[simp] theorem comap_addOpt (x y : Option V) : (b.comap f).addOpt x y = b.addOpt x y := by
  cases x <;> cases y <;> rfl

@[simp] theorem comap_negOpt (x : Option V) : (b.comap f).negOpt x = b.negOpt x := by
  cases x <;> rfl

@[simp] theorem comap_subOpt (x y : Option V) : (b.comap f).subOpt x y = b.subOpt x y := by
  cases x <;> cases y <;> rfl

@[simp] theorem comap_divBy (x : Option V) (d : V) : (b.comap f).divBy x d = b.divBy x d := by
  cases x <;> rfl

@[simp] theorem comap_orZero (x : Option V) : (b.comap f).orZero x = b.orZero x := by
  cases x <;> rfl

/-! ## Helpers that see references -/

@[simp] theorem comap_coeff (r : R') (k : Nat) : (b.comap f).coeff r k = b.coeff (f r) k := rfl

@[simp] theorem comap_conv (x y : R') (n : Nat) (js : List Nat) (w : Nat → Const) :
    (b.comap f).conv x y n js w = b.conv (f x) (f y) n js w := by
  simp only [conv, comap_coeff, comap_binary, comap_scale, comap_pairwiseSum]

variable [LawfulMonad m]

theorem comap_higher (op : Op) (this : R') (args hidden : List R') (n : Nat) :
    (b.comap f).higher op this args hidden n =
      b.higher op (f this) (args.map f) (hidden.map f) n := by
  -- each formula reads its references through `arg`, `hid` and `this`
  cases op <;> simp [higher]

variable [Inhabited V]

theorem comap_direct (op : Op) (args : List R') :
    (b.comap f).direct op args = b.direct op (args.map f) := by
  simp only [direct, comap_load, comap_unary, comap_binary, comap_constant, comap_pairwiseSum,
    List.mapM_map]
  rfl

/-- A recurrence over renamed references is the recurrence over the references renamed. -/
theorem coefficient_comap (op : Op) (this : R') (args hidden : List R') (n : Nat) :
    coefficient (b.comap f) op this args hidden n =
      coefficient b op (f this) (args.map f) (hidden.map f) n := by
  simp only [coefficient, List.length_map, comap_isConstant, List.getD_map, comap_direct,
    comap_higher, comap_orZero]

namespace LogsOnly

/-- Reads admitted over renamed references are admitted over the references themselves, when
the renaming keeps what counts as constant. -/
theorem Reads.comap {P : R' × Nat → Prop} {Q : R × Nat → Prop} {isC : R' → Bool}
    {isC' : R → Bool} (hP : ∀ r k, Q (f r, k) → P (r, k)) (hC : ∀ r, isC r = isC' (f r))
    {this : R'} {args hidden : List R'} {n : Nat}
    (h : Reads Q isC' (f this) (args.map f) (hidden.map f) n) : Reads P isC this args hidden n where
  arg a ha k hk hc := hP a k (h.arg (f a) (List.mem_map_of_mem ha) k hk (hC a ▸ hc))
  self k hk hc := hP this k (h.self k hk (hC this ▸ hc))
  hid x hx k hk hc := hP x k (h.hid (f x) (List.mem_map_of_mem hx) k hk (hC x ▸ hc))

end LogsOnly

end CoeffOps

end TaylorOde
