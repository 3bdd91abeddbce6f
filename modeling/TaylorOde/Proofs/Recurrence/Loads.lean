import TaylorOde.Proofs.Recurrence.Series
import TaylorOde.Proofs.Expr.Equality
import TaylorOde.Ir.Emit
/-!
# The loads a recurrence issues

A recurrence reads coefficients through its builder's `load`. For the order-`n` coefficient of
`this = op(args)` with hidden dependencies `hidden`, every load reads an argument at an order at
most `n`, or the entry itself or a hidden dependency at an order below `n`, so it only reads
what is already computed; and it never reads a literal reference above order 0.

To watch the loads of any builder, `CoeffOps.traced b` runs `b` with a log of the loads it
issues kept beside its state. `LogsOnly P x` says that every entry a program adds to the log
satisfies `P`; it is kept by `pure`, `bind`, loops and branches, so each helper of the
recurrences gets one lemma saying which loads it issues (`LogsOnly.coeff`, `LogsOnly.conv`,
`LogsOnly.direct`, …), and `LogsOnly.higher` follows the formula of each operator. The main
statement, `coefficient_loads`, adds when `coefficient` refuses its input.
-/

namespace TaylorOde

namespace CoeffOps

variable {σ V R : Type}

/-- Runs a step of a builder on its own state, changing the log by `f`. -/
def withLog {β : Type} (x : StateM σ β) (f : List (R × Nat) → List (R × Nat)) :
    StateM (σ × List (R × Nat)) β :=
  fun st => let (v, s) := x.run st.1; (v, (s, f st.2))

/-- `b` with every load it issues appended, with its order, to a log kept beside its state. -/
def traced (b : CoeffOps (StateM σ) V R) : CoeffOps (StateM (σ × List (R × Nat))) V R where
  load r k := withLog (b.load r k) (· ++ [(r, k)])
  isConstant := b.isConstant
  constant c := withLog (b.constant c) id
  unary f x := withLog (b.unary f x) id
  binary f x y := withLog (b.binary f x y) id

@[simp] theorem traced_isConstant (b : CoeffOps (StateM σ) V R) :
    b.traced.isConstant = b.isConstant := rfl

/-- Every entry that running `x` adds to the log satisfies `P`. -/
def LogsOnly (P : R × Nat → Prop) {β : Type} (x : StateM (σ × List (R × Nat)) β) : Prop :=
  ∀ st : σ × List (R × Nat), (∀ e ∈ st.2, P e) → ∀ e ∈ (x.run st).2.2, P e

namespace LogsOnly

variable {P : R × Nat → Prop} {β γ : Type}

protected theorem pure (a : β) : LogsOnly (σ := σ) P (pure a) := fun _ h => h

protected theorem bind {x : StateM (σ × List (R × Nat)) β} {f : β → StateM _ γ}
    (hx : LogsOnly P x) (hf : ∀ a, LogsOnly P (f a)) : LogsOnly P (x >>= f) :=
  fun st h => hf _ _ (hx st h)

protected theorem map {x : StateM (σ × List (R × Nat)) β} (f : β → γ) (hx : LogsOnly P x) :
    LogsOnly P (f <$> x) :=
  fun st h => hx st h

protected theorem ite {c : Prop} [Decidable c] {x y : StateM (σ × List (R × Nat)) β}
    (hx : c → LogsOnly P x) (hy : ¬c → LogsOnly P y) : LogsOnly P (if c then x else y) := by
  by_cases h : c
  · rw [if_pos h]
    exact hx h
  · rw [if_neg h]
    exact hy h

/-- A loop logs only what its body logs. -/
protected theorem forIn {α : Type} {l : List α} {init : β}
    {f : α → β → StateM (σ × List (R × Nat)) (ForInStep β)}
    (hf : ∀ a ∈ l, ∀ d, LogsOnly P (f a d)) : LogsOnly P (forIn l init f) := by
  induction l generalizing init with
  | nil => exact LogsOnly.pure init
  | cons a l ih =>
    rw [List.forIn_cons]
    refine .bind (hf a (by simp) init) fun step => ?_
    cases step with
    | done d => exact LogsOnly.pure d
    | yield d => exact ih (fun a' ha' d' => hf a' (by simp [ha']) d')

protected theorem mapM {α : Type} {l : List α} {f : α → StateM (σ × List (R × Nat)) β}
    (hf : ∀ a ∈ l, LogsOnly P (f a)) : LogsOnly P (l.mapM f) := by
  induction l with
  | nil => exact LogsOnly.pure []
  | cons a l ih =>
    rw [List.mapM_cons]
    exact .bind (hf a (by simp)) fun _ =>
      .bind (ih fun a' ha' => hf a' (by simp [ha'])) fun _ => LogsOnly.pure _

theorem withLog {x : StateM σ β} {f : List (R × Nat) → List (R × Nat)}
    (hf : ∀ log, (∀ e ∈ log, P e) → ∀ e ∈ f log, P e) : LogsOnly P (withLog x f) :=
  fun st h => hf st.2 h

/-! ## The builder's operations -/

variable (b : CoeffOps (StateM σ) V R)

theorem load {r : R} {k : Nat} (h : P (r, k)) : LogsOnly P (b.traced.load r k) :=
  withLog fun _ hlog e he => by
    rcases List.mem_append.1 he with he | he
    · exact hlog e he
    · rw [List.mem_singleton.1 he]
      exact h

theorem constant (c : Const) : LogsOnly P (b.traced.constant c) := withLog fun _ h => h

theorem unary (f : UnaryFn) (x : V) : LogsOnly P (b.traced.unary f x) := withLog fun _ h => h

theorem binary (f : BinaryFn) (x y : V) : LogsOnly P (b.traced.binary f x y) :=
  withLog fun _ h => h

/-! ## The helpers of the recurrences -/

theorem pairRound (l : List V) : LogsOnly P (b.traced.pairRound l) := by
  fun_induction b.traced.pairRound l with
  | case1 x y rest ih => exact .bind (binary b _ _ _) fun _ => .bind ih fun _ => .pure _
  | case2 rest _ => exact .pure rest

theorem pairwiseSum (l : List V) : LogsOnly P (b.traced.pairwiseSum l) := by
  unfold CoeffOps.pairwiseSum
  generalize l.length = fuel
  induction fuel generalizing l with
  | zero =>
    match l with
    | [] => exact .pure _
    | [_] => exact .pure _
    | _ :: _ :: _ => exact .pure _
  | succ fuel ih =>
    match l with
    | [] => exact .pure _
    | [_] => exact .pure _
    | x :: y :: rest => exact .bind (pairRound b _) fun t => ih t

theorem coeff {r : R} {k : Nat} (h : (k > 0 && b.isConstant r) = false → P (r, k)) :
    LogsOnly P (b.traced.coeff r k) := by
  unfold CoeffOps.coeff
  by_cases hc : (k > 0 && b.traced.isConstant r) = true
  · rw [if_pos hc]
    exact .pure none
  · rw [if_neg hc]
    exact .map some (load b (h (by simpa using hc)))

theorem scale (c : Const) (x : Option V) : LogsOnly P (b.traced.scale c x) := by
  unfold CoeffOps.scale
  split
  · exact .pure none
  · refine .ite (fun _ => .pure _) fun _ => .ite (fun _ => .map _ (unary b _ _)) fun _ => ?_
    exact .bind (constant b c) fun k => .map _ (binary b _ _ _)

/-- A convolution loads the coefficients its terms ask for. -/
theorem conv (x y : R) (n : Nat) (js : List Nat) (w : Nat → Const)
    (h : ∀ j ∈ js, LogsOnly P (b.traced.coeff x j) ∧ LogsOnly P (b.traced.coeff y (n - j))) :
    LogsOnly P (b.traced.conv x y n js w) := by
  unfold CoeffOps.conv
  refine .bind (.forIn fun j hj terms => ?_) fun terms => pairwiseSum b _
  refine .bind (h j hj).1 fun xj => .bind (h j hj).2 fun yk => ?_
  -- a term is formed only when both coefficients are there; forming it loads nothing more
  split
  · refine .bind (binary b _ _ _) fun prod => .bind (scale b _ _) fun t => ?_
    split <;> exact .pure _
  · exact .pure _

theorem mulOpt (x y : Option V) : LogsOnly P (b.traced.mulOpt x y) := by
  unfold CoeffOps.mulOpt
  split
  · exact .map _ (binary b _ _ _)
  · exact .pure _

theorem addOpt (x y : Option V) : LogsOnly P (b.traced.addOpt x y) := by
  unfold CoeffOps.addOpt
  split
  · exact .map _ (binary b _ _ _)
  all_goals exact .pure _

theorem negOpt (x : Option V) : LogsOnly P (b.traced.negOpt x) := by
  unfold CoeffOps.negOpt
  split
  · exact .map _ (unary b _ _)
  · exact .pure _

theorem subOpt (x y : Option V) : LogsOnly P (b.traced.subOpt x y) := by
  unfold CoeffOps.subOpt
  split
  · exact .map _ (binary b _ _ _)
  · exact .pure _
  · exact negOpt b _

theorem divBy (x : Option V) (d : V) : LogsOnly P (b.traced.divBy x d) := by
  unfold CoeffOps.divBy
  split
  · exact .map _ (binary b _ _ _)
  · exact .pure _

theorem orZero (x : Option V) : LogsOnly P (b.traced.orZero x) := by
  unfold CoeffOps.orZero
  split
  · exact .pure _
  · exact constant b _

/-- The reads of the order-`n` recurrence of `this` that `P` admits: every coefficient of an
argument up to order `n`, and of the entry itself or a hidden dependency below order `n`, that
is not known to vanish (a literal reference above order 0). -/
structure Reads (P : R × Nat → Prop) (isConstant : R → Bool) (this : R) (args hidden : List R)
    (n : Nat) : Prop where
  arg : ∀ a ∈ args, ∀ k ≤ n, (k > 0 && isConstant a) = false → P (a, k)
  self : ∀ k < n, (k > 0 && isConstant this) = false → P (this, k)
  hid : ∀ h ∈ hidden, ∀ k < n, (k > 0 && isConstant h) = false → P (h, k)

theorem getD_mem {l : List R} {i : Nat} (h : i < l.length) (d : R) : l.getD i d ∈ l := by
  rw [List.getD_eq_getElem _ _ h]
  exact List.getElem_mem h

/-- Above order 0 the recurrence of each operator reads only what `Reads` admits, once it has
the right number of arguments and hidden dependencies. -/
theorem higher {this : R} {args hidden : List R} {n : Nat}
    (hR : Reads P b.isConstant this args hidden n) (hn : 0 < n) (op : Op)
    (harity : op.accepts args.length = true) (hcount : hidden.length = op.hiddenCount) :
    LogsOnly P (b.traced.higher op this args hidden n) := by
  have arg : ∀ i < args.length, ∀ k ≤ n, LogsOnly P (b.traced.coeff (args.getD i this) k) :=
    fun i hi k hk => coeff b (hR.arg _ (getD_mem hi this) k hk)
  have arg0 : ∀ i < args.length, LogsOnly P (b.traced.load (args.getD i this) 0) :=
    fun i hi => load b (hR.arg _ (getD_mem hi this) 0 (Nat.zero_le n) (by simp))
  have self : ∀ k < n, LogsOnly P (b.traced.coeff this k) := fun k hk => coeff b (hR.self k hk)
  have self0 : LogsOnly P (b.traced.load this 0) := load b (hR.self 0 hn (by simp))
  have hid : ∀ i < hidden.length, ∀ k < n, LogsOnly P (b.traced.coeff (hidden.getD i this) k) :=
    fun i hi k hk => coeff b (hR.hid _ (getD_mem hi this) k hk)
  have hid0 : ∀ i < hidden.length, LogsOnly P (b.traced.load (hidden.getD i this) 0) :=
    fun i hi => load b (hR.hid _ (getD_mem hi this) 0 hn (by simp))
  -- one formula per operator; every range is checked against the order it reads
  cases op <;> simp only [CoeffOps.higher] <;>
    simp only [Op.accepts, Op.arity, Op.hiddenCount, beq_iff_eq, gt_iff_lt] at harity hcount
  case sum =>
    refine .bind (.forIn fun a ha _ => .bind (coeff b (hR.arg a ha n le_rfl)) fun c => ?_)
      fun terms => pairwiseSum b _
    split <;> exact .pure _
  case neg => exact .bind (arg 0 (by omega) n le_rfl) fun x => negOpt b x
  case mul =>
    exact conv b _ _ _ _ _ fun j hj =>
      ⟨arg 0 (by omega) j (mem_span.1 hj).2, arg 1 (by omega) (n - j) (Nat.sub_le n j)⟩
  case div =>
    refine .bind (arg 0 (by omega) n le_rfl) fun bn => .bind ?_ fun s =>
      .bind (subOpt b _ _) fun num => .bind (arg0 1 (by omega)) fun c0 => divBy b _ _
    exact conv b _ _ _ _ _ fun j hj =>
      ⟨arg 1 (by omega) j (mem_span.1 hj).2, self (n - j) (by have := mem_span.1 hj; omega)⟩
  case square =>
    refine .bind ?_ fun half => .bind (scale b _ _) fun twice =>
      .ite (fun _ => ?_) fun _ => .pure twice
    · exact conv b _ _ _ _ _ fun j hj =>
        ⟨arg 0 (by omega) j (by have := mem_span.1 hj; omega),
          arg 0 (by omega) (n - j) (Nat.sub_le n j)⟩
    · exact .bind (arg 0 (by omega) (n / 2) (Nat.div_le_self n 2)) fun mid =>
        .bind (mulOpt b _ _) fun sq => addOpt b _ _
  case sqrt =>
    refine .bind (arg 0 (by omega) n le_rfl) fun bn => .bind ?_ fun s =>
      .bind (subOpt b _ _) fun num => .bind self0 fun a0 => .bind (divBy b _ _) fun q => scale b _ _
    exact conv b _ _ _ _ _ fun j hj =>
      ⟨self j (by have := mem_span.1 hj; omega), self (n - j) (by have := mem_span.1 hj; omega)⟩
  case exp =>
    refine .bind ?_ fun s => scale b _ _
    exact conv b _ _ _ _ _ fun j hj =>
      ⟨arg 0 (by omega) j (mem_span.1 hj).2, self (n - j) (by have := mem_span.1 hj; omega)⟩
  case log =>
    refine .bind (arg 0 (by omega) n le_rfl) fun bn => .bind (scale b _ _) fun nb => .bind ?_ fun s =>
      .bind (subOpt b _ _) fun num => .bind (arg0 0 (by omega)) fun b0 =>
      .bind (divBy b _ _) fun q => scale b _ _
    exact conv b _ _ _ _ _ fun j hj =>
      ⟨self j (by have := mem_span.1 hj; omega), arg 0 (by omega) (n - j) (Nat.sub_le n j)⟩
  case pow =>
    refine .bind (arg0 1 (by omega)) fun alpha => .bind (.forIn fun j hj acc => ?_) fun terms =>
      .bind (pairwiseSum b _) fun s => .bind (arg0 0 (by omega)) fun b0 =>
      .bind (divBy b _ _) fun q => scale b _ _
    refine .bind (arg 0 (by omega) (n - j) (Nat.sub_le n j)) fun bk =>
      .bind (self j (List.mem_range.1 hj)) fun aj => ?_
    -- the weight and the product of a term load nothing
    split
    · refine .bind (constant b _) fun k => .bind (binary b _ _ _) fun w =>
        .ite (fun _ => ?_) fun _ => ?_
      · exact .bind (constant b _) fun jj => .bind (binary b _ _ _) fun w =>
          .bind (binary b _ _ _) fun prod => .bind (binary b _ _ _) fun t => .pure _
      · exact .bind (binary b _ _ _) fun prod => .bind (binary b _ _ _) fun t => .pure _
    · exact .pure _
  case sin | sinh | cosh | cos =>
    refine .bind ?_ fun s => scale b _ _
    exact conv b _ _ _ _ _ fun j hj =>
      ⟨arg 0 (by omega) j (mem_span.1 hj).2, hid 0 (by omega) (n - j) (by have := mem_span.1 hj; omega)⟩
  case tan | tanh =>
    refine .bind (arg 0 (by omega) n le_rfl) fun bn => .bind ?_ fun s => .bind (scale b _ _) fun s =>
      .ite (fun _ => addOpt b _ _) fun _ => subOpt b _ _
    exact conv b _ _ _ _ _ fun j hj =>
      ⟨arg 0 (by omega) j (mem_span.1 hj).2, hid 0 (by omega) (n - j) (by have := mem_span.1 hj; omega)⟩
  case asin | acos | atan =>
    refine .bind (arg 0 (by omega) n le_rfl) fun bn => .bind (scale b _ _) fun nb => .bind ?_ fun s =>
      .bind (subOpt b _ _) fun num => .bind (hid0 0 (by omega)) fun h0 => .ite (fun _ => ?_) fun _ => ?_
    · exact conv b _ _ _ _ _ fun j hj =>
        ⟨self j (by have := mem_span.1 hj; omega), hid 0 (by omega) (n - j) (by have := mem_span.1 hj; omega)⟩
    · exact .bind (constant b _) fun one => .bind (binary b _ _ _) fun den =>
        .bind (divBy b _ _) fun q => scale b _ _
    · exact .bind (.pure h0) fun den => .bind (divBy b _ _) fun q => scale b _ _
  case atan2 =>
    refine .bind ?_ fun yx => .bind ?_ fun xy => .bind (subOpt b _ _) fun cross => .bind ?_ fun s =>
      .bind (subOpt b _ _) fun num => .bind (hid0 0 (by omega)) fun d0 =>
      .bind (divBy b _ _) fun q => scale b _ _
    · exact conv b _ _ _ _ _ fun j hj =>
        ⟨arg 0 (by omega) j (mem_span.1 hj).2, arg 1 (by omega) (n - j) (Nat.sub_le n j)⟩
    · exact conv b _ _ _ _ _ fun j hj =>
        ⟨arg 1 (by omega) j (mem_span.1 hj).2, arg 0 (by omega) (n - j) (Nat.sub_le n j)⟩
    · exact conv b _ _ _ _ _ fun j hj =>
        ⟨self j (by have := mem_span.1 hj; omega), hid 0 (by omega) (n - j) (by have := mem_span.1 hj; omega)⟩
  case kepE =>
    refine .bind (arg 1 (by omega) n le_rfl) fun mn => .bind (scale b _ _) fun t1 => .bind ?_ fun t2 =>
      .bind (.forIn fun j hj acc => ?_) fun t3 => .bind (pairwiseSum b _) fun t3sum =>
      .bind (pairwiseSum b _) fun num => .bind (arg0 0 (by omega)) fun e0 =>
      .bind (hid0 1 (by omega)) fun co0 => .bind (constant b _) fun one =>
      .bind (binary b _ _ _) fun ec => .bind (binary b _ _ _) fun den =>
      .bind (divBy b _ _) fun q => scale b _ _
    · exact conv b _ _ _ _ _ fun i hi =>
        ⟨arg 0 (by omega) i (mem_span.1 hi).2, hid 0 (by omega) (n - i) (by have := mem_span.1 hi; omega)⟩
    · -- the coefficients of `e cos E` of order `n - j` read `cos E` below `n`
      have hj' := mem_span.1 hj
      refine .bind (conv b _ _ _ _ _ fun i hi =>
          ⟨arg 0 (by omega) i (by have := mem_span.1 hi; omega),
            hid 1 (by omega) (n - j - i) (by omega)⟩) fun w =>
        .bind (self j (by omega)) fun aj => .bind (scale b _ _) fun aj =>
        .bind (mulOpt b _ _) fun t => ?_
      split <;> exact .pure _
variable [Inhabited V]

/-- The order-0 coefficient loads the arguments at order 0 and nothing else. -/
theorem direct (op : Op) (args : List R) (h : ∀ a ∈ args, P (a, 0)) :
    LogsOnly P (b.traced.direct op args) := by
  unfold CoeffOps.direct
  refine .bind (.mapM fun a ha => load b (h a ha)) fun vals => ?_
  split
  · exact unary b _ _
  · split
    · refine .bind (pairwiseSum b _) fun s => ?_
      split
      · exact .pure _
      · exact constant b _
    · exact binary b _ _ _
    · exact binary b _ _ _

end LogsOnly

end CoeffOps

section Coefficient

variable {m : Type → Type} [Monad m] {V R : Type} [Inhabited V]

/-- With the right arguments, hidden dependencies and exponent, `coefficient` gives the program
of `direct` at order 0 and of `higher` above. -/
theorem coefficient_of_valid (b : CoeffOps m V R) {op : Op} {this : R} {args hidden : List R}
    (n : Nat) (h1 : op.accepts args.length = true) (h2 : hidden.length = op.hiddenCount)
    (h3 : ¬(op = .pow ∧ b.isConstant (args.getD 1 this) = false)) :
    coefficient b op this args hidden n =
      .ok (if n = 0 then b.direct op args else b.higher op this args hidden n >>= b.orZero) := by
  have h4 : (op == .pow && !b.isConstant (args.getD 1 this)) = false := by simpa using h3
  unfold coefficient Op.checkArity
  simp only [h1, h2, h4, if_true, bne_self_eq_false, Bool.false_eq_true, if_false]
  by_cases hn : n = 0 <;> simp [hn, bind, Except.bind, pure, Except.pure]

/-- `coefficient` refuses its input exactly for a wrong number of arguments or of hidden
dependencies, or for a power whose exponent is not a literal. -/
theorem coefficient_isError_iff (b : CoeffOps m V R) (op : Op) (this : R) (args hidden : List R)
    (n : Nat) :
    (∃ e, coefficient b op this args hidden n = .error e) ↔
      (op.accepts args.length = false ∨ hidden.length ≠ op.hiddenCount ∨
        (op = .pow ∧ b.isConstant (args.getD 1 this) = false)) := by
  by_cases h1 : op.accepts args.length = true
  · by_cases h2 : hidden.length = op.hiddenCount
    · by_cases h3 : op = .pow ∧ b.isConstant (args.getD 1 this) = false
      · obtain ⟨rfl, hc⟩ := h3
        rw [List.getD_eq_getElem?_getD] at hc
        simp [coefficient, Op.checkArity, h1, h2, hc, bind, Except.bind, throw, throwThe,
          MonadExceptOf.throw]
      · rw [coefficient_of_valid b n h1 h2 h3]
        constructor
        · rintro ⟨e, he⟩
          cases he
        · rintro (h | h | h)
          · rw [h1] at h
            cases h
          · exact absurd h2 h
          · exact absurd h h3
    · simp [coefficient, Op.checkArity, h1, h2, bind, Except.bind, throw, throwThe,
        MonadExceptOf.throw]
  · simp [coefficient, Op.checkArity, h1, bind, Except.bind]

end Coefficient

/-- The loads the order-`n` recurrence of `this = op(args)` with hidden dependencies `hidden`
may issue: of these references only; of an argument up to order `n`; of the entry itself or a
hidden dependency below order `n`; at order 0 only of arguments, at order 0; and of a literal
reference only at order 0. -/
structure AllowedLoad {R : Type} (isConstant : R → Bool) (this : R) (args hidden : List R)
    (n : Nat) (e : R × Nat) : Prop where
  known : e.1 = this ∨ e.1 ∈ args ∨ e.1 ∈ hidden
  arg : e.1 ∈ args → e.2 ≤ n
  past : e.1 = this ∨ e.1 ∈ hidden → e.2 < n
  start : n = 0 → e.1 ∈ args ∧ e.2 = 0
  literal : isConstant e.1 = true → e.2 = 0

namespace AllowedLoad

variable {R : Type} {isConstant : R → Bool} {this : R} {args hidden : List R} {n : Nat}

/-- The guard of `CoeffOps.coeff` lets a literal reference through only at order 0. -/
theorem eq_zero_of_guard {k : Nat} {c : Bool} (h : (k > 0 && c) = false) (hc : c = true) :
    k = 0 := by
  subst hc
  simpa using h

/-- With distinct references, an argument is neither the entry nor a hidden dependency. -/
theorem not_past_of_mem_args (hd : (this :: args ++ hidden).Nodup) {a : R} (ha : a ∈ args) :
    ¬(a = this ∨ a ∈ hidden) := by
  obtain ⟨hthis, hd⟩ := List.nodup_cons.1 hd
  rintro (rfl | hh)
  · exact hthis (List.mem_append_left _ ha)
  · exact (List.nodup_append.1 hd).2.2 a ha a hh rfl

/-- At order 0 the loads of the arguments at order 0 are allowed. -/
theorem arg_zero (hd : (this :: args ++ hidden).Nodup) {a : R} (ha : a ∈ args) :
    AllowedLoad isConstant this args hidden 0 (a, 0) where
  known := .inr (.inl ha)
  arg _ := le_rfl
  past h := absurd h (not_past_of_mem_args hd ha)
  start _ := ⟨ha, rfl⟩
  literal _ := rfl

/-- Above order 0, the reads `Reads` admits are allowed loads. -/
theorem reads (hd : (this :: args ++ hidden).Nodup) (hn : 0 < n) :
    CoeffOps.LogsOnly.Reads (AllowedLoad isConstant this args hidden n) isConstant this args
      hidden n := by
  have hn' : n ≠ 0 := Nat.pos_iff_ne_zero.1 hn
  constructor
  · intro a ha k hk hg
    exact ⟨.inr (.inl ha), fun _ => hk, fun h => absurd h (not_past_of_mem_args hd ha),
      fun h => absurd h hn', eq_zero_of_guard hg⟩
  · intro k hk hg
    exact ⟨.inl rfl, fun ha => absurd (.inl rfl) (not_past_of_mem_args hd ha), fun _ => hk,
      fun h => absurd h hn', eq_zero_of_guard hg⟩
  · intro h hh k hk hg
    exact ⟨.inr (.inr hh), fun ha => absurd (.inr hh) (not_past_of_mem_args hd ha),
      fun _ => hk, fun h => absurd h hn', eq_zero_of_guard hg⟩

end AllowedLoad

section Loads

variable {σ V R : Type} [Inhabited V]

/-- What `coefficient` refuses, and what the program it gives may load. It refuses exactly a
wrong number of arguments or hidden dependencies and a power with a non-literal exponent. When
the entry, its arguments and its hidden dependencies are distinct references, every load that
the program issues, run on any state of any builder, is an `AllowedLoad`: arguments up to order
`n`, the entry and its hidden dependencies below `n`, only arguments at order 0 when `n = 0`, and
literal references at order 0 only. -/
theorem coefficient_loads (b : CoeffOps (StateM σ) V R) (op : Op) (this : R)
    (args hidden : List R) (n : Nat) :
    ((∃ e, coefficient b op this args hidden n = .error e) ↔
      (op.accepts args.length = false ∨ hidden.length ≠ op.hiddenCount ∨
        (op = .pow ∧ b.isConstant (args.getD 1 this) = false))) ∧
    ((this :: args ++ hidden).Nodup → ∀ prog, coefficient b.traced op this args hidden n = .ok prog →
      ∀ s, ∀ e ∈ (prog.run (s, [])).2.2, AllowedLoad b.isConstant this args hidden n e) := by
  refine ⟨coefficient_isError_iff b op this args hidden n, fun hd prog hprog s => ?_⟩
  -- a program is given only when every check passes
  have hvalid : ¬(op.accepts args.length = false ∨ hidden.length ≠ op.hiddenCount ∨
      (op = .pow ∧ b.isConstant (args.getD 1 this) = false)) := fun h => by
    obtain ⟨e, he⟩ := (coefficient_isError_iff b.traced op this args hidden n).2 h
    rw [hprog] at he
    cases he
  simp only [not_or, Bool.not_eq_false, not_not] at hvalid
  obtain ⟨h1, h2, h3⟩ := hvalid
  rw [coefficient_of_valid b.traced n h1 h2 h3] at hprog
  cases hprog
  have hlogs : CoeffOps.LogsOnly (AllowedLoad b.isConstant this args hidden n)
      (if n = 0 then b.traced.direct op args
        else b.traced.higher op this args hidden n >>= b.traced.orZero) := by
    split
    · next h0 =>
      subst h0
      exact CoeffOps.LogsOnly.direct b op args fun a ha => AllowedLoad.arg_zero hd ha
    · next h0 =>
      exact .bind (CoeffOps.LogsOnly.higher b (AllowedLoad.reads hd (Nat.pos_of_ne_zero h0))
        (Nat.pos_of_ne_zero h0) op h1 h2) fun x => CoeffOps.LogsOnly.orZero b x
  exact hlogs (s, []) (by simp)

/-- The instruction emitter at order 3 of Kepler's equation `E = kepE(0.5, M)` with hidden
dependencies `sin E` and `cos E`: every load it issues is allowed, the literal eccentricity
included. -/
theorem emitted_kepler_loads :
    [Operand.coeff (.fixed 4), .literal 0.5, .coeff (.fixed 0), .coeff (.fixed 2),
      .coeff (.fixed 3)].Nodup ∧
    ∀ prog, coefficient CodeBuilder.ops.traced .kepE (.coeff (.fixed 4))
        [.literal 0.5, .coeff (.fixed 0)] [.coeff (.fixed 2), .coeff (.fixed 3)] 3 = .ok prog →
      ∀ s, ∀ e ∈ (prog.run (s, [])).2.2,
        AllowedLoad CodeBuilder.ops.isConstant (.coeff (.fixed 4))
          [.literal 0.5, .coeff (.fixed 0)] [.coeff (.fixed 2), .coeff (.fixed 3)] 3 e := by
  have hd : [Operand.coeff (.fixed 4), .literal 0.5, .coeff (.fixed 0), .coeff (.fixed 2),
      .coeff (.fixed 3)].Nodup := by
    simp
  exact ⟨hd, (coefficient_loads CodeBuilder.ops .kepE _ _ _ 3).2 hd⟩

end Loads

end TaylorOde
