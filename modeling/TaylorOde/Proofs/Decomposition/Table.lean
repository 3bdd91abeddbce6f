import TaylorOde.Proofs.Expr.Equality
import TaylorOde.Recurrence
/-!
# The layout of a decomposition and its expansions

`WellFormed` is the layout `check` verifies: the prefix of variables and parameters, function
entries over literals and earlier entries (or the time), hidden dependencies into the function
range other than the entry itself, and outputs that are literals or function-range entries.

`expansions` is the table `reconstruct` builds: every entry expanded against the expansions of
the entries before it. On a well-formed table each expansion is a fixed point, its entry
expanded against the whole table (`WellFormed.expansion_eq`), which is the form every pass
proof uses. `check_ok` says that `check` accepts every well-formed table whose reconstruction
is structurally equal to the expressions it is checked against.
-/

namespace TaylorOde

namespace Decomposition

/-- The expansion of an argument against the expansions of the entries. -/
def expandArg (built : Array Expr) (a : Expr) : Expr :=
  match a.elemIndex? with
  | some j => built[j]?.getD a
  | none => a

/-- The expansion of a right-hand side against the expansions of the entries. -/
def expandRhs (built : Array Expr) : Expr → Expr
  | .func _ op args _ => Expr.node .anon op (args.map (expandArg built))
  | other => expandArg built other

/-- One step of the reconstruction: the next entry expanded against those before it. -/
def expandStep (built : Array Expr) (e : Entry) : Array Expr := built.push (expandRhs built e.rhs)

/-- The expansions of a table's entries, each against those before it. -/
def expansions (es : Array Entry) : Array Expr := es.foldl expandStep #[]

theorem reconstruct_eq (d : Decomposition) :
    d.reconstruct = (expansions d.entries).toList.drop d.functionsEnd := rfl

/-- The indices of the entries a right-hand side refers to are all below `i`. -/
def RefsBelow (i : Nat) : Expr → Prop
  | .func _ _ args _ => ∀ a ∈ args, ∀ j, a.elemIndex? = some j → j < i
  | other => ∀ j, other.elemIndex? = some j → j < i

theorem RefsBelow.mono {i k : Nat} {e : Expr} (h : RefsBelow i e) (hik : i ≤ k) : RefsBelow k e := by
  cases e with
  | func t op args hh => exact fun a ha j hj => Nat.lt_of_lt_of_le (h a ha j hj) hik
  | _ => exact fun j hj => Nat.lt_of_lt_of_le (h j hj) hik

theorem expandArg_congr {i : Nat} {B B' : Array Expr} (hB : ∀ j < i, B[j]? = B'[j]?) {a : Expr}
    (ha : ∀ j, a.elemIndex? = some j → j < i) : expandArg B a = expandArg B' a := by
  unfold expandArg
  split
  · rename_i j hj
    rw [hB j (ha j hj)]
  · rfl

/-- An expansion reads the table at the indices the right-hand side refers to only. -/
theorem expandRhs_congr {i : Nat} {B B' : Array Expr} (hB : ∀ j < i, B[j]? = B'[j]?) {e : Expr}
    (he : RefsBelow i e) : expandRhs B e = expandRhs B' e := by
  cases e with
  | func t op args hh =>
    simp only [expandRhs]
    congr 1
    exact List.map_congr_left fun a ha => expandArg_congr hB (he a ha)
  | _ => exact expandArg_congr hB he

theorem foldl_expandStep_size (l : List Entry) (B : Array Expr) :
    (l.foldl expandStep B).size = B.size + l.length := by
  induction l generalizing B with
  | nil => rfl
  | cons e l ih =>
    simp only [List.foldl_cons, ih, expandStep, Array.size_push, List.length_cons]
    omega

/-- Later steps of the reconstruction never change earlier expansions. -/
theorem foldl_expandStep_getElem? (l : List Entry) (B : Array Expr) {j : Nat} (hj : j < B.size) :
    (l.foldl expandStep B)[j]? = B[j]? := by
  induction l generalizing B with
  | nil => rfl
  | cons e l ih =>
    simp only [List.foldl_cons]
    rw [ih _ (by simp [expandStep]; omega)]
    simp only [expandStep, Array.getElem?_push, Nat.ne_of_lt hj, if_false]

@[simp] theorem size_expansions (es : Array Entry) : (expansions es).size = es.size := by
  simp [expansions, ← Array.foldl_toList, foldl_expandStep_size]

/-- The expansion of entry `i` is the entry expanded against the expansions before it. -/
theorem expansions_getElem?_of_lt {es : Array Entry} {i : Nat} (hi : i < es.size) :
    (expansions es)[i]? =
      some (expandRhs ((es.toList.take i).foldl expandStep #[]) es[i].rhs) := by
  have hsplit : es.toList.take i ++ es[i] :: es.toList.drop (i + 1) = es.toList := by
    rw [← Array.getElem_toList, List.getElem_cons_drop, List.take_append_drop]
  have htake : ((es.toList.take i).foldl expandStep #[]).size = i := by
    simp [foldl_expandStep_size, Nat.min_eq_left (Nat.le_of_lt hi)]
  conv_lhs => rw [expansions, ← Array.foldl_toList, ← hsplit, List.foldl_append, List.foldl_cons]
  rw [foldl_expandStep_getElem? _ _ (by simp [expandStep, htake])]
  generalize (es.toList.take i).foldl expandStep #[] = B at htake ⊢
  subst htake
  simp [expandStep]

/-- On an entry that refers backward only, the expansion is a fixed point: the entry expanded
against the whole table. -/
theorem expansions_getElem?_eq {es : Array Entry} {i : Nat} (hi : i < es.size)
    (hback : RefsBelow i es[i].rhs) :
    (expansions es)[i]? = some (expandRhs (expansions es) es[i].rhs) := by
  have htake : ((es.toList.take i).foldl expandStep #[]).size = i := by
    simp [foldl_expandStep_size, Nat.min_eq_left (Nat.le_of_lt hi)]
  have hall : expansions es =
      (es.toList.drop i).foldl expandStep ((es.toList.take i).foldl expandStep #[]) := by
    rw [expansions, ← Array.foldl_toList, ← List.foldl_append, List.take_append_drop]
  rw [expansions_getElem?_of_lt hi]
  congr 1
  refine expandRhs_congr (fun j hj => ?_) hback
  rw [hall, foldl_expandStep_getElem? (es.toList.drop i) _ (by omega)]

theorem entry_of_getElem? {d : Decomposition} {i : Nat} {e : Entry} (h : d.entries[i]? = some e) :
    d.entry i = e := by
  simp [entry, h]

theorem entry_eq {d : Decomposition} {i : Nat} (hi : i < d.size) : d.entry i = d.entries[i] := by
  unfold entry
  rw [Array.getElem?_eq_getElem hi]
  rfl

/-- An argument of the entry at `i`: a literal, or `u_j` for an earlier entry `j`. -/
def ArgOk (i : Nat) (a : Expr) : Prop :=
  (∃ j, a.elemIndex? = some j ∧ j < i) ∨ (a.elemIndex? = none ∧ a.isNumber = true)

/-- The right-hand side of a function entry at `i`: the time, or an operator over arguments
that are literals or earlier entries. -/
def FunctionRhs (i : Nat) : Expr → Prop
  | .time => True
  | .func _ _ args _ => ∀ a ∈ args, ArgOk i a
  | _ => False

/-- The layout of a decomposition, as `check` verifies it: variables and then parameters in
the prefix, function entries over literals and earlier entries (or the time), hidden
dependencies into the function range other than the entry itself, and outputs that are
literals or function-range entries. Variable names are not elementary, so that the prefix
expands to itself. -/
structure WellFormed (d : Decomposition) : Prop where
  size_le : d.nPrefix + d.nOutputs ≤ d.size
  plain_names : ∀ v ∈ d.varNames, Variable.elementaryIndex? v = none
  var_entry : ∀ k (hk : k < d.varNames.length), (d.entry k).rhs = .var d.varNames[k]
  param_entry : ∀ k (hk : k < d.params.length),
    (d.entry (d.varNames.length + k)).rhs = .param d.params[k]
  function_entry : ∀ i, d.nPrefix ≤ i → i < d.functionsEnd → FunctionRhs i (d.entry i).rhs
  hidden_entry : ∀ i, d.nPrefix ≤ i → i < d.functionsEnd → ∀ h ∈ (d.entry i).hidden,
    d.nPrefix ≤ h ∧ h < d.functionsEnd ∧ h ≠ i
  output_entry : ∀ i, d.functionsEnd ≤ i → i < d.size → ArgOk d.functionsEnd (d.entry i).rhs

/-- The references of an operator entry are the elementary variables among its arguments. -/
theorem mem_refs_iff {e : Entry} {t : NodeTag} {op : Op} {args : List Expr} {hh : UInt64}
    (hrhs : e.rhs = .func t op args hh) {j : Nat} :
    j ∈ e.refs ↔ ∃ a ∈ args, a.elemIndex? = some j := by
  simp only [Entry.refs, hrhs]
  exact List.mem_filterMap

/-- An entry naming an elementary variable refers to it. -/
theorem mem_refs_of_elemIndex? {e : Entry} {j : Nat} (h : e.rhs.elemIndex? = some j) :
    j ∈ e.refs := by
  unfold Entry.refs
  cases hr : e.rhs with
  | func t op args hh =>
    rw [hr] at h
    cases h
  | _ =>
    rw [hr] at h
    simp [h]

theorem RefsBelow.lt_of_mem_refs {i j : Nat} {e : Entry} (h : RefsBelow i e.rhs)
    (hj : j ∈ e.refs) : j < i := by
  cases hr : e.rhs with
  | func t op args hh =>
    rw [hr] at h
    obtain ⟨a, ha, hja⟩ := (mem_refs_iff hr).1 hj
    exact h a ha j hja
  | _ =>
    rw [hr] at h
    simp only [Entry.refs, hr, Option.mem_toList] at hj
    exact h j hj

theorem ArgOk.refsBelow {i : Nat} {a : Expr} (h : ArgOk i a) :
    ∀ j, a.elemIndex? = some j → j < i := by
  rintro j hj
  rcases h with ⟨j', hj', hlt⟩ | ⟨hnone, -⟩
  · rw [hj] at hj'
    cases hj'
    exact hlt
  · rw [hj] at hnone
    cases hnone

theorem FunctionRhs.refsBelow {i : Nat} {e : Expr} (h : FunctionRhs i e) : RefsBelow i e := by
  cases e with
  | time => intro j hj; simp [Expr.elemIndex?] at hj
  | func t op args hh => exact fun a ha => (h a ha).refsBelow
  | _ => exact absurd h id

/-- The expression entry `i` stands for: its right-hand side expanded against the table. -/
def expansion (d : Decomposition) (i : Nat) : Expr :=
  expandRhs (expansions d.entries) (d.entry i).rhs

namespace WellFormed

variable {d : Decomposition}

theorem nPrefix_le_functionsEnd (hwf : d.WellFormed) : d.nPrefix ≤ d.functionsEnd := by
  have := hwf.size_le
  simp only [functionsEnd, size] at this ⊢
  omega

theorem functionsEnd_le_size (d : Decomposition) : d.functionsEnd ≤ d.size := by
  simp [functionsEnd, size]

theorem size_eq (hwf : d.WellFormed) : d.size = d.functionsEnd + d.nOutputs := by
  have := hwf.size_le
  simp only [functionsEnd, size] at this ⊢
  omega

/-- A prefix entry is a variable or a parameter, and names no elementary variable. -/
theorem prefix_rhs (hwf : d.WellFormed) {i : Nat} (hp : i < d.nPrefix) :
    (∃ v, (d.entry i).rhs = .var v ∧ Variable.elementaryIndex? v = none) ∨
      ∃ p, (d.entry i).rhs = .param p := by
  by_cases hv : i < d.varNames.length
  · exact Or.inl ⟨_, hwf.var_entry i hv, hwf.plain_names _ (List.getElem_mem hv)⟩
  · obtain ⟨k, rfl⟩ : ∃ k, i = d.varNames.length + k := ⟨i - d.varNames.length, by omega⟩
    exact Or.inr ⟨_, hwf.param_entry k (by simp only [nPrefix] at hp; omega)⟩

theorem prefix_elemIndex? (hwf : d.WellFormed) {i : Nat} (hp : i < d.nPrefix) :
    (d.entry i).rhs.elemIndex? = none := by
  rcases hwf.prefix_rhs hp with ⟨v, hv, hplain⟩ | ⟨p, hpar⟩
  · rw [hv]
    exact hplain
  · rw [hpar]
    rfl

/-- Every entry of a well-formed table refers backward. -/
theorem refsBelow (hwf : d.WellFormed) {i : Nat} (hi : i < d.size) :
    RefsBelow i (d.entry i).rhs := by
  by_cases hp : i < d.nPrefix
  · have hnone := hwf.prefix_elemIndex? hp
    rcases hwf.prefix_rhs hp with ⟨v, hv, -⟩ | ⟨p, hpar⟩
    · rw [hv] at hnone ⊢
      intro j hj
      rw [hnone] at hj
      cases hj
    · rw [hpar]
      intro j hj
      cases hj
  · by_cases hf : i < d.functionsEnd
    · exact (hwf.function_entry i (by omega) hf).refsBelow
    · have hout := hwf.output_entry i (by omega) hi
      cases hrhs : (d.entry i).rhs with
      | func t op args hh =>
        rw [hrhs] at hout
        rcases hout with ⟨j, hj, -⟩ | ⟨-, hnum⟩
        · simp [Expr.elemIndex?] at hj
        · simp [Expr.isNumber] at hnum
      | _ =>
        rw [hrhs] at hout
        exact fun j hj => Nat.lt_of_lt_of_le (hout.refsBelow j hj) (by omega)

/-- In a well-formed table every expansion is its entry expanded against the whole table. -/
theorem expansion_eq (hwf : d.WellFormed) {i : Nat} (hi : i < d.size) :
    (expansions d.entries)[i]? = some (d.expansion i) := by
  rw [expansion, entry_eq hi]
  exact expansions_getElem?_eq hi (by rw [← entry_eq hi]; exact hwf.refsBelow hi)

/-- An output refers to function-range entries only. -/
theorem output_refs_lt (hwf : d.WellFormed) {m : Nat} (hm : m < d.nOutputs) :
    ∀ j ∈ (d.entry (d.functionsEnd + m)).refs, j < d.functionsEnd := by
  intro j hj
  have hout := hwf.output_entry (d.functionsEnd + m) (by omega) (by rw [hwf.size_eq]; omega)
  cases hrhs : (d.entry (d.functionsEnd + m)).rhs with
  | func t op args hh =>
    rw [hrhs] at hout
    rcases hout with ⟨j, hj, -⟩ | ⟨-, hnum⟩
    · simp [Expr.elemIndex?] at hj
    · simp [Expr.isNumber] at hnum
  | _ =>
    simp only [Entry.refs, hrhs, Option.mem_toList] at hj
    rw [hrhs] at hout
    exact hout.refsBelow j hj

/-- The reconstruction lists the expansions of the output entries. -/
theorem reconstruct_eq_map (hwf : d.WellFormed) :
    d.reconstruct = (List.range d.nOutputs).map fun m => d.expansion (d.functionsEnd + m) := by
  have hsize := hwf.size_eq
  rw [reconstruct_eq]
  apply List.ext_getElem?
  intro m
  rw [List.getElem?_drop, Array.getElem?_toList, List.getElem?_map]
  by_cases hm : m < d.nOutputs
  · rw [hwf.expansion_eq (by omega), List.getElem?_range hm]
    rfl
  · have hout : (expansions d.entries).size ≤ d.functionsEnd + m := by
      simp only [size_expansions]
      unfold size at hsize
      omega
    rw [Array.getElem?_eq_none hout, List.getElem?_eq_none (by simp; omega)]
    rfl

/-- `u_j` expands to the expansion of entry `j`. -/
theorem expandArg_elem (hwf : d.WellFormed) {j : Nat} (hj : j < d.size)
    (hw : j ≤ Variable.wordMax) :
    expandArg (expansions d.entries) (Expr.elem j) = d.expansion j := by
  simp [expandArg, Expr.elemIndex?_elem hw, hwf.expansion_eq hj]

/-- A prefix entry expands to itself. -/
theorem expansion_prefix (hwf : d.WellFormed) {i : Nat} (hp : i < d.nPrefix) :
    d.expansion i = (d.entry i).rhs := by
  have hnone := hwf.prefix_elemIndex? hp
  unfold expansion
  rcases hwf.prefix_rhs hp with ⟨v, hv, -⟩ | ⟨p, hpar⟩
  · rw [hv] at hnone ⊢
    simp [expandRhs, expandArg, hnone]
  · rw [hpar]
    rfl

end WellFormed

/-! ## Hidden dependencies

The recurrence of an operator reads, beside its arguments, the coefficients of the entries
the builder lays out for it. `HiddenShape` states that every function entry lists exactly
those entries, each equal (as the library compares expressions) to what the recurrence
assumes.
-/

/-- The entry at `h` is, structurally, the operator applied to the arguments. -/
def RhsIs (d : Decomposition) (h : Nat) (op : Op) (args : List Expr) : Prop :=
  (d.entry h).rhs.beq (Expr.node .anon op args) = true

/-- The hidden dependencies the recurrence of `op(args)` at entry `i` reads: the partner
function of the same arguments for `sin`, `cos`, `sinh` and `cosh`; the square of the entry
for `tan` and `tanh`; `√(-(b²) + 1)` for `asin` and `acos`; `b²` for `atan`; `y² + x²` for
`atan2 y x`; `sin E` and `cos E` of the entry for `kepE`; none otherwise. -/
def HiddenOk (d : Decomposition) (i : Nat) (args : List Expr) : Op → List Nat → Prop
  | .sin, hs => ∃ h, hs = [h] ∧ d.RhsIs h .cos args
  | .cos, hs => ∃ h, hs = [h] ∧ d.RhsIs h .sin args
  | .sinh, hs => ∃ h, hs = [h] ∧ d.RhsIs h .cosh args
  | .cosh, hs => ∃ h, hs = [h] ∧ d.RhsIs h .sinh args
  | .tan, hs | .tanh, hs => ∃ h, hs = [h] ∧ d.RhsIs h .square [Expr.elem i]
  | .asin, hs | .acos, hs => ∃ root s g q, hs = [root] ∧ d.RhsIs root .sqrt [Expr.elem s] ∧
      d.RhsIs s .sum [Expr.elem g, Expr.one] ∧ d.RhsIs g .neg [Expr.elem q] ∧
      d.RhsIs q .square [args.getD 0 Expr.zero]
  | .atan, hs => ∃ h, hs = [h] ∧ d.RhsIs h .square [args.getD 0 Expr.zero]
  | .atan2, hs => ∃ h a b, hs = [h] ∧ d.RhsIs h .sum [Expr.elem a, Expr.elem b] ∧
      d.RhsIs a .square [args.getD 0 Expr.zero] ∧ d.RhsIs b .square [args.getD 1 Expr.zero]
  | .kepE, hs => ∃ s c, hs = [s, c] ∧ d.RhsIs s .sin [Expr.elem i] ∧ d.RhsIs c .cos [Expr.elem i]
  | _, hs => hs = []

/-- The hidden dependencies of entry `i` have the shape its recurrence assumes; an entry that
is not an operator node has none. -/
def HiddenShapeAt (d : Decomposition) (i : Nat) : Prop :=
  match (d.entry i).rhs with
  | .func _ op args _ => d.HiddenOk i args op (d.entry i).hidden
  | _ => (d.entry i).hidden = []

/-- Every function entry has the hidden dependencies its recurrence assumes. -/
def HiddenShape (d : Decomposition) : Prop :=
  ∀ i, d.nPrefix ≤ i → i < d.functionsEnd → d.HiddenShapeAt i

theorem RhsIs.op_eq {d : Decomposition} {h : Nat} {op op' : Op} {args args' : List Expr}
    {t : NodeTag} {hh : UInt64} (hrhs : (d.entry h).rhs = .func t op args' hh)
    (his : d.RhsIs h op' args) : op = op' := by
  unfold RhsIs at his
  rw [hrhs] at his
  exact (Expr.func_beq_func.1 his).2.1

/-- Only operator entries match an operator node, so never a prefix entry. -/
theorem WellFormed.nPrefix_le_of_rhsIs {d : Decomposition} (hwf : d.WellFormed) {h : Nat}
    {op : Op} {args : List Expr} (his : d.RhsIs h op args) : d.nPrefix ≤ h := by
  by_contra hp
  unfold RhsIs at his
  rcases hwf.prefix_rhs (Nat.lt_of_not_le hp) with ⟨v, hv, -⟩ | ⟨p, hpar⟩
  · rw [hv] at his
    simp [Expr.node, Expr.beq] at his
  · rw [hpar] at his
    simp [Expr.node, Expr.beq] at his

/-- An entry matching an operator node is a node of that operator over structurally equal
arguments. -/
theorem RhsIs.exists_func {d : Decomposition} {h : Nat} {op : Op} {xs : List Expr}
    (his : d.RhsIs h op xs) :
    ∃ t args hh, (d.entry h).rhs = .func t op args hh ∧ Expr.ArgsEq args xs := by
  unfold RhsIs at his
  cases hrhs : (d.entry h).rhs with
  | func t o args hh =>
    rw [hrhs] at his
    obtain ⟨-, rfl, hargs⟩ := Expr.func_beq_func.1 his
    exact ⟨t, args, hh, rfl, hargs⟩
  | _ =>
    rw [hrhs] at his
    simp [Expr.node, Expr.beq] at his

/-- The number of hidden dependencies an operator's recurrence reads, as listed. -/
theorem HiddenOk.length {d : Decomposition} {i : Nat} {args : List Expr} {op : Op}
    {hs : List Nat} (h : d.HiddenOk i args op hs) : hs.length = op.hiddenCount := by
  cases op <;> simp only [HiddenOk] at h
  case sin | cos | sinh | cosh | tan | tanh | atan =>
    obtain ⟨_, rfl, _⟩ := h
    rfl
  case asin | acos =>
    obtain ⟨_, _, _, _, rfl, _⟩ := h
    rfl
  case atan2 =>
    obtain ⟨_, _, _, rfl, _⟩ := h
    rfl
  case kepE =>
    obtain ⟨_, _, rfl, _⟩ := h
    rfl
  all_goals
    subst h
    rfl

/-- A hidden dependency names an entry of another operator, never the entry itself. -/
theorem HiddenOk.ne_self {d : Decomposition} {i : Nat} {t : NodeTag} {op : Op}
    {args : List Expr} {hh : UInt64} (hrhs : (d.entry i).rhs = .func t op args hh)
    (hok : d.HiddenOk i args op (d.entry i).hidden) : ∀ h ∈ (d.entry i).hidden, h ≠ i := by
  intro h hmem heq
  subst heq
  cases op <;> simp only [HiddenOk] at hok
  case sin | cos | sinh | cosh | tan | tanh | atan =>
    obtain ⟨h', hs, his⟩ := hok
    rw [hs, List.mem_singleton] at hmem
    subst hmem
    exact absurd (RhsIs.op_eq hrhs his) (by decide)
  case asin | acos =>
    obtain ⟨root, s, g, q, hs, his, -⟩ := hok
    rw [hs, List.mem_singleton] at hmem
    subst hmem
    exact absurd (RhsIs.op_eq hrhs his) (by decide)
  case atan2 =>
    obtain ⟨h', a, b, hs, his, -⟩ := hok
    rw [hs, List.mem_singleton] at hmem
    subst hmem
    exact absurd (RhsIs.op_eq hrhs his) (by decide)
  case kepE =>
    obtain ⟨s, c, hs, hsin, hcos⟩ := hok
    rw [hs] at hmem
    rcases List.mem_pair.1 hmem with rfl | rfl
    · exact absurd (RhsIs.op_eq hrhs hsin) (by decide)
    · exact absurd (RhsIs.op_eq hrhs hcos) (by decide)
  all_goals
    rw [hok] at hmem
    cases hmem

theorem HiddenShapeAt.ne_self {d : Decomposition} {i : Nat} (h : d.HiddenShapeAt i) :
    ∀ x ∈ (d.entry i).hidden, x ≠ i := by
  unfold HiddenShapeAt at h
  cases hrhs : (d.entry i).rhs with
  | func t op args hh =>
    rw [hrhs] at h
    exact HiddenOk.ne_self hrhs h
  | _ =>
    rw [hrhs] at h
    simp [h]

@[simp] theorem except_pure_eq_ok {ε α : Type} (x : α) : (pure x : Except ε α) = .ok x := rfl

/-- A loop in `Except` whose every step continues succeeds. -/
theorem forIn_except_ok {ε α : Type} (l : List α) (f : α → PUnit → Except ε (ForInStep PUnit))
    (h : ∀ x ∈ l, f x ⟨⟩ = .ok (.yield ⟨⟩)) : forIn l ⟨⟩ f = .ok ⟨⟩ := by
  induction l with
  | nil => rfl
  | cons x xs ih =>
    rw [List.forIn_cons, h x (by simp)]
    exact ih (fun y hy => h y (by simp [hy]))

theorem mem_functions {d : Decomposition} {i : Nat} :
    i ∈ d.functions ↔ d.nPrefix ≤ i ∧ i < d.functionsEnd := by
  simp only [functions, List.mem_map, List.mem_range]
  constructor
  · rintro ⟨k, hk, rfl⟩
    omega
  · rintro ⟨h₁, h₂⟩
    exact ⟨i - d.nPrefix, by omega, by omega⟩

/-- An output entry, as the `k`-th element of `outputs`. -/
theorem outputs_getElem? {d : Decomposition} {k : Nat} :
    d.outputs[k]? = d.entries[d.functionsEnd + k]? := by
  simp [outputs]

/-- `check` accepts a well-formed table whose reconstruction is structurally equal to the
expressions it is checked against. -/
theorem check_ok {d : Decomposition} {os : List Expr} (hwf : d.WellFormed)
    (heq : Expr.ArgsEq d.reconstruct os) : d.check os = .ok () := by
  have hsize : ¬ d.size < d.nPrefix + d.nOutputs := by have := hwf.size_le; omega
  have hlen : (d.reconstruct.length != os.length) = false := by simp [heq.length_eq]
  unfold check
  simp only [hsize, if_false]
  rw [forIn_except_ok (List.range _) _ ?pre, forIn_except_ok d.functions _ ?fn,
    forIn_except_ok d.outputs.zipIdx _ ?out]
  · simp only [hlen, Bool.false_eq_true, if_false]
    rw [forIn_except_ok ((d.reconstruct.zip os).zipIdx) _ ?hash]
    · rfl
    -- every output expands to an expression of the same hash
    rintro ⟨⟨r, o⟩, k⟩ hx
    obtain ⟨hk, hrk⟩ := List.mem_zipIdx' hx
    have hpair : r.beq o = true := List.forall₂_zip heq (hrk ▸ List.getElem_mem hk)
    simp [Expr.hash_eq_of_beq _ _ hpair]
  case pre =>
    -- the prefix holds the variables and then the parameters
    intro k hk
    have hk' : k < d.nPrefix := List.mem_range.1 hk
    by_cases hv : k < d.varNames.length
    · simp [hv, hwf.var_entry k hv, Expr.beq, List.getD_eq_getElem?_getD]
    · obtain ⟨m, rfl⟩ : ∃ m, k = d.varNames.length + m := ⟨k - d.varNames.length, by omega⟩
      have hm : m < d.params.length := by simp only [nPrefix] at hk'; omega
      simp [hv, hwf.param_entry m hm, Expr.beq, List.getD_eq_getElem?_getD, hm]
  case fn =>
    -- function entries: the time or an operator over earlier entries, hidden into the range
    intro i hi
    obtain ⟨hi₁, hi₂⟩ := mem_functions.1 hi
    have hfind : (d.entry i).hidden.find?
        (fun h => !(decide (d.nPrefix ≤ h) && decide (h < d.functionsEnd)) || h == i) = none := by
      rw [List.find?_eq_none]
      intro h hh
      obtain ⟨h₁, h₂, h₃⟩ := hwf.hidden_entry i hi₁ hi₂ h hh
      simp [h₁, h₂, h₃]
    have hrhs := hwf.function_entry i hi₁ hi₂
    cases hr : (d.entry i).rhs with
    | time =>
      rw [hfind]
      rfl
    | func t op args hh =>
      rw [hr] at hrhs
      dsimp only
      rw [forIn_except_ok args _ ?args]
      · rw [hfind]
        rfl
      intro a ha
      rcases hrhs a ha with ⟨j, hj, hlt⟩ | ⟨hnone, hnum⟩
      · simp [hj, hlt]
      · simp [hnone, hnum]
    | _ =>
      rw [hr] at hrhs
      exact hrhs.elim
  case out =>
    -- outputs are literals or entries of the function range
    rintro ⟨e, k⟩ hx
    obtain ⟨hk, hek⟩ := List.mem_zipIdx' hx
    have hget : d.entries[d.functionsEnd + k]? = some e := by
      rw [← outputs_getElem?, hek]
      simp
    have hlt : d.functionsEnd + k < d.size := by
      rcases Nat.lt_or_ge (d.functionsEnd + k) d.size with h | h
      · exact h
      · simp [Array.getElem?_eq_none (show d.entries.size ≤ _ from h)] at hget
    have hentry : d.entry (d.functionsEnd + k) = e := by
      simp [entry, hget]
    have hok := hwf.output_entry _ (by omega) hlt
    rw [hentry] at hok
    rcases hok with ⟨j, hj, hj'⟩ | ⟨hnone, hnum⟩
    · simp [hj, hj']
    · simp [hnone, hnum]

end Decomposition

end TaylorOde
