import TaylorOde.Decomposition.Basic
import Mathlib.Data.List.Forall2
/-!
# Structural equality of expressions

`Expr.beq` is the equality the library compares expressions with: literals by bits, atoms by
index or name, function nodes by cached hash, operator and arguments, never by identity. This
module shows that it is an equivalence and that equal expressions hash alike, so `NodeKey` is
a lawful key of hash maps, and that building a node respects it.

It also shows that an elementary name `u_i` reads back its index `i` whenever `i` fits a
64-bit word, which is what lets a decomposition refer to its entries by name.
-/

namespace TaylorOde

theorem Op.beq_iff_eq (a b : Op) : (a == b) = true ↔ a = b := by
  cases a <;> cases b <;> decide

instance : LawfulBEq Op where
  eq_of_beq h := (Op.beq_iff_eq _ _).1 h
  rfl := (Op.beq_iff_eq _ _).2 rfl

namespace Expr

/-- Pairwise structural equality of argument lists. -/
abbrev ArgsEq (xs ys : List Expr) : Prop := List.Forall₂ (fun a b => a.beq b = true) xs ys

theorem beqArgs_iff : (xs ys : List Expr) → beq.beqArgs xs ys = true ↔ ArgsEq xs ys
  | [], [] => by simp [beq.beqArgs]
  | [], _ :: _ => by simp [beq.beqArgs]
  | _ :: _, [] => by simp [beq.beqArgs]
  | a :: as, b :: bs => by simp [beq.beqArgs, beqArgs_iff as bs]

@[simp] theorem beq_eq (a b : Expr) : (a == b) = a.beq b := rfl

theorem func_beq_func {t t' : NodeTag} {o o' : Op} {xs ys : List Expr} {h h' : UInt64} :
    (Expr.func t o xs h).beq (.func t' o' ys h') = true ↔ h = h' ∧ o = o' ∧ ArgsEq xs ys := by
  simp only [beq, Bool.and_eq_true, beq_iff_eq, beqArgs_iff]
  constructor
  · rintro ⟨⟨⟨hh, ho⟩, -⟩, hargs⟩
    exact ⟨hh, ho, hargs⟩
  · rintro ⟨hh, ho, hargs⟩
    exact ⟨⟨⟨hh, ho⟩, hargs.length_eq⟩, hargs⟩

theorem beq_self : (e : Expr) → e.beq e = true
  | .num _ => by simp [beq, Literal.same]
  | .param _ => by simp [beq]
  | .var _ => by simp [beq]
  | .time => rfl
  | .func _ _ args _ => func_beq_func.2 ⟨rfl, rfl, argsEq_self args⟩
where
  argsEq_self : (l : List Expr) → ArgsEq l l
    | [] => .nil
    | a :: as => .cons (beq_self a) (argsEq_self as)

theorem beq_symm : (a b : Expr) → a.beq b = true → b.beq a = true
  | .num _, .num _, h => by simp_all [beq, Literal.same]
  | .param _, .param _, h => by simp_all [beq]
  | .var _, .var _, h => by simp_all [beq]
  | .time, .time, _ => rfl
  | .func _ _ xs _, .func _ _ ys _, h => by
    obtain ⟨hh, ho, hargs⟩ := func_beq_func.1 h
    exact func_beq_func.2 ⟨hh.symm, ho.symm, argsEq_symm xs ys hargs⟩
  | .num _, .param _, h | .num _, .var _, h | .num _, .time, h | .num _, .func .., h
  | .param _, .num _, h | .param _, .var _, h | .param _, .time, h | .param _, .func .., h
  | .var _, .num _, h | .var _, .param _, h | .var _, .time, h | .var _, .func .., h
  | .time, .num _, h | .time, .param _, h | .time, .var _, h | .time, .func .., h
  | .func .., .num _, h | .func .., .param _, h | .func .., .var _, h | .func .., .time, h =>
    by simp [beq] at h
where
  argsEq_symm : (xs ys : List Expr) → ArgsEq xs ys → ArgsEq ys xs
    | [], [], _ => .nil
    | a :: as, b :: bs, .cons hab hs => .cons (beq_symm a b hab) (argsEq_symm as bs hs)

theorem beq_trans : (a b c : Expr) → a.beq b = true → b.beq c = true → a.beq c = true
  | .num _, .num _, .num _, h₁, h₂ => by simp_all [beq, Literal.same]
  | .param _, .param _, .param _, h₁, h₂ => by simp_all [beq]
  | .var _, .var _, .var _, h₁, h₂ => by simp_all [beq]
  | .time, .time, .time, _, _ => rfl
  | .func _ _ xs _, .func _ _ ys _, .func _ _ zs _, h₁, h₂ => by
    obtain ⟨hh₁, ho₁, hargs₁⟩ := func_beq_func.1 h₁
    obtain ⟨hh₂, ho₂, hargs₂⟩ := func_beq_func.1 h₂
    exact func_beq_func.2 ⟨hh₁.trans hh₂, ho₁.trans ho₂, argsEq_trans xs ys zs hargs₁ hargs₂⟩
  | .num _, .param _, _, h, _ | .num _, .var _, _, h, _ | .num _, .time, _, h, _
  | .num _, .func .., _, h, _ | .param _, .num _, _, h, _ | .param _, .var _, _, h, _
  | .param _, .time, _, h, _ | .param _, .func .., _, h, _ | .var _, .num _, _, h, _
  | .var _, .param _, _, h, _ | .var _, .time, _, h, _ | .var _, .func .., _, h, _
  | .time, .num _, _, h, _ | .time, .param _, _, h, _ | .time, .var _, _, h, _
  | .time, .func .., _, h, _ | .func .., .num _, _, h, _ | .func .., .param _, _, h, _
  | .func .., .var _, _, h, _ | .func .., .time, _, h, _ => by simp [beq] at h
  | .num _, .num _, .param _, _, h | .num _, .num _, .var _, _, h
  | .num _, .num _, .time, _, h | .num _, .num _, .func .., _, h
  | .param _, .param _, .num _, _, h | .param _, .param _, .var _, _, h
  | .param _, .param _, .time, _, h | .param _, .param _, .func .., _, h
  | .var _, .var _, .num _, _, h | .var _, .var _, .param _, _, h
  | .var _, .var _, .time, _, h | .var _, .var _, .func .., _, h
  | .time, .time, .num _, _, h | .time, .time, .param _, _, h
  | .time, .time, .var _, _, h | .time, .time, .func .., _, h
  | .func .., .func .., .num _, _, h | .func .., .func .., .param _, _, h
  | .func .., .func .., .var _, _, h | .func .., .func .., .time, _, h => by simp [beq] at h
where
  argsEq_trans : (xs ys zs : List Expr) → ArgsEq xs ys → ArgsEq ys zs → ArgsEq xs zs
    | [], [], [], _, _ => .nil
    | a :: as, b :: bs, c :: cs, .cons hab hs, .cons hbc ht =>
      .cons (beq_trans a b c hab hbc) (argsEq_trans as bs cs hs ht)

/-- Structurally equal expressions have the same structural hash. -/
theorem hash_eq_of_beq : (a b : Expr) → a.beq b = true → a.hash = b.hash
  | .num _, .num _, h => by simp_all [beq, Literal.same, hash]
  | .param _, .param _, h => by simp_all [beq]
  | .var _, .var _, h => by simp_all [beq]
  | .time, .time, _ => rfl
  | .func .., .func .., h => (func_beq_func.1 h).1
  | .num _, .param _, h | .num _, .var _, h | .num _, .time, h | .num _, .func .., h
  | .param _, .num _, h | .param _, .var _, h | .param _, .time, h | .param _, .func .., h
  | .var _, .num _, h | .var _, .param _, h | .var _, .time, h | .var _, .func .., h
  | .time, .num _, h | .time, .param _, h | .time, .var _, h | .time, .func .., h
  | .func .., .num _, h | .func .., .param _, h | .func .., .var _, h | .func .., .time, h =>
    by simp [beq] at h

theorem ArgsEq.refl (xs : List Expr) : ArgsEq xs xs := beq_self.argsEq_self xs

theorem ArgsEq.symm {xs ys : List Expr} (h : ArgsEq xs ys) : ArgsEq ys xs :=
  beq_symm.argsEq_symm xs ys h

theorem ArgsEq.trans {xs ys zs : List Expr} (h₁ : ArgsEq xs ys) (h₂ : ArgsEq ys zs) :
    ArgsEq xs zs :=
  beq_trans.argsEq_trans xs ys zs h₁ h₂

/-- Every argument on the right has a structurally equal one on the left. -/
theorem ArgsEq.exists_of_mem_right {xs ys : List Expr} (h : ArgsEq xs ys) {b : Expr}
    (hb : b ∈ ys) : ∃ a ∈ xs, a.beq b = true := by
  induction h with
  | nil => cases hb
  | @cons a b' xs ys hab _ ih =>
    rcases List.mem_cons.1 hb with rfl | hb
    · exact ⟨a, List.mem_cons_self, hab⟩
    · obtain ⟨a', ha', hab'⟩ := ih hb
      exact ⟨a', List.mem_cons_of_mem _ ha', hab'⟩

theorem ArgsEq.foldl_hash {xs ys : List Expr} (h : ArgsEq xs ys) (f : ByteArray → UInt64 → ByteArray)
    (acc : ByteArray) : xs.foldl (fun b a => f b a.hash) acc = ys.foldl (fun b a => f b a.hash) acc := by
  induction h generalizing acc with
  | nil => rfl
  | cons hab _ ih => simp only [List.foldl_cons, hash_eq_of_beq _ _ hab, ih]

/-- The hash of a node depends on its arguments through their hashes only. -/
theorem nodeHash_congr (op : Op) {xs ys : List Expr} (h : ArgsEq xs ys) :
    nodeHash op xs = nodeHash op ys := by
  simp only [nodeHash, h.length_eq]
  rw [h.foldl_hash (fun b x => Sip.appendLE b x 8)]

/-- Building a node respects structural equality of the arguments, whatever the tags. -/
theorem node_beq_node (t t' : NodeTag) (op : Op) {xs ys : List Expr} (h : ArgsEq xs ys) :
    (node t op xs).beq (node t' op ys) = true :=
  func_beq_func.2 ⟨nodeHash_congr op h, rfl, h⟩

/-- A function node is equal to a node built from its operator and equal arguments exactly
when its cached hash is the hash of its arguments. -/
theorem func_beq_node {t t' : NodeTag} {op : Op} {xs ys : List Expr} {h : UInt64}
    (hh : h = nodeHash op xs) (hargs : ArgsEq xs ys) :
    (Expr.func t op xs h).beq (node t' op ys) = true :=
  func_beq_func.2 ⟨hh.trans (nodeHash_congr op hargs), rfl, hargs⟩

end Expr

namespace NodeKey

@[simp] theorem tagged_beq_tagged (p q : List Nat) : (tagged p == tagged q) = (p == q) := rfl
@[simp] theorem shape_beq_shape (a b : Expr) : (shape a == shape b) = a.beq b := rfl
@[simp] theorem tagged_beq_shape (p : List Nat) (b : Expr) : (tagged p == shape b) = false := rfl
@[simp] theorem shape_beq_tagged (a : Expr) (q : List Nat) : (shape a == tagged q) = false := rfl

instance : EquivBEq NodeKey where
  rfl {a} := by
    cases a with
    | tagged p => simp
    | shape e => simpa using Expr.beq_self e
  symm {a b} h := by
    cases a <;> cases b <;> simp at h ⊢
    · exact h.symm
    · exact Expr.beq_symm _ _ h
  trans {a b c} h₁ h₂ := by
    cases a <;> cases b <;> cases c <;> simp at h₁ h₂ ⊢
    · exact h₁.trans h₂
    · exact Expr.beq_trans _ _ _ h₁ h₂

instance : LawfulHashable NodeKey where
  hash_eq a b h := by
    cases a <;> cases b <;> simp at h
    · rw [h]
    · exact Expr.hash_eq_of_beq _ _ h

end NodeKey

namespace Variable

theorem digitsValue_toDigits (i : Nat) : digitsValue (Nat.toDigits 10 i) = i :=
  Nat.ofDigitChars_ten_toDigits

/-- The characters of an elementary name: `u_` and the decimal digits of the index. -/
theorem toList_elementary (i : Nat) : (elementary i).toList = 'u' :: '_' :: Nat.toDigits 10 i := by
  simp [elementary, Nat.toList_repr]
  rfl

/-- Distinct indices have distinct elementary names. -/
theorem elementary_inj {i j : Nat} (h : elementary i = elementary j) : i = j := by
  have hdigits := congrArg String.toList h
  rw [toList_elementary, toList_elementary, List.cons.injEq, List.cons.injEq] at hdigits
  rw [← digitsValue_toDigits i, hdigits.2.2, digitsValue_toDigits]

/-- The elementary name of an index reads back that index when it fits a 64-bit word, and
is no elementary name otherwise. -/
theorem elementaryIndex?_elementary_eq (i : Nat) :
    elementaryIndex? (elementary i) = if i ≤ wordMax then some i else none := by
  have hchars := toList_elementary i
  have hdigits : (Nat.toDigits 10 i).all Char.isDigit = true := by
    rw [List.all_eq_true]
    intro c hc
    exact Nat.isDigit_of_mem_toDigits (by decide) (by decide) hc
  simp [elementaryIndex?, hchars, Nat.toDigits_ne_nil, hdigits, digitsValue_toDigits]

theorem elementaryIndex?_elementary {i : Nat} (hi : i ≤ wordMax) :
    elementaryIndex? (elementary i) = some i := by
  simp [elementaryIndex?_elementary_eq, hi]

end Variable

namespace Expr

theorem elemIndex?_elem {i : Nat} (hi : i ≤ Variable.wordMax) : (elem i).elemIndex? = some i :=
  Variable.elementaryIndex?_elementary hi

/-- An elementary variable names no index but its own. -/
theorem eq_of_elemIndex?_elem {i j : Nat} (h : (elem i).elemIndex? = some j) :
    j = i ∧ i ≤ Variable.wordMax := by
  simp only [elem, elemIndex?, Variable.elementaryIndex?_elementary_eq] at h
  split at h <;> simp_all

/-- Structurally equal expressions name the same elementary variable, if any. -/
theorem elemIndex?_eq_of_beq {a b : Expr} (h : a.beq b = true) : a.elemIndex? = b.elemIndex? := by
  cases a <;> cases b <;> simp_all [beq, elemIndex?]

/-- Structurally equal expressions are literals together. -/
theorem isNumber_eq_of_beq {a b : Expr} (h : a.beq b = true) : a.isNumber = b.isNumber := by
  cases a <;> cases b <;> simp_all [beq, isNumber]

end Expr

end TaylorOde
