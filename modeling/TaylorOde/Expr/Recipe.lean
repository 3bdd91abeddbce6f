import TaylorOde.Expr.Canonical
/-!
# Recipes: building expressions step by step

A recipe describes how an expression is built: literals, atoms, canonical or raw operator
applications, a unary constructor applied many times, and references to expressions built
earlier under a name. Building a recipe gives every construction step a fresh tag, so two
steps never build the same node, while every reference to a name yields the very node
built under that name.

A recipe can also hold a part that could not be read (`malformed`); building stops there,
after everything to its left has been built.
-/

namespace TaylorOde

/-- How an expression is built. -/
inductive Recipe where
  /-- a binary64 literal -/
  | number (value : Float)
  /-- a literal of a format -/
  | literal (value : Float) (kind : FloatKind)
  | var (name : String)
  | param (index : UInt32)
  | time
  /-- the canonical constructor of an operator -/
  | apply (op : Op) (args : List Recipe)
  /-- the canonical sum of two terms -/
  | add (a b : Recipe)
  /-- the canonical difference of two terms -/
  | sub (a b : Recipe)
  /-- the node of an operator with no rule applied -/
  | raw (op : Op) (args : List Recipe)
  /-- the expression built earlier under a name -/
  | ref (name : String)
  /-- the canonical constructor of an operator applied `depth` times -/
  | nest (op : Op) (depth : Nat) (leaf : Recipe)
  /-- a part that could not be read, with the reason -/
  | malformed (reason : String)
  deriving Inhabited

/-- Why building a recipe failed: the recipe itself is at fault (a malformed part, an
unknown name), or the library refused a step. -/
inductive RecipeError where
  | request (reason : String)
  | library (e : Error)

/-- The state of a sequence of builds: the expressions bound to names, most recent first,
and the next fresh tag. -/
structure Workshop where
  bindings : List (String × Expr) := []
  next : Nat := 0

namespace Workshop

/-- Builds in a workshop. -/
abbrev Build := StateT Workshop (Except RecipeError)

/-- A fresh tag. Recipe steps are numbered under `0`, apart from the tags that library
algorithms derive under other first steps. -/
def fresh : Build NodeTag := do
  let w ← get
  set { w with next := w.next + 1 }
  return .path [0, w.next]

/-- Lifts a library result. -/
def lift {α : Type} (r : Outcome α) : Build α :=
  match r with
  | .ok a => pure a
  | .error e => throw (.library e)

/-- The canonical constructor applied `n` times. -/
def nestBuild (op : Op) : Nat → Expr → Build Expr
  | 0, e => pure e
  | n + 1, e => do
    let t ← fresh
    let e ← lift (Expr.apply t op [e])
    nestBuild op n e

mutual

/-- Builds a recipe. -/
def build : Recipe → Build Expr
  | .number v => lift ((Literal.ofKind v .binary64).map .num)
  | .literal v k => lift ((Literal.ofKind v k).map .num)
  | .var name =>
    if name.isEmpty then throw (.library (.invalid "variable names cannot be empty"))
    else pure (.var name)
  | .param i => pure (.param i)
  | .time => pure .time
  | .apply op args => do
    let xs ← buildAll args
    let t ← fresh
    lift (Expr.apply t op xs)
  | .add a b => do
    let x ← build a
    let y ← build b
    let t ← fresh
    pure (Expr.add t x y)
  | .sub a b => do
    let x ← build a
    let y ← build b
    let t ← fresh
    pure (Expr.sub t x y)
  | .raw op args => do
    let xs ← buildAll args
    let t ← fresh
    lift (Expr.raw t op xs)
  | .ref name => do
    match (← get).bindings.lookup name with
    | some e => pure e
    | none => throw (.request s!"unknown binding '{name}'")
  | .nest op depth leaf => do
    let e ← build leaf
    nestBuild op depth e
  | .malformed reason => throw (.request reason)

/-- Builds recipes from left to right. -/
def buildAll : List Recipe → Build (List Expr)
  | [] => pure []
  | r :: rs => do
    let x ← build r
    let xs ← buildAll rs
    pure (x :: xs)

end

/-- Builds a recipe and binds the result to a name. -/
def bind (name : String) (r : Recipe) : Build Unit := do
  let e ← build r
  modify fun w => { w with bindings := (name, e) :: w.bindings }

end Workshop

end TaylorOde
