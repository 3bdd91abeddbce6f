import TaylorOde.Expr.Basic
/-!
# Infix text of expressions

Sums, products, quotients and powers are written infix inside parentheses (`(x + y)`,
`(x * y)`, `(x / y)`, `(x**y)`), a negation as `-x`, a square as `x**2`, and every other
operator as `name(a, b)`. Literals are written in plain decimal (`0.1`, `1`, `inf`), inside
parentheses when negative; parameters as `p[i]` and the time as `t`.
-/

namespace TaylorOde

namespace Expr

/-- The infix text of an expression. -/
def display : Expr → String
  | .num n =>
    let s := Float.plainText n.value
    if n.value < 0.0 then "(" ++ s ++ ")" else s
  | .param i => s!"p[{i}]"
  | .var v => v
  | .time => "t"
  | .func _ .sum args _ => "(" ++ joinArgs " + " args ++ ")"
  | .func _ .mul args _ => "(" ++ joinArgs " * " args ++ ")"
  | .func _ .div args _ => "(" ++ joinArgs " / " args ++ ")"
  | .func _ .pow args _ => "(" ++ joinArgs "**" args ++ ")"
  | .func _ .neg (a :: _) _ => "-" ++ display a
  | .func _ .square (a :: _) _ => display a ++ "**2"
  | .func _ op args _ => op.name ++ "(" ++ joinArgs ", " args ++ ")"
where
  /-- The texts of the arguments joined by a separator. -/
  joinArgs (sep : String) : List Expr → String
    | [] => ""
    | [a] => display a
    | a :: rest => display a ++ sep ++ joinArgs sep rest

instance : ToString Expr := ⟨display⟩

end Expr

end TaylorOde
