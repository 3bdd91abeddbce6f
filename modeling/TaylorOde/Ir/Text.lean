import TaylorOde.Ir.Basic
/-!
# Text of IR modules

`IrModule.dump` lists a module for a scalar format: a header line, then one line per block
and per instruction. Literals are written in scientific notation after the format's type name
(`double 5e-1`, `float 5e-1`), and binary32 calls use the routine names with an `f` suffix
(`sinf`). `Instr.describe` writes one instruction the way validation errors report it.
-/

namespace TaylorOde

namespace FloatKind

/-- The type name of the format in IR listings. -/
def irTypeName : FloatKind → String
  | .binary32 => "float"
  | _ => "double"

/-- A literal as it appears in an IR listing: the type name and the value, rounded to the
format, in scientific notation. -/
def irLiteral (k : FloatKind) (v : Float) : String :=
  match k with
  | .binary32 => "float " ++ Float32.scientificText v.toFloat32
  | _ => "double " ++ Float.scientificText v

/-- The name of the mathematics routine for the format. -/
def intrinsic (k : FloatKind) (name : String) : String :=
  match k with
  | .binary32 => name ++ "f"
  | _ => name

end FloatKind

namespace Slot

/-- The slot as validation errors report it: `Fixed(3)`, `Row(0)`. -/
def describe : Slot → String
  | .fixed i => s!"Fixed({i})"
  | .row k => s!"Row({k})"

/-- The slot in a listing: `tape[3]`, `tape[row.0]`. -/
def listing : Slot → String
  | .fixed i => s!"tape[{i}]"
  | .row k => s!"tape[row.{k}]"

end Slot

namespace Instr

/-- The instruction as validation errors report it, e.g. `Unary(Sin, 5)` or
`LoadCoeff \x7b slot: Fixed(0), order: 0 \x7d`. -/
def describe : Instr → String
  | .loadConst v => s!"LoadConst({Float.generalText v})"
  | .loadCoeff s o => "LoadCoeff \x7b slot: " ++ s.describe ++ s!", order: {o} \x7d"
  | .loadRowLiteral k => s!"LoadRowLiteral({k})"
  | .loadParam p => s!"LoadParam({p})"
  | .loadTime => "LoadTime"
  | .unary f a => s!"Unary({f.tag}, {a})"
  | .binary f a b => s!"Binary({f.tag}, {a}, {b})"
  | .storeCoeff s o v => "StoreCoeff \x7b slot: " ++ s.describe ++ s!", order: {o}, value: {v} \x7d"

/-- The listing line of the instruction at position `i`, for a scalar format. -/
def listing (k : FloatKind) (i : Nat) : Instr → String
  | .loadConst v => s!"  %{i} = " ++ k.irLiteral v
  | .loadCoeff s o => s!"  %{i} = load " ++ s.listing ++ s!"[{o}]"
  | .loadRowLiteral r => s!"  %{i} = row.lit{r}"
  | .loadParam p => s!"  %{i} = load pars[{p}]"
  | .loadTime => s!"  %{i} = load time"
  | .unary f a =>
    if f.isCall then s!"  %{i} = call " ++ k.intrinsic f.name ++ s!"(%{a})"
    else s!"  %{i} = {f.name} %{a}"
  | .binary f a b =>
    if f.isCall then s!"  %{i} = call " ++ k.intrinsic f.name ++ s!"(%{a}, %{b})"
    else s!"  %{i} = {f.name} %{a}, %{b}"
  | .storeCoeff s o v => s!"  store %{v} -> " ++ s.listing ++ s!"[{o}]"

end Instr

namespace IrModule

/-- The listing of a module for a scalar format. -/
def dump (k : FloatKind) (m : IrModule) : String :=
  let header := s!"; taylor function: fp {k.name}, width 1, order {m.order}, {m.nEntries} entries, " ++
    (if m.compact then "compact" else "scalar") ++ " mode\n"
  m.blocks.zipIdx.foldl (fun out (b, bi) =>
    let head := match b with
      | .straight _ => s!"block{bi}:\n"
      | .loop _ rows => s!"block{bi}: loop over {rows.length} rows\n"
    b.code.zipIdx.foldl (fun out (ins, i) => out ++ ins.listing k i ++ "\n") (out ++ head))
    header

end IrModule

end TaylorOde
