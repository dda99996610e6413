import NetBridge.Host.Netlist
import NetBridge.Json.Form

/-! # JSON forms of host netlists -/
namespace NetBridge

namespace PortDirection

def form : Form PortDirection := .choice ofText? text

end PortDirection

namespace Host

open Form (need record? variant?)

namespace Signal

def form : Form Signal where
  write s := .object [("name", .text s.name), ("shape", Form.shape.write s.shape)]
  read depth j := do
    let (depth, [name, shape]) ← record? ["name", "shape"] depth j | none
    return ⟨← need .text depth name, ← need .shape depth shape⟩

end Signal

namespace Expr

def toJson : Expr → Json
  | signal id => .object [("Signal", Form.key.write id)]
  | const value width =>
    .object [("Const", .object [("value", Form.word.write value), ("width", .nat width)])]
  | not operand => .object [("Not", toJson operand)]
  | replicate bit count =>
    .object [("Replicate", .object [("bit", Form.key.write bit), ("count", .nat count)])]

def ofJson : Nat → Json → Option Expr
  | 0, _ => none
  | depth + 1, j => do
    match ← variant? (depth + 1) j with
    | (_, "Signal", id) => return .signal (← Form.key.read depth id)
    | (_, "Const", v) =>
      let (depth, [value, width]) ← record? ["value", "width"] depth v | none
      return .const (← need .word depth value) (← need (.natBits 32) depth width)
    | (_, "Not", operand) => return .not (← ofJson depth operand)
    | (_, "Replicate", v) =>
      let (depth, [bit, count]) ← record? ["bit", "count"] depth v | none
      return .replicate (← need .key depth bit) (← need (.natBits 32) depth count)
    | _ => none

def form : Form Expr := ⟨toJson, ofJson⟩

end Expr

namespace Assign

def form : Form Assign where
  write a := .object [("target", Form.key.write a.target), ("value", a.value.toJson)]
  read depth j := do
    let (depth, [target, value]) ← record? ["target", "value"] depth j | none
    return ⟨← need .key depth target, ← need Expr.form depth value⟩

end Assign

namespace Instance

/-- The ports are written and kept by label. -/
def form : Form Instance where
  write inst := .object [("module", .text inst.moduleName),
    ("ports", Form.key.table.write inst.ports)]
  read depth j := do
    let (depth, [moduleName, ports]) ← record? ["module", "ports"] depth j | none
    return ofPairs (← need .text depth moduleName) (← need Form.key.table depth ports)

end Instance

namespace Primitive

def keys (names : List String) (ids : List SignalId) : Json :=
  .object (names.zip (ids.map Form.key.write))

def form : Form Primitive where
  write
    | tristate target o oe i =>
      .object [("Tristate", .object [("target", Form.key.write target), ("o", Form.key.write o),
        ("oe", oe.toJson), ("i", Form.key.write i)])]
    | sdrInput i o clk => .object [("SdrInput", keys ["i", "o", "clk"] [i, o, clk])]
    | sdrOutput i o clk => .object [("SdrOutput", keys ["i", "o", "clk"] [i, o, clk])]
    | ddrInput i o1 o2 clk =>
      .object [("DdrInput", keys ["i", "o1", "o2", "clk"] [i, o1, o2, clk])]
    | ddrOutput i1 i2 o clk =>
      .object [("DdrOutput", keys ["i1", "i2", "o", "clk"] [i1, i2, o, clk])]
    | blackBox inst => .object [("Instance", Instance.form.write inst)]
  read depth j := do
    match ← variant? depth j with
    | (depth, "Tristate", v) =>
      let (depth, [target, o, oe, i]) ← record? ["target", "o", "oe", "i"] depth v | none
      return tristate (← need .key depth target) (← need .key depth o) (← need Expr.form depth oe)
        (← need .key depth i)
    | (depth, "SdrInput", v) =>
      let (depth, [i, o, clk]) ← record? ["i", "o", "clk"] depth v | none
      return sdrInput (← need .key depth i) (← need .key depth o) (← need .key depth clk)
    | (depth, "SdrOutput", v) =>
      let (depth, [i, o, clk]) ← record? ["i", "o", "clk"] depth v | none
      return sdrOutput (← need .key depth i) (← need .key depth o) (← need .key depth clk)
    | (depth, "DdrInput", v) =>
      let (depth, [i, o1, o2, clk]) ← record? ["i", "o1", "o2", "clk"] depth v | none
      return ddrInput (← need .key depth i) (← need .key depth o1) (← need .key depth o2)
        (← need .key depth clk)
    | (depth, "DdrOutput", v) =>
      let (depth, [i1, i2, o, clk]) ← record? ["i1", "i2", "o", "clk"] depth v | none
      return ddrOutput (← need .key depth i1) (← need .key depth i2) (← need .key depth o)
        (← need .key depth clk)
    | (depth, "Instance", v) => return blackBox (← Instance.form.read depth v)
    | _ => none

end Primitive

namespace Domain

def form : Form Domain where
  write d := .object [("clk", Form.key.write d.clk), ("rst", Form.key.write d.rst)]
  read depth j := do
    let (depth, [clk, rst]) ← record? ["clk", "rst"] depth j | none
    return ⟨← need .key depth clk, ← need .key depth rst⟩

end Domain

namespace Netlist

def form : Form Netlist where
  write m := .object [("name", .text m.name), ("signals", (Form.arena Signal.form).write m.signals),
    ("assignments", Assign.form.list.write m.assignments),
    ("specials", Primitive.form.list.write m.primitives),
    ("domains", Domain.form.table.write m.domains)]
  read depth j := do
    let (depth, [name, signals, assignments, primitives, domains]) ←
      record? ["name", "signals", "assignments", "specials", "domains"] depth j | none
    return ⟨← need .text depth name, ← need (.arena Signal.form) depth signals,
      ← need Assign.form.list depth assignments, ← need Primitive.form.list depth primitives,
      ← need Domain.form.table depth domains⟩

end Netlist

end Host

end NetBridge
