import NetBridge.Guest.Netlist
import NetBridge.Json.Form

/-! # JSON forms of guest netlists -/
namespace NetBridge

namespace UnaryOp

def form : Form UnaryOp := .choice ofName? name

end UnaryOp

namespace BinaryOp

def form : Form BinaryOp := .choice ofName? name

end BinaryOp

namespace Guest

open Form (need allow record? variant? fields?)

namespace Signal

def form : Form Signal where
  write s := .object [("name", .text s.name), ("shape", Form.shape.write s.shape),
    ("reset", Form.word.write s.reset)]
  read depth j := do
    let (depth, [name, shape, reset]) ← record? ["name", "shape", "reset"] depth j | none
    return ⟨← need .text depth name, ← need .shape depth shape, ← need .word depth reset⟩

end Signal

namespace Expr

mutual

def toJson : Expr → Json
  | signal id => .object [("Signal", Form.key.write id)]
  | const value shape =>
    .object [("Const", .object [("value", Form.word.write value), ("shape", Form.shape.write shape)])]
  | unary op operand =>
    .object [("Unary", .object [("op", UnaryOp.form.write op), ("operand", toJson operand)])]
  | binary op left right =>
    .object [("Binary", .object [("op", BinaryOp.form.write op), ("lhs", toJson left),
      ("rhs", toJson right)])]
  | slice value start stop =>
    .object [("Slice", .object [("value", toJson value), ("start", .nat start), ("end", .nat stop)])]
  | concat parts => .object [("Cat", .array (partsToJson parts))]
  | mux select whenSet whenClear =>
    .object [("Mux", .object [("sel", toJson select), ("then", toJson whenSet),
      ("otherwise", toJson whenClear)])]

def partsToJson : List Expr → List Json
  | [] => []
  | e :: rest => toJson e :: partsToJson rest

end

/-- Every expression below another one stands two containers deeper. -/
def ofJson : Nat → Json → Option Expr
  | 0, _ => none
  | 1, j => do
    let (_, "Signal", id) ← variant? 1 j | none
    return .signal (← Form.key.read 0 id)
  | depth + 2, j => do
    match ← variant? (depth + 2) j with
    | (_, "Signal", id) => return .signal (← Form.key.read depth id)
    | (_, "Const", v) =>
      let [value, shape] ← fields? ["value", "shape"] v | none
      return .const (← need .word depth value) (← need .shape depth shape)
    | (_, "Unary", v) =>
      let [op, operand] ← fields? ["op", "operand"] v | none
      return .unary (← need UnaryOp.form depth op) (← ofJson depth (← operand))
    | (_, "Binary", v) =>
      let [op, left, right] ← fields? ["op", "lhs", "rhs"] v | none
      return .binary (← need BinaryOp.form depth op) (← ofJson depth (← left))
        (← ofJson depth (← right))
    | (_, "Slice", v) =>
      let [value, start, stop] ← fields? ["value", "start", "end"] v | none
      return .slice (← ofJson depth (← value)) (← need (.natBits 32) depth start)
        (← need (.natBits 32) depth stop)
    | (_, "Cat", .array parts) => return .concat (← parts.mapM (ofJson depth))
    | (_, "Mux", v) =>
      let [select, whenSet, whenClear] ← fields? ["sel", "then", "otherwise"] v | none
      return .mux (← ofJson depth (← select)) (← ofJson depth (← whenSet))
        (← ofJson depth (← whenClear))
    | _ => none

def form : Form Expr := ⟨toJson, ofJson⟩

end Expr

namespace Target

def form : Form Target where
  write
    | signal id => .object [("Signal", Form.key.write id)]
    | clock domain => .object [("Clock", .text domain)]
    | reset domain => .object [("Reset", .text domain)]
  read depth j := do
    match ← variant? depth j with
    | (depth, "Signal", id) => return signal (← Form.key.read depth id)
    | (depth, "Clock", domain) => return clock (← Form.text.read depth domain)
    | (depth, "Reset", domain) => return reset (← Form.text.read depth domain)
    | _ => none

end Target

namespace ClockDomain

def form : Form ClockDomain where
  write d := .object [("name", .text d.name), ("clk", Form.key.write d.clk),
    ("rst", Form.key.write d.rst)]
  read depth j := do
    let (depth, [name, clk, rst]) ← record? ["name", "clk", "rst"] depth j | none
    return ⟨← need .text depth name, ← need .key depth clk, ← need .key depth rst⟩

end ClockDomain

namespace Statement

def form : Form Statement where
  write s := .object [("target", Form.key.write s.target), ("value", s.value.toJson),
    ("domain", Form.text.optional.write s.domain)]
  read depth j := do
    let (depth, [target, value, domain]) ← record? ["target", "value", "domain"] depth j | none
    return ⟨← need .key depth target, ← need Expr.form depth value, ← allow .text depth domain⟩

end Statement

namespace Netlist

def form : Form Netlist where
  write m := .object [("signals", (Form.arena Signal.form).write m.signals),
    ("domains", ClockDomain.form.table.write m.domains),
    ("statements", Statement.form.list.write m.statements)]
  read depth j := do
    let (depth, [signals, domains, statements]) ←
      record? ["signals", "domains", "statements"] depth j | none
    return ⟨← need (.arena Signal.form) depth signals, ← need ClockDomain.form.table depth domains,
      ← need Statement.form.list depth statements⟩

end Netlist

end Guest

end NetBridge
