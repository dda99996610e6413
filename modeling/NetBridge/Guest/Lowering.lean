import NetBridge.Guest.Netlist
import NetBridge.Verilog.Module

/-! # Lowering expressions

A guest expression becomes a Verilog expression. Bits can only be selected from
a name, so an operand of a slice that has none goes through a temporary wire. -/
namespace NetBridge.Guest

/-- A wire that holds an intermediate value. -/
structure Temporary where
  name : String
  shape : Shape
  value : Verilog.Expr

/-- The names in use, and the wires made so far. -/
structure Scratch where
  taken : List String
  temporaries : List Temporary := []

abbrev Lower := StateM Scratch

/-- The preferred name of temporary wires. -/
def temporaryName : String := "_t"

def temporary (shape : Shape) (value : Verilog.Expr) : Lower String := do
  let s ← get
  let name := Verilog.freshName s.taken temporaryName
  let wire : Temporary := ⟨name, shape, value⟩
  set { s with taken := name :: s.taken, temporaries := s.temporaries ++ [wire] }
  return name

def select (base : String) (start stop : Nat) : Verilog.Expr :=
  if stop - start = 1 then .bitSelect base start else .partSelect base (stop - 1) start

namespace Expr

mutual

def lower (shapeOf : SignalId → Shape) (nameOf : SignalId → String) : Expr → Lower Verilog.Expr
  | signal id => return .name (nameOf id)
  | const value shape => return .literal value shape
  | unary op operand => return .unary op (← lower shapeOf nameOf operand)
  | binary op left right => do
    let l ← lower shapeOf nameOf left
    let r ← lower shapeOf nameOf right
    return .binary op l r
  | slice (signal id) start stop => return select (nameOf id) start stop
  | slice value start stop => do
    let inner ← lower shapeOf nameOf value
    let base ← temporary (value.shape shapeOf) inner
    return select base start stop
  | concat parts => return .concat (← lowerParts shapeOf nameOf parts)
  | mux condition whenSet whenClear => do
    let c ← lower shapeOf nameOf condition
    let s ← lower shapeOf nameOf whenSet
    let o ← lower shapeOf nameOf whenClear
    return .conditional c s o

/-- The parts from the last to the first, which is the order of Verilog. -/
def lowerParts (shapeOf : SignalId → Shape) (nameOf : SignalId → String) :
    List Expr → Lower (List Verilog.Expr)
  | [] => return []
  | e :: rest => do
    let higher ← lowerParts shapeOf nameOf rest
    let lowest ← lower shapeOf nameOf e
    return higher ++ [lowest]

end

end Expr

end NetBridge.Guest
