import NetBridge.Guest.Netlist
import NetBridge.Shape

/-! # Checks before code is generated

Signals have a width, statements of one signal agree on who drives it, slices lie
inside their operands, and concatenations have parts. The first violation in the
order of the netlist is reported. -/
namespace NetBridge.Guest

/-- Who drives a signal: nothing for combinational logic, or a clock domain. -/
abbrev Drivers := Table SignalId (Option String)

namespace Netlist

def checkWidths (m : Netlist) : Except Error Unit :=
  match m.signals.toList.find? (·.shape.width == 0) with
  | some s => .error (.zeroWidth s.name)
  | none => .ok ()

/-- A statement joins the drivers. Only registers may have several statements,
all of one domain: the last one wins. -/
def addDriver (m : Netlist) (drivers : Drivers) (s : Statement) : Except Error Drivers := do
  if let some domain := s.domain then
    if (m.domain? domain).isNone then throw (.unknownDomain domain)
  match Table.get? drivers s.target with
  | none => return drivers ++ [(s.target, s.domain)]
  | some driver =>
    if driver.isSome && driver == s.domain then return drivers
    else throw (.multipleDrivers (← m.signal s.target).name)

def drivers (m : Netlist) : Except Error Drivers := m.statements.foldlM m.addDriver []

mutual

def checkExpr (m : Netlist) (target : SignalId) : Expr → Except Error Unit
  | .signal _ | .const _ _ => .ok ()
  | .unary _ operand => checkExpr m target operand
  | .binary _ left right => do
    checkExpr m target left
    checkExpr m target right
  | .slice value start stop => do
    checkExpr m target value
    let shape ← m.measure value
    unless start < stop ∧ stop ≤ shape.width do
      throw (.invalidSlice (← m.signal target).name start stop shape.width)
  | .concat [] => do throw (.emptyConcat (← m.signal target).name)
  | .concat (first :: rest) => do
    checkExpr m target first
    checkParts m target rest
  | .mux select whenSet whenClear => do
    checkExpr m target select
    checkExpr m target whenSet
    checkExpr m target whenClear

def checkParts (m : Netlist) (target : SignalId) : List Expr → Except Error Unit
  | [] => .ok ()
  | e :: rest => do
    checkExpr m target e
    checkParts m target rest

end

def checkStatement (m : Netlist) (s : Statement) : Except Error Unit := m.checkExpr s.target s.value

/-- A target joins the ports, unless its signal is one already. What is driven
is an output. -/
def addPort (m : Netlist) (drivers : Drivers) (ports : Table SignalId PortDirection)
    (target : Target) : Except Error (Table SignalId PortDirection) := do
  let id ← m.resolve target
  if Table.contains ports id then return ports
  return ports ++ [(id, if Table.contains drivers id then .output else .input)]

def ports (m : Netlist) (drivers : Drivers) (targets : List Target) :
    Except Error (Table SignalId PortDirection) :=
  targets.foldlM (m.addPort drivers) []

end Netlist

end NetBridge.Guest
