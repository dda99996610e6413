import NetBridge.Host.Netlist

/-! # Evaluation of host netlists

The assignments are carried out one after the other, again and again: each pass
settles at least one more level of a network without loops. Primitives pass
nothing on. -/
namespace NetBridge.Host

abbrev Valuation := Table SignalId Word

namespace Valuation

/-- Signals without a value read as zero. -/
def read (v : Valuation) (id : SignalId) : Word := (Table.get? v id).getD 0

end Valuation

namespace Netlist

def shapeOf (m : Netlist) (id : SignalId) : Shape := ((m.signal? id).map (·.shape)).getD default

def settleAssign (m : Netlist) (v : Valuation) (a : Assign) : Valuation :=
  Table.set v a.target ((m.shapeOf a.target).truncate (a.value.eval (Valuation.read v)))

/-- Carries out every assignment once, in order. -/
def pass (m : Netlist) (v : Valuation) : Valuation := m.assignments.foldl m.settleAssign v

def passes (m : Netlist) : Nat → Valuation → Valuation
  | 0, v => v
  | n + 1, v => m.passes n (m.pass v)

/-- The values of the inputs and of everything that is driven. There is no answer
if an assignment drives a signal that was never allocated. -/
def evaluate? (m : Netlist) (inputs : Valuation) : Option Valuation :=
  if m.assignments.all fun a => m.signals.contains a.target then
    some (m.passes (m.assignments.length + 1) inputs)
  else
    none

end Netlist

end NetBridge.Host
