import NetBridge.Arena
import NetBridge.FieldTree
import NetBridge.Shape
import NetBridge.Table

/-! # Host netlists

A host netlist holds the signals that the platform and the bridge allocate, the glue between
them, and primitives. The glue is references, constants, complements and one bit spread over
a bus. Primitives are buffers and registers on the way to a pad, and instances of other
modules; the build tool replaces them by what the device has. Nothing is ever removed. -/
namespace NetBridge.Host

structure Signal where
  name : String
  shape : Shape
deriving DecidableEq, Inhabited

abbrev SignalId := Key Signal

inductive Expr where
  | signal (id : SignalId)
  | const (value : Word) (width : Nat)
  | not (operand : Expr)
  /-- Bit 0 of a signal, `count` times. -/
  | replicate (bit : SignalId) (count : Nat)
deriving DecidableEq

namespace Expr

/-- The value as a whole word; whoever takes it keeps the bits that it has room for. -/
def eval (read : SignalId → Word) : Expr → Word
  | signal id => read id
  | const value _ => value
  | not operand => ~~~ eval read operand
  | replicate bit count => if (read bit).getLsbD 0 then Word.ones count else 0

/-- The signals that are read. -/
def reads : Expr → List SignalId
  | signal id => [id]
  | const _ _ => []
  | not operand => reads operand
  | replicate bit _ => [bit]

end Expr

/-- An instance of a module, with a signal for each port label, sorted by label. -/
structure Instance where
  moduleName : String
  ports : Table String SignalId := []

namespace Instance

def insert : Table String SignalId → String → SignalId → Table String SignalId
  | [], label, id => [(label, id)]
  | (l, i) :: rest, label, id =>
    if label = l then (l, id) :: rest
    else if label < l then (label, id) :: (l, i) :: rest
    else (l, i) :: insert rest label id

/-- Binds a label; the signal that was bound to it before is let go. -/
def bind (inst : Instance) (label : String) (id : SignalId) : Instance :=
  { inst with ports := insert inst.ports label id }

def ofPairs (moduleName : String) (ports : List (String × SignalId)) : Instance :=
  ports.foldl (fun inst p => inst.bind p.1 p.2) ⟨moduleName, []⟩

def port? (inst : Instance) (label : String) : Option SignalId := Table.get? inst.ports label

/-- The names and signals of the ports with a direction. -/
def portsWith (inst : Instance) (direction : PortDirection) : List (String × SignalId) :=
  inst.ports.filterMap fun (label, id) =>
    match PortDirection.parseLabel label with
    | some (d, name) => if d = direction then some (name, id) else none
    | none => none

end Instance

inductive Primitive where
  /-- Drives `o` onto the pad `target` where `oe` is set; `i` is what the pad carries. -/
  | tristate (target o : SignalId) (oe : Expr) (i : SignalId)
  | sdrInput (i o clk : SignalId)
  | sdrOutput (i o clk : SignalId)
  /-- `o1` is sampled on the rising edge, `o2` on the falling one. -/
  | ddrInput (i o1 o2 clk : SignalId)
  /-- `i1` is driven in the first half of the cycle, `i2` in the second. -/
  | ddrOutput (i1 i2 o clk : SignalId)
  | blackBox (inst : Instance)

namespace Primitive

def kind : Primitive → String
  | tristate .. => "tristate"
  | sdrInput .. => "sdr_input"
  | sdrOutput .. => "sdr_output"
  | ddrInput .. => "ddr_input"
  | ddrOutput .. => "ddr_output"
  | blackBox _ => "instance"

/-- The primitive is clocked. -/
def isSynchronizer : Primitive → Bool
  | sdrInput .. | sdrOutput .. | ddrInput .. | ddrOutput .. => true
  | _ => false

def instance? : Primitive → Option Instance
  | blackBox inst => some inst
  | _ => none

end Primitive

structure Assign where
  target : SignalId
  value : Expr
deriving DecidableEq

/-- The clock and reset wires of a clock domain. -/
structure Domain where
  clk : SignalId
  rst : SignalId
deriving DecidableEq

structure Netlist where
  name : String
  signals : Arena Signal := {}
  assignments : List Assign := []
  primitives : List Primitive := []
  domains : Table String Domain := []

namespace Netlist

def signal? (m : Netlist) (id : SignalId) : Option Signal := m.signals.get? id

def addSignal (m : Netlist) (name : String) (shape : Shape) : SignalId × Netlist :=
  (m.signals.nextKey, { m with signals := m.signals.push ⟨name, shape⟩ })

def assign (m : Netlist) (target : SignalId) (value : Expr) : Netlist :=
  { m with assignments := m.assignments ++ [⟨target, value⟩] }

def addPrimitive (m : Netlist) (p : Primitive) : Netlist :=
  { m with primitives := m.primitives ++ [p] }

/-- The wires of a clock domain, which its first use makes. -/
def domain (m : Netlist) (name : String) : Domain × Netlist :=
  match Table.get? m.domains name with
  | some d => (d, m)
  | none =>
    let (clk, m) := m.addSignal s!"{name}_clk" .bit
    let (rst, m) := m.addSignal s!"{name}_rst" .bit
    let d : Domain := ⟨clk, rst⟩
    (d, { m with domains := m.domains ++ [(name, d)] })

def instances (m : Netlist) : List Instance := m.primitives.filterMap Primitive.instance?

/-- The first assignment that drives a signal. -/
def driver? (m : Netlist) (target : SignalId) : Option Assign :=
  m.assignments.find? (·.target = target)

end Netlist

/-- A host signal that is wired to the pins of a board. -/
structure Pad where
  signal : SignalId
  width : Nat
  /-- The pins are active-low. -/
  inverted : Bool
deriving DecidableEq

/-- What a platform hands out for a resource, in the form of its layout. -/
abbrev PadTree := FieldTree Pad

end NetBridge.Host
