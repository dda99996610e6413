import NetBridge.Guest.Expr
import NetBridge.Table

/-! # Guest netlists

A guest netlist has signals, clock domains, and statements that drive signals:
combinationally, or on the clock of a domain. -/
namespace NetBridge.Guest

inductive Error where
  | unknownDomain (domain : String)
  | duplicateDomain (domain : String)
  | multipleDrivers (signal : String)
  | zeroWidth (signal : String)
  /-- The slice stands in the driver of the signal. -/
  | invalidSlice (signal : String) (start stop width : Nat)
  | emptyConcat (signal : String)
  /-- A key that the netlist never handed out. -/
  | unallocated (index : Nat)
  /-- A width that does not fit 32 bits. -/
  | widthOverflow
deriving DecidableEq

namespace Error

def message : Error → String
  | unknownDomain domain => s!"clock domain '{domain}' is not defined"
  | duplicateDomain domain => s!"clock domain '{domain}' is already defined"
  | multipleDrivers signal => s!"signal '{signal}' is driven from more than one place"
  | zeroWidth signal => s!"signal '{signal}' has zero width"
  | invalidSlice signal start stop width =>
    s!"slice [{start}..{stop}] of a {width}-bit value in the driver of '{signal}' is out of range"
  | emptyConcat signal => s!"empty concatenation in the driver of '{signal}'"
  | unallocated index => s!"signal #{index} is not part of the netlist"
  | widthOverflow => "the width of an expression does not fit 32 bits"

end Error

structure ClockDomain where
  name : String
  clk : SignalId
  rst : SignalId
deriving DecidableEq

structure Statement where
  target : SignalId
  value : Expr
  /-- Nothing for a combinational statement. -/
  domain : Option String

/-- What a connection leads to in a guest netlist. -/
inductive Target where
  | signal (id : SignalId)
  | clock (domain : String)
  | reset (domain : String)
deriving DecidableEq

namespace Target

def text : Target → String
  | signal id => s!"signal #{id.index}"
  | clock domain => s!"clock of domain '{domain}'"
  | reset domain => s!"reset of domain '{domain}'"

end Target

structure Netlist where
  signals : Arena Signal := {}
  domains : Table String ClockDomain := []
  statements : List Statement := []

namespace Netlist

/-- The name of the default clock domain. -/
def topDomain : String := "sync"

def signal? (m : Netlist) (id : SignalId) : Option Signal := m.signals.get? id

/-- A signal that must have been allocated. -/
def signal (m : Netlist) (id : SignalId) : Except Error Signal :=
  match m.signal? id with
  | some s => .ok s
  | none => .error (.unallocated id.index)

def shapeOf (m : Netlist) (id : SignalId) : Shape := ((m.signal? id).map (·.shape)).getD default

/-- The reset value is cut to the shape. -/
def addSignal (m : Netlist) (name : String) (shape : Shape) (reset : Word := 0) :
    SignalId × Netlist :=
  (m.signals.nextKey, { m with signals := m.signals.push ⟨name, shape, shape.truncate reset⟩ })

def domain? (m : Netlist) (name : String) : Option ClockDomain := Table.get? m.domains name

/-- The names of the clock and the reset of a domain. -/
def domainSignals (name : String) : String × String :=
  if name = topDomain then ("clk", "rst") else (s!"{name}_clk", s!"{name}_rst")

def addDomain (m : Netlist) (name : String) : Except Error (ClockDomain × Netlist) :=
  if Table.contains m.domains name then .error (.duplicateDomain name)
  else
    let (clk, m) := m.addSignal (domainSignals name).1 .bit
    let (rst, m) := m.addSignal (domainSignals name).2 .bit
    let d : ClockDomain := ⟨name, clk, rst⟩
    .ok (d, { m with domains := m.domains ++ [(name, d)] })

/-- Drives a signal; the domain has to exist only when code is generated. -/
def drive (m : Netlist) (domain : Option String) (target : SignalId) (value : Expr) : Netlist :=
  { m with statements := m.statements ++ [⟨target, value, domain⟩] }

/-- The signal behind a target. A signal is its own target, allocated or not. -/
def resolve (m : Netlist) : Target → Except Error SignalId
  | .signal id => .ok id
  | .clock domain =>
    match m.domain? domain with
    | some d => .ok d.clk
    | none => .error (.unknownDomain domain)
  | .reset domain =>
    match m.domain? domain with
    | some d => .ok d.rst
    | none => .error (.unknownDomain domain)

def targetShape (m : Netlist) (target : Target) : Except Error Shape := do
  return (← m.signal (← m.resolve target)).shape

/-- The shape of an expression, if everything that it depends on has one. -/
def measure (m : Netlist) (e : Expr) : Except Error Shape :=
  match e.sized.find? fun id => !m.signals.contains id with
  | some id => .error (.unallocated id.index)
  | none => if e.fits m.shapeOf then .ok (e.shape m.shapeOf) else .error .widthOverflow

end Netlist

end NetBridge.Guest
