import NetBridge.Guest.Check
import NetBridge.Guest.Lowering
import NetBridge.Verilog.Module

/-! # Generation of Verilog

A guest netlist becomes a Verilog module whose ports are exactly the requested
targets. A signal that is read, not driven and not a port is tied to its reset
value. -/
namespace NetBridge.Guest

structure Generated where
  verilog : Verilog.Module
  /-- The final name of every signal in the module, by signal. -/
  names : Table SignalId String
  /-- The direction of every port, in port order. -/
  ports : Table SignalId PortDirection

namespace Generated

def text (g : Generated) : String := g.verilog.text

end Generated

namespace Netlist

/-- The signals that the statements mention. -/
def mentioned (m : Netlist) : List SignalId :=
  m.statements.flatMap fun s =>
    s.target :: s.value.reads ++
      match s.domain.bind m.domain? with
      | some d => [d.clk, d.rst]
      | none => []

/-- The signals that get a name, in the order in which they get it: the ports, and
then what the statements mention, by signal. -/
def named (m : Netlist) (ports : Table SignalId PortDirection) : Except Error (List SignalId) :=
  let mentioned := m.mentioned
  match (ports.keys ++ mentioned).find? fun id => !m.signals.contains id with
  | some id => .error (.unallocated id.index)
  | none =>
    .ok (ports.keys ++ ((List.range m.signals.size).map Key.mk).filter fun id =>
      mentioned.contains id && !Table.contains ports id)

/-- Gives names one after the other. -/
def nameAll (m : Netlist) : List String → List SignalId → Table SignalId String × List String
  | taken, [] => ([], taken)
  | taken, id :: rest =>
    let name := Verilog.freshName taken (((m.signal? id).map (·.name)).getD "")
    let (names, taken) := nameAll m (name :: taken) rest
    ((id, name) :: names, taken)

/-- A table of signals in the order of the signals. -/
def bySignal {α : Type} (m : Netlist) (t : Table SignalId α) : Table SignalId α :=
  ((List.range m.signals.size).map Key.mk).filterMap fun id => (Table.get? t id).map (id, ·)

def resetOf (m : Netlist) (id : SignalId) : Word := ((m.signal? id).map (·.reset)).getD 0

/-- The net of a signal. Ports are declared already, registers once more. -/
def net? (m : Netlist) (drivers : Drivers) (isPort : SignalId → Bool) (id : SignalId)
    (name : String) : Option Verilog.Net :=
  match Table.get? drivers id with
  | some (some _) => some (.reg (m.shapeOf id) name (m.resetOf id))
  | _ => if isPort id then none else some (.wire (m.shapeOf id) name)

/-- A signal that nothing drives is tied to its reset value. -/
def tie? (m : Netlist) (drivers : Drivers) (isPort : SignalId → Bool) (id : SignalId)
    (name : String) : Option Verilog.Assign :=
  if Table.contains drivers id || isPort id then none
  else some ⟨name, .literal (m.resetOf id) (m.shapeOf id)⟩

/-- Temporary wires and assignments in the order in which they are written. -/
structure Body where
  taken : List String
  wires : List Verilog.Net := []
  assigns : List Verilog.Assign := []

/-- Lowers the value of a statement and adds the wires that it needs. -/
def Body.lower (b : Body) (m : Netlist) (nameOf : SignalId → String) (e : Expr) :
    Verilog.Expr × Body :=
  let (value, scratch) := (e.lower m.shapeOf nameOf).run ⟨b.taken, []⟩
  (value, {
    taken := scratch.taken
    wires := b.wires ++ scratch.temporaries.map fun t => .wire t.shape t.name
    assigns := b.assigns ++ scratch.temporaries.map fun t => ⟨t.name, t.value⟩ })

def Body.addComb (b : Body) (m : Netlist) (nameOf : SignalId → String) (s : Statement) : Body :=
  let (value, b) := b.lower m nameOf s.value
  { b with assigns := b.assigns ++ [⟨nameOf s.target, value⟩] }

/-- The updates of a process. -/
def Body.addUpdates (b : Body) (m : Netlist) (nameOf : SignalId → String) :
    List Statement → List Verilog.Assign × Body
  | [] => ([], b)
  | s :: rest =>
    let (value, b) := b.lower m nameOf s.value
    let (updates, b) := Body.addUpdates b m nameOf rest
    (⟨nameOf s.target, value⟩ :: updates, b)

def resetsOf (m : Netlist) (nameOf : SignalId → String) (statements : List Statement) :
    List Verilog.Reset :=
  (statements.map (·.target)).eraseDups.map fun id => ⟨nameOf id, m.resetOf id, m.shapeOf id⟩

/-- One process for each domain that has statements. -/
def Body.addProcesses (b : Body) (m : Netlist) (nameOf : SignalId → String) :
    List ClockDomain → List Verilog.AlwaysBlock × Body
  | [] => ([], b)
  | d :: rest =>
    match m.statements.filter (·.domain == some d.name) with
    | [] => Body.addProcesses b m nameOf rest
    | statements =>
      let (updates, b) := b.addUpdates m nameOf statements
      let (processes, b) := Body.addProcesses b m nameOf rest
      (⟨nameOf d.clk, updates, nameOf d.rst, m.resetsOf nameOf statements⟩ :: processes, b)

def moduleOf (m : Netlist) (name : String) (drivers : Drivers)
    (ports : Table SignalId PortDirection) (names : Table SignalId String) (taken : List String) :
    Verilog.Module :=
  let nameOf id := (Table.get? names id).getD ""
  let isPort id := Table.contains ports id
  let ties := names.filterMap fun p => m.tie? drivers isPort p.1 p.2
  let body : Body := { taken, assigns := ties }
  let body := (m.statements.filter (·.domain.isNone)).foldl (fun b s => b.addComb m nameOf s) body
  let (processes, body) := body.addProcesses m nameOf m.domains.values
  { name
    ports := ports.map fun p => ⟨p.2, m.shapeOf p.1, nameOf p.1⟩
    nets := (names.filterMap fun p => m.net? drivers isPort p.1 p.2) ++ body.wires
    assigns := body.assigns
    processes }

/-- The Verilog of a netlist, under a name and with the given targets as ports.
Targets that lead to one signal make one port. -/
def generate (m : Netlist) (name : String) (targets : List Target) : Except Error Generated := do
  m.checkWidths
  let drivers ← m.drivers
  m.statements.forM m.checkStatement
  let ports ← m.ports drivers targets
  let (names, taken) := m.nameAll [] (← m.named ports)
  let names := m.bySignal names
  return ⟨m.moduleOf name drivers ports names taken, names, ports⟩

end Netlist

end NetBridge.Guest
