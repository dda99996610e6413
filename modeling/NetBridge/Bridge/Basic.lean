import NetBridge.Bridge.Error
import NetBridge.Capability.Lookup
import NetBridge.Guest.Form
import NetBridge.Guest.Generation
import NetBridge.Host.Form
import NetBridge.Host.Netlist

/-! # Bridges

A bridge owns a host netlist, a guest netlist and the connections between them.
While it collects, host signals are paired with targets in the guest. An operation
that fails still has a state, so that one can say what a failure leaves behind. A port map
tells which port a target became. The clock and the reset of a domain are found as such
and as the signals that they are. -/
namespace NetBridge

/-- The generated name and direction of a port. -/
structure PortInfo where
  name : String
  direction : PortDirection
deriving DecidableEq

namespace PortInfo

/-- The label of the port on an instance. -/
def label (p : PortInfo) : String := p.direction.label p.name

def form : Form PortInfo where
  write p := .object [("name", .text p.name), ("direction", PortDirection.form.write p.direction)]
  read depth j := do
    let (depth, [name, direction]) ← Form.record? ["name", "direction"] depth j | none
    return ⟨← Form.need .text depth name, ← Form.need PortDirection.form depth direction⟩

end PortInfo

/-- Signals by number, then clocks and then resets by the name of the domain. -/
abbrev PortMap := Table Guest.Target PortInfo

namespace PortMap

open Guest (Generated SignalId Target)

/-- The port that a signal became. -/
def ofSignal? (g : Generated) (id : SignalId) : Option PortInfo := do
  return ⟨← Table.get? g.names id, ← Table.get? g.ports id⟩

def ofGenerated (m : Guest.Netlist) (g : Generated) : PortMap :=
  let domains := m.domains.mergeSort fun a b => !decide (b.1 < a.1)
  ((m.bySignal g.ports).filterMap fun p => (ofSignal? g p.1).map (Target.signal p.1, ·)) ++
    (domains.filterMap fun p => (ofSignal? g p.2.clk).map (Target.clock p.1, ·)) ++
    (domains.filterMap fun p => (ofSignal? g p.2.rst).map (Target.reset p.1, ·))

/-- The port of a target that must have become one. -/
def lookup (map : PortMap) (target : Target) : Except InternalError PortInfo :=
  match Table.get? map target with
  | some p => .ok p
  | none => .error ⟨s!"{target.text} has no generated port"⟩

/-- Targets cannot be names of an object, so only the empty map has a JSON form. -/
def toJson? : PortMap → Option Json
  | [] => some (.object [("entries", .object [])])
  | _ :: _ => none

def ofJson? (depth : Nat) (j : Json) : Option PortMap := do
  let (_ + 1, [some (.object [])]) ← Form.record? ["entries"] depth j | none
  return []

end PortMap

/-- A pairing of a host signal with a guest target. An inverted one carries the
complement. -/
structure Connection where
  source : Host.SignalId
  target : Guest.Target
  invert : Bool
deriving DecidableEq

namespace Connection

def form : Form Connection where
  write c := .object [("source", Form.key.write c.source),
    ("target", Guest.Target.form.write c.target), ("invert", .bool c.invert)]
  read depth j := do
    let (depth, [source, target, invert]) ←
      Form.record? ["source", "target", "invert"] depth j | none
    return ⟨← Form.need .key depth source, ← Form.need Guest.Target.form depth target,
      ← Form.need .bool depth invert⟩

end Connection

namespace Phase

def form : Form Phase := .choice ofName? name

end Phase

/-- A pad that has been adapted, and what it became. -/
structure AdaptedPad where
  direction : Direction
  rate : Nat
  capability : Capability

structure Bridge where
  /-- The name of the generated module. -/
  name : String
  host : Host.Netlist
  guest : Guest.Netlist := {}
  connections : List Connection := []
  phase : Phase := .collecting
  netlist : Option String := none
  portMap : PortMap := []
  pads : Table Host.SignalId AdaptedPad := []

abbrev BridgeM := EStateM BridgeError Bridge

namespace Bridge

/-- The name of the default clock domain of the host. -/
def hostTopDomain : String := "sys"

/-- The host signal that is connected to a guest signal. -/
def sourceOf? (b : Bridge) (id : Guest.SignalId) : Option Host.SignalId :=
  (b.connections.find? (·.target == .signal id)).map (·.source)

def ensurePhase (expected : Phase) (operation : Operation) : BridgeM Unit := do
  let phase := (← get).phase
  unless phase = expected do throw (.phaseViolation operation phase)

/-- Passes on what the guest netlist answers. -/
def ofGuest {α : Type} : Except Guest.Error α → BridgeM α
  | .ok a => return a
  | .error e => throw (.guest e)

/-- A host signal that must have been allocated. -/
def hostSignal (id : Host.SignalId) : BridgeM Host.Signal := do
  match (← get).host.signal? id with
  | some s => return s
  | none => throw (.unallocated id.index)

/-- Changes the host netlist and returns what the change makes. -/
def onHost {α : Type} (change : Host.Netlist → α × Host.Netlist) : BridgeM α :=
  modifyGet fun b =>
    let (a, host) := change b.host
    (a, { b with host })

/-- Pairs a host signal with a guest target. Two connections of one target are
found out when the instance is built. -/
def connect (source : Host.SignalId) (target : Guest.Target) (invert : Bool) : BridgeM Unit := do
  ensurePhase .collecting .connect
  modify fun b => { b with connections := b.connections ++ [⟨source, target, invert⟩] }

/-- Makes a guest clock domain that the host domain of this name drives. The
default domains of both sides belong together. -/
def declareDomain (name : String) : BridgeM Unit := do
  ensurePhase .collecting .declareDomain
  let guestName := if name = hostTopDomain then Guest.Netlist.topDomain else name
  let (_, guest) ← ofGuest ((← get).guest.addDomain guestName)
  modify fun b => { b with guest }
  let wires ← onHost (·.domain name)
  connect wires.clk (.clock guestName) false
  connect wires.rst (.reset guestName) false

/-- Connects a new host signal that looks like a guest signal. -/
def importFromGuest (id : Guest.SignalId) (invert : Bool) : BridgeM Host.SignalId := do
  ensurePhase .collecting .importGuest
  let guest ← ofGuest ((← get).guest.signal id)
  let host ← onHost (·.addSignal guest.name guest.shape)
  connect host (.signal id) invert
  return host

/-- Connects a new guest signal that looks like a host signal, perhaps under a
name of its own. -/
def importFromHost (id : Host.SignalId) (name : Option String) (invert : Bool) :
    BridgeM Guest.SignalId := do
  ensurePhase .collecting .importHost
  let host ← hostSignal id
  let guest ← modifyGet fun b =>
    let (guest, netlist) := b.guest.addSignal (name.getD host.name) host.shape
    (guest, { b with guest := netlist })
  connect id (.signal guest) invert
  return guest

end Bridge

end NetBridge
