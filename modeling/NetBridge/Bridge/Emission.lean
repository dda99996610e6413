import NetBridge.Bridge.Basic

/-! # Emission and instances

The guest netlist is generated with exactly the connected targets as ports. Then
every connection is bound to its port on an instance of the generated module. -/
namespace NetBridge.Bridge

/-- Generates the netlist and seals the connections. -/
def emit : BridgeM String := do
  ensurePhase .collecting .emit
  let b ← get
  let generated ← ofGuest (b.guest.generate b.name (b.connections.map (·.target)))
  modify fun b => { b with
    netlist := some generated.text
    portMap := PortMap.ofGenerated b.guest generated
    phase := .emitted }
  return generated.text

/-- A connection with the port that it goes to. -/
structure Binding where
  label : String
  direction : PortDirection
  source : Host.SignalId
  invert : Bool

/-- Finds the port of every connection, given the labels that are bound already. -/
def bindings (map : PortMap) : List String → List Connection → Except BridgeError (List Binding)
  | _, [] => .ok []
  | seen, c :: rest => do
    let port ← match map.lookup c.target with
      | .ok port => pure port
      | .error e => throw (.internal e)
    if seen.contains port.label then throw (.portCollision port.label)
    return ⟨port.label, port.direction, c.source, c.invert⟩ ::
      (← bindings map (port.label :: seen) rest)

/-- The signal to bind. For an inverted connection it is a new one: an input gets
the complement of the source, an output drives the source with its complement. -/
def bound (b : Binding) : BridgeM Host.SignalId := do
  if b.invert then
    let source ← hostSignal b.source
    onHost fun host =>
      let (inv, host) := host.addSignal s!"{source.name}_inv" source.shape
      (inv, match b.direction with
        | .input => host.assign inv (.not (.signal b.source))
        | .output => host.assign b.source (.not (.signal inv)))
  else
    return b.source

def bindAll (inst : Host.Instance) : List Binding → BridgeM Host.Instance
  | [] => return inst
  | b :: rest => do
    let id ← bound b
    bindAll (inst.bind b.label id) rest

/-- Binds every connection. Collisions are found before anything is changed. -/
def buildInstance : BridgeM Host.Instance := do
  ensurePhase .emitted .buildInstance
  let b ← get
  match bindings b.portMap [] b.connections with
  | .error e => throw e
  | .ok bs =>
    let inst ← bindAll ⟨b.name, []⟩ bs
    modify fun b => { b with phase := .instantiated }
    return inst

end NetBridge.Bridge
