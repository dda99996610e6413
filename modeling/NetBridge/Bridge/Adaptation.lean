import NetBridge.Bridge.Basic
import NetBridge.Host.Netlist
import NetBridge.Pad.Mode

/-! # Adaptation of pads

A physical pad becomes a capability. Every leaf gets the host primitives that its
mode needs, and the logical signals behind them are imported into the guest. Data
of active-low pads is inverted on the way, clocks and enables never are. -/
namespace NetBridge.Bridge

open Host (Pad PadTree Primitive)

abbrev HostM := StateM Host.Netlist

/-- The names and shapes of the signals around one pad. -/
structure PadSite where
  name : String
  pad : Host.SignalId
  shape : Shape

namespace PadSite

/-- A signal that carries pad data. -/
def data (s : PadSite) (suffix : String) : HostM Host.SignalId :=
  modifyGet (·.addSignal s!"{s.name}_{suffix}" s.shape)

/-- A clock or an enable. -/
def control (s : PadSite) (suffix : String) : HostM Host.SignalId :=
  modifyGet (·.addSignal s!"{s.name}_{suffix}" .bit)

def place (p : Primitive) : HostM Unit := modify (·.addPrimitive p)

/-- A buffer with one enable for all bits of the pad. -/
def tristate (s : PadSite) (o oe i : Host.SignalId) : HostM Unit :=
  place (.tristate s.pad o (.replicate oe s.shape.width) i)

/-- A registered tristate buffer. Its input side is registered only if it is exposed. -/
def registeredTristate (s : PadSite) (exposed : Bool) : HostM (List (Role × Host.SignalId)) := do
  let padI ← s.data "pad_i"
  let padO ← s.data "pad_o"
  let oe ← s.control "oe"
  s.tristate padO oe padI
  let inputs ← if exposed then do
      let i ← s.data "i"
      let clk ← s.control "i_clk"
      place (.sdrInput padI i clk)
      pure [(Role.i, i), (Role.iClk, clk)]
    else pure []
  let o ← s.data "o"
  let clk ← s.control "o_clk"
  place (.sdrOutput o padO clk)
  return inputs ++ [(.o, o), (.oe, oe), (.oClk, clk)]

/-- Makes the primitives of a mode; the host signal behind each role comes back. -/
def synthesize (s : PadSite) : Direction → Nat → HostM (List (Role × Host.SignalId))
  | .input, 0 => return [(.i, s.pad)]
  | .output, 0 => return [(.o, s.pad)]
  | .inout, 0 => do
    let i ← s.data "i"
    let o ← s.data "o"
    let oe ← s.control "oe"
    s.tristate o oe i
    return [(.i, i), (.o, o), (.oe, oe)]
  | .drive, 0 => do
    let i ← s.data "i"
    let o ← s.data "o"
    let oe ← s.control "oe"
    s.tristate o oe i
    return [(.o, o), (.oe, oe)]
  | .input, 1 => do
    let i ← s.data "i"
    let clk ← s.control "i_clk"
    place (.sdrInput s.pad i clk)
    return [(.i, i), (.iClk, clk)]
  | .output, 1 => do
    let o ← s.data "o"
    let clk ← s.control "o_clk"
    place (.sdrOutput o s.pad clk)
    return [(.o, o), (.oClk, clk)]
  | .inout, 1 => s.registeredTristate true
  | .drive, 1 => s.registeredTristate false
  | .input, 2 => do
    let i0 ← s.data "i0"
    let i1 ← s.data "i1"
    let clk ← s.control "i_clk"
    place (.ddrInput s.pad i0 i1 clk)
    return [(.i0, i0), (.i1, i1), (.iClk, clk)]
  | .output, 2 => do
    let o0 ← s.data "o0"
    let o1 ← s.data "o1"
    let clk ← s.control "o_clk"
    place (.ddrOutput o0 o1 s.pad clk)
    return [(.o0, o0), (.o1, o1), (.oClk, clk)]
  | _, _ => return []

end PadSite

/-- Refuses a capability whose members differ from its signature. -/
def checkCapability (c : Capability) : BridgeM Unit := do
  if let some detail := c.mismatch? (← get).guest then
    throw (.signatureMismatch c.name detail)

/-- Imports the signals behind the roles, in the order of the roles. -/
def importRoles (name : String) (inverted : Bool) (logical : List (Role × Host.SignalId)) :
    List Role → BridgeM (Table Role Guest.SignalId)
  | [] => return []
  | role :: rest => do
    match Table.get? logical role with
    | none => throw (.internal ⟨s!"no host signal synthesized for '{name}_{role.text}'"⟩)
    | some host =>
      let guest ← importFromHost host (some s!"{name}_{role.text}") (inverted && role.isData)
      return (role, guest) :: (← importRoles name inverted logical rest)

/-- The signals of a leaf in the order of the roles. -/
def inRoleOrder (signals : Table Role Guest.SignalId) : Table Role Guest.SignalId :=
  Role.all.filterMap fun role => (Table.get? signals role).map (role, ·)

/-- Adapts a pad that has not been adapted before. -/
def adaptFresh (name : String) (pad : Pad) (direction : Direction) (rate : Nat)
    (roles : List Role) : BridgeM Capability := do
  let shape := (← hostSignal pad.signal).shape
  let site : PadSite := ⟨name, pad.signal, shape⟩
  let logical ← onHost (site.synthesize direction rate).run
  let signals ← importRoles name pad.inverted logical roles
  let capability :=
    .leaf name (Signature.ofRoles roles ⟨pad.width, shape.signed⟩) (inRoleOrder signals)
  checkCapability capability
  modify fun b => { b with pads := b.pads ++ [(pad.signal, ⟨direction, rate, capability⟩)] }
  return capability

/-- Adapts a single pad. A pad that exposes nothing is left alone, and one that has
been adapted in the same mode keeps its capability. -/
def adaptLeaf (name : String) (pad : Pad) (direction : Direction) (rate : Nat) :
    BridgeM Capability := do
  match modeRoles direction rate with
  | .error e => throw (.unsupportedPad e)
  | .ok [] => return .leaf name [] []
  | .ok roles =>
    match Table.get? (← get).pads pad.signal with
    | none => adaptFresh name pad direction rate roles
    | some done =>
      if done.direction = direction ∧ done.rate = rate then return done.capability
      else throw (.padConflict done.capability.name done.direction done.rate direction rate)

/-- The value of a spec for a single pad. -/
def single {α : Type} (name : String) (spec : Option (Spec α)) : BridgeM (Option α) :=
  match Spec.single? spec with
  | some value => return value
  | none => throw (.specShape name)

/-- Refuses a spec for a field that the pad does not have. -/
def checkFields {α : Type} (name : String) (fields : List String) (spec : Option (Spec α)) :
    BridgeM Unit :=
  match Spec.strayField? spec fields with
  | some field => throw (.missingMember name field)
  | none => return ()

mutual

/-- Adapts a pad; the signals of its roles are called `name_role`. Without a
direction a pad is left alone, without a rate no clock is involved. -/
def adapt (name : String) (direction : Option DirectionSpec) (rate : Option RateSpec) :
    PadTree → BridgeM Capability
  | .leaf pad => do
    ensurePhase .collecting .adapt
    let direction ← single name direction
    let rate ← single name rate
    adaptLeaf name pad (direction.getD .idle) (rate.getD 0)
  | .group fields => do
    ensurePhase .collecting .adapt
    checkFields name (Table.keys fields) direction
    checkFields name (Table.keys fields) rate
    let children ← adaptFields name direction rate fields
    let capability := .group name
      (Table.ofPairs (children.map fun p => (p.1, .interface .outward p.2.signature))) children
    checkCapability capability
    return capability

/-- Adapts the fields of a group in order. -/
def adaptFields (name : String) (direction : Option DirectionSpec) (rate : Option RateSpec) :
    List (String × PadTree) → BridgeM (List (String × Capability))
  | [] => return []
  | (field, pad) :: rest => do
    let child ← adapt s!"{name}_{field}" (Spec.forField direction field)
      (Spec.forField rate field) pad
    return (field, child) :: (← adaptFields name direction rate rest)

end

end NetBridge.Bridge
