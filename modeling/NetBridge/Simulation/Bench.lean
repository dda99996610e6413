import NetBridge.Board.Board
import NetBridge.Pad.Mode
import NetBridge.Simulation.Pin

/-! # Benches

A bench hands out simulated pins for the resources of a board. Every requested leaf
gets a port and a signal for each role of its mode; the processes of the pins are
added when the bench is prepared. -/
namespace NetBridge.Simulation

abbrev PinTree := FieldTree Pin

structure Bench (ρ : Type) where
  simulator : Simulator (PinProcess ⊕ ρ) := {}
  board : Board
  requested : List (String × Option Nat) := []
  /-- Pins whose processes are not there yet. -/
  waiting : List Pin := []

abbrev BenchM (ρ : Type) := EStateM Error (Bench ρ)

namespace Bench

variable {ρ : Type} [Coroutine ρ]

/-- The direction of a pin that is requested without one. -/
def defaultDirection : Direction := .inout

/-- An operation on the simulator alone. -/
def onSimulator {α : Type} (x : SimM (PinProcess ⊕ ρ) α) : BenchM ρ α := fun b =>
  match x b.simulator with
  | .ok a simulator => .ok a { b with simulator }
  | .error e simulator => .error e { b with simulator }

/-- The value of a spec for a single pin. -/
def single {α : Type} (pin : String) (spec : Option (Spec α)) :
    SimM (PinProcess ⊕ ρ) (Option α) :=
  match Spec.single? spec with
  | some value => return value
  | none => throw (.specShape pin)

/-- Refuses a spec for a field that the group does not have. -/
def checkFields {α : Type} (group : String) (fields : List String) (spec : Option (Spec α)) :
    SimM (PinProcess ⊕ ρ) Unit :=
  match Spec.strayField? spec fields with
  | some field => throw (.missingMember group field)
  | none => return ()

/-- A signal for each role. -/
def roleSignals (pin : String) (width : Nat) : List Role → SimM (PinProcess ⊕ ρ) (Table Role SignalId)
  | [] => return []
  | role :: rest => do
    let id ← Simulator.addSignal s!"{pin}_{role.text}" (role.width width)
    return (role, id) :: (← roleSignals pin width rest)

/-- The signals of a pin in the order of the roles. -/
def inRoleOrder (signals : Table Role SignalId) : Table Role SignalId :=
  Role.all.filterMap fun role => (Table.get? signals role).map (role, ·)

def makePin (port pin : String) (pad : PadShape) (direction : Direction) (rate : Nat) :
    SimM (PinProcess ⊕ ρ) Pin := do
  match modeRoles direction rate with
  | .error e => throw (.unsupportedPin e)
  | .ok roles =>
    let id ← Simulator.addSignal port pad.width
    let signals ← roleSignals pin pad.width roles
    return ⟨pin, id, direction, rate, pad.inverted, inRoleOrder signals⟩

mutual

/-- Makes the signals of a layout. The names of ports start with `port`, those of
the logical signals with `pin`. -/
def build (port pin : String) (direction : Option DirectionSpec) (rate : Option RateSpec) :
    Layout → SimM (PinProcess ⊕ ρ) PinTree
  | .leaf pad => do
    let direction ← single pin direction
    let rate ← single pin rate
    return .leaf (← makePin port pin pad (direction.getD defaultDirection) (rate.getD 0))
  | .group fields => do
    checkFields pin (Table.keys fields) direction
    checkFields pin (Table.keys fields) rate
    return .group (← buildFields port pin direction rate fields)

def buildFields (port pin : String) (direction : Option DirectionSpec) (rate : Option RateSpec) :
    List (String × Layout) → SimM (PinProcess ⊕ ρ) (List (String × PinTree))
  | [] => return []
  | (field, layout) :: rest => do
    let tree ← build s!"{port}_{field}" s!"{pin}_{field}" (Spec.forField direction field)
      (Spec.forField rate field) layout
    return (field, tree) :: (← buildFields port pin direction rate rest)

end

/-- Requests the pins of a resource, once. -/
def request (name : String) (index : Option Nat) (direction : Option DirectionSpec)
    (rate : Option RateSpec) : BenchM ρ PinTree := do
  let b ← get
  match b.board.resource? name index with
  | none => throw (.unknownResource (logicalName name index))
  | some resource =>
    let logical := resource.logical
    if b.requested.contains (name, index) then throw (.alreadyRequested logical)
    match resource.layout with
    | .error e => throw (.board e)
    | .ok layout =>
      let tree ← onSimulator (build logical s!"pad_{logical}" direction rate layout)
      modify fun b => { b with
        requested := b.requested ++ [(name, index)]
        waiting := b.waiting ++ tree.leaves }
      return tree

def spawnAll : List Pin → SimM (PinProcess ⊕ ρ) Nat
  | [] => return 0
  | p :: rest => do
    let count ← p.spawn
    return count + (← spawnAll rest)

/-- Adds the processes of the pins that were requested since the last time, and
says how many they are. -/
def prepare : BenchM ρ Nat := do
  let pins := (← get).waiting
  modify fun b => { b with waiting := [] }
  onSimulator (spawnAll pins)

end Bench

end NetBridge.Simulation
