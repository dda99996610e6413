import NetBridge.Bridge.Adaptation
import NetBridge.Proofs.Bridge.Operation

/-! # Runs of a bridge

Connections are made, pads are adapted, and signals and statements are added to both
netlists, in any order. A failed action leaves a state as well, and the run goes on
from it. -/
namespace NetBridge.Bridge

/-- The bridge that an operation leaves behind, failed or not. -/
def after {α : Type} (x : BridgeM α) (b : Bridge) : Bridge :=
  match x b with
  | .ok _ b' => b'
  | .error _ b' => b'

/-- What can be done to a bridge besides emitting it and building its instance. -/
inductive Action where
  | connect (source : Host.SignalId) (target : Guest.Target) (invert : Bool)
  | declareDomain (name : String)
  | importFromGuest (id : Guest.SignalId) (invert : Bool)
  | importFromHost (id : Host.SignalId) (name : Option String) (invert : Bool)
  | adapt (name : String) (direction : Option DirectionSpec) (rate : Option RateSpec)
      (pad : Host.PadTree)
  | addGuestSignal (name : String) (shape : Shape) (reset : Word)
  | addGuestDomain (name : String)
  | driveGuest (domain : Option String) (target : Guest.SignalId) (value : Guest.Expr)
  | addHostSignal (name : String) (shape : Shape)
  | assignHost (target : Host.SignalId) (value : Host.Expr)
  | addPrimitive (p : Host.Primitive)
  /-- Asks for the clock and the reset of a host domain. -/
  | hostDomain (name : String)

def Action.apply : Action → Bridge → Bridge
  | connect source target invert, b => after (Bridge.connect source target invert) b
  | declareDomain name, b => after (Bridge.declareDomain name) b
  | importFromGuest id invert, b => after (Bridge.importFromGuest id invert) b
  | importFromHost id name invert, b => after (Bridge.importFromHost id name invert) b
  | adapt name direction rate pad, b => after (Bridge.adapt name direction rate pad) b
  | addGuestSignal name shape reset, b =>
    { b with guest := (b.guest.addSignal name shape reset).2 }
  | addGuestDomain name, b =>
    match b.guest.addDomain name with
    | .ok (_, guest) => { b with guest }
    | .error _ => b
  | driveGuest domain target value, b => { b with guest := b.guest.drive domain target value }
  | addHostSignal name shape, b => { b with host := (b.host.addSignal name shape).2 }
  | assignHost target value, b => { b with host := b.host.assign target value }
  | addPrimitive p, b => { b with host := b.host.addPrimitive p }
  | hostDomain name, b => { b with host := (b.host.domain name).2 }

def run (actions : List Action) (b : Bridge) : Bridge := actions.foldl (fun b a => a.apply b) b

/-- An operation that insists on the collecting phase first. -/
theorem after_ensurePhase {α : Type} {operation : Operation} {f : Unit → BridgeM α} {b : Bridge}
    (h : b.phase ≠ .collecting) : after (ensurePhase .collecting operation >>= f) b = b := by
  rw [after, bind_of_error (ensurePhase_error h)]

theorem after_adapt {name : String} {direction : Option DirectionSpec} {rate : Option RateSpec}
    {pad : Host.PadTree} {b : Bridge} (h : b.phase ≠ .collecting) :
    after (Bridge.adapt name direction rate pad) b = b := by
  cases pad with
  | leaf pad =>
    rw [Bridge.adapt]
    exact after_ensurePhase h
  | group fields =>
    rw [Bridge.adapt]
    exact after_ensurePhase h

/-- No action changes what emission has sealed. -/
theorem Sealed.apply {emitted b : Bridge} (h : Sealed emitted b) (a : Action) :
    Sealed emitted (a.apply b) := by
  have hp : b.phase ≠ .collecting := by simp [h.phase]
  cases a with
  | connect source target invert =>
    have : after (Bridge.connect source target invert) b = b := after_ensurePhase hp
    rwa [Action.apply, this]
  | declareDomain name =>
    have : after (Bridge.declareDomain name) b = b := after_ensurePhase hp
    rwa [Action.apply, this]
  | importFromGuest id invert =>
    have : after (Bridge.importFromGuest id invert) b = b := after_ensurePhase hp
    rwa [Action.apply, this]
  | importFromHost id name invert =>
    have : after (Bridge.importFromHost id name invert) b = b := after_ensurePhase hp
    rwa [Action.apply, this]
  | adapt name direction rate pad => rwa [Action.apply, after_adapt hp]
  | addGuestDomain name =>
    rw [Action.apply]
    split
    · exact ⟨h.phase, h.name, h.connections, h.portMap⟩
    · exact h
  | addGuestSignal | driveGuest | addHostSignal | assignHost | addPrimitive | hostDomain =>
    exact ⟨h.phase, h.name, h.connections, h.portMap⟩

theorem Sealed.run {emitted b : Bridge} (h : Sealed emitted b) (actions : List Action) :
    Sealed emitted (run actions b) := by
  induction actions generalizing b with
  | nil => exact h
  | cons a rest ih => exact ih (h.apply a)

end NetBridge.Bridge
