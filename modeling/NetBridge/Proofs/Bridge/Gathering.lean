import NetBridge.Proofs.Bridge.Change
import NetBridge.Proofs.Bridge.Finalization
import NetBridge.Proofs.Bridge.Request

/-! # Operations that seal nothing

Whatever collects may add signals, primitives and connections, and fail in the middle.
What emission seals stays as it was, and no instance is put into the host. That also
holds of a construction that fails. -/
namespace NetBridge

namespace Host.Netlist

theorem instances_addInstance (m : Netlist) (inst : Instance) :
    (m.addPrimitive (.blackBox inst)).instances = m.instances ++ [inst] := by
  simp [instances, addPrimitive, Primitive.instance?]

theorem instances_of_primitives {m m' : Netlist} (h : m'.primitives = m.primitives) :
    m'.instances = m.instances := by
  rw [instances, h, instances]

end Host.Netlist

namespace Bridge

/-- Signals may have been added, and connections if the bridge collects. What emission
seals is as it was, and no instance has been put into the host. -/
structure Gathers (b b' : Bridge) : Prop where
  phase : b'.phase = b.phase
  netlist : b'.netlist = b.netlist
  portMap : b'.portMap = b.portMap
  instances : b'.host.instances = b.host.instances
  connections : b.phase ≠ .collecting → b'.connections = b.connections

theorem Gathers.refl (b : Bridge) : Gathers b b := ⟨rfl, rfl, rfl, rfl, fun _ => rfl⟩

theorem Gathers.trans {a b c : Bridge} (hab : Gathers a b) (hbc : Gathers b c) : Gathers a c where
  phase := hbc.phase.trans hab.phase
  netlist := hbc.netlist.trans hab.netlist
  portMap := hbc.portMap.trans hab.portMap
  instances := hbc.instances.trans hab.instances
  connections ha := by rw [hbc.connections (by rwa [hab.phase]), hab.connections ha]

/-- The operation only gathers, failed or not. -/
def Gathering {α : Type} (x : BridgeM α) : Prop := ∀ b, Gathers b (after x b)

theorem Gathers.admits : Admits Gathers where
  refl := .refl
  trans := .trans
  connection _ _ collecting := ⟨rfl, rfl, rfl, rfl, fun sealed => absurd collecting sealed⟩
  host _ _ _ instances := ⟨rfl, rfl, rfl, instances, fun _ => rfl⟩
  guest _ _ _ := ⟨rfl, rfl, rfl, rfl, fun _ => rfl⟩

namespace Gathering

theorem connect (source : Host.SignalId) (target : Guest.Target) (invert : Bool) :
    Gathering (Bridge.connect source target invert) := fun _ => Gathers.admits.connect ..

theorem declareDomain (name : String) : Gathering (Bridge.declareDomain name) :=
  fun _ => Gathers.admits.declareDomain name

theorem importFromGuest (id : Guest.SignalId) (invert : Bool) :
    Gathering (Bridge.importFromGuest id invert) := fun _ => Gathers.admits.importFromGuest ..

theorem importFromHost (id : Host.SignalId) (name : Option String) (invert : Bool) :
    Gathering (Bridge.importFromHost id name invert) := fun _ => Gathers.admits.importFromHost ..

theorem adapt (name : String) (direction : Option DirectionSpec) (rate : Option RateSpec)
    (pads : Host.PadTree) : Gathering (Bridge.adapt name direction rate pads) :=
  fun b => Gathers.admits.adapt (Gathers.admits.adaptFresh fun _ _ => ⟨rfl, rfl, rfl, rfl, fun _ => rfl⟩)
    name direction rate pads b

end Gathering

/-- What emission seals is the same in both states. -/
structure Frozen (b b' : Bridge) : Prop where
  connections : b'.connections = b.connections
  portMap : b'.portMap = b.portMap
  netlist : b'.netlist = b.netlist

theorem Frozen.refl (b : Bridge) : Frozen b b := ⟨rfl, rfl, rfl⟩

theorem Frozen.trans {a b c : Bridge} (hab : Frozen a b) (hbc : Frozen b c) : Frozen a c :=
  ⟨hbc.connections.trans hab.connections, hbc.portMap.trans hab.portMap,
    hbc.netlist.trans hab.netlist⟩

theorem Gathers.frozen {b b' : Bridge} (h : Gathers b b') (emitted : b.phase ≠ .collecting) :
    Frozen b b' :=
  ⟨h.connections emitted, h.portMap, h.netlist⟩

/-- A failed construction may leave inverters behind, but no more. -/
theorem buildInstance_gathers {b b' : Bridge} {e : BridgeError}
    (h : buildInstance b = .error e b') : Gathers b b' := by
  by_cases hp : b.phase = .emitted
  · cases hb : bindings b.portMap [] b.connections with
    | error cause =>
      obtain ⟨-, rfl⟩ := EStateM.Result.error.inj ((buildInstance_of_error hp hb).symm.trans h)
      exact .refl b
    | ok bs =>
      rw [buildInstance_of_ok hp hb] at h
      rcases bind_eq_error.mp h with failed | ⟨inst, c, -, h⟩
      · have gathers : Gathers b (after (bindAll ⟨b.name, []⟩ bs) b) := Gathers.admits.bindAll _ bs
        rwa [after, failed] at gathers
      · cases h
  · rw [buildInstance, bind_of_error (ensurePhase_error hp)] at h
    obtain ⟨-, rfl⟩ := EStateM.Result.error.inj h
    exact .refl b

end Bridge

namespace Platform

open Host (PadTree)

mutual

/-- Allocation makes signals and nothing else. -/
theorem allocate_signals (name : String) : ∀ (layout : Layout) (host : Host.Netlist),
    ∃ signals, ((allocate name layout).run host).2 = { host with signals }
  | .leaf _, _ => ⟨_, rfl⟩
  | .group fields, host => allocateFields_signals name fields host

theorem allocateFields_signals (name : String) :
    ∀ (fields : List (String × Layout)) (host : Host.Netlist),
      ∃ signals, ((allocateFields name fields).run host).2 = { host with signals }
  | [], host => ⟨host.signals, rfl⟩
  | (field, layout) :: rest, host => by
    let host₁ := ((allocate s!"{name}_{field}" layout).run host).2
    obtain ⟨_, first⟩ := allocate_signals s!"{name}_{field}" layout host
    obtain ⟨signals, others⟩ := allocateFields_signals name rest host₁
    exact ⟨signals, others.trans (by rw [show host₁ = _ from first])⟩

end

/-- A request hands out what an earlier one of the same resource was handed out, or makes
new signals and remembers them. -/
theorem request_ok {p p' : Platform} {host host' : Host.Netlist} {name : String}
    {index : Option Nat} {pads : PadTree} (h : p.request host name index = .ok (pads, p', host')) :
    (Table.get? p.allocated (name, index) = some pads ∧ p' = p ∧ host' = host) ∨
    Table.get? p.allocated (name, index) = none ∧
      p' = { p with allocated := p.allocated ++ [((name, index), pads)] } ∧
      HandsOut host host' pads.leaves ∧ ∃ signals, host' = { host with signals } := by
  rw [request] at h
  split at h
  · rename_i earlier
    cases Except.ok.inj h
    exact .inl ⟨earlier, rfl, rfl⟩
  · rename_i new
    split at h
    · cases h
    · rename_i resource _
      split at h
      · cases h
      · rename_i layout _
        cases Except.ok.inj h
        exact .inr ⟨new, rfl, (allocate_handsOut resource.logical layout host).2,
          allocate_signals resource.logical layout host⟩

/-- A request leaves the primitives of the host and the files of the platform alone. -/
theorem request_keeps {p p' : Platform} {host host' : Host.Netlist} {name : String}
    {index : Option Nat} {pads : PadTree} (h : p.request host name index = .ok (pads, p', host')) :
    host'.primitives = host.primitives ∧ p'.sources = p.sources := by
  rcases request_ok h with ⟨-, rfl, rfl⟩ | ⟨-, rfl, -, signals, rfl⟩
  · exact ⟨rfl, rfl⟩
  · exact ⟨rfl, rfl⟩

end Platform

namespace Build

open Bridge (Gathering Gathers)

variable {σ : Type}

theorem stateAfter_onBridge {α : Type} (x : BridgeM α) (s : Build σ) :
    stateAfter (onBridge x) s = { s with bridge := Bridge.after x s.bridge } := by
  cases h : x s.bridge with
  | ok a b => rw [stateAfter_ok (onBridge_ok h), Bridge.after, h]
  | error e b => rw [stateAfter_error (onBridge_error h), Bridge.after, h]

/-- A request that the platform refuses leaves the build as it was. Otherwise the pads are
adapted, whatever comes of it. -/
theorem request_cases (name : String) (index : Option Nat) (direction : Option DirectionSpec)
    (rate : Option RateSpec) (s : Build σ) :
    stateAfter (request name index direction rate) s = s ∨
    ∃ pads platform host, s.platform.request s.bridge.host name index = .ok (pads, platform, host) ∧
      stateAfter (request name index direction rate) s = { s with
        platform
        bridge := Bridge.after (Bridge.adapt s!"pad_{logicalName name index}" direction rate pads)
          { s.bridge with host } } := by
  cases h : s.platform.request s.bridge.host name index with
  | error e =>
    have refused : requestPads name index s = .error (.platform e) s := by
      rw [requestPads, bind_of_ok get_run, h]
      rfl
    exact .inl (stateAfter_error (bind_of_error refused))
  | ok handedOut =>
    obtain ⟨pads, platform, host⟩ := handedOut
    let s₁ : Build σ := { s with platform, bridge := { s.bridge with host } }
    have granted : requestPads name index s = .ok pads s₁ := by
      rw [requestPads, bind_of_ok get_run, h]
      rfl
    have adapted := stateAfter_onBridge
      (Bridge.adapt s!"pad_{logicalName name index}" direction rate pads) s₁
    refine .inr ⟨pads, platform, host, rfl, Eq.trans ?_ adapted⟩
    rw [stateAfter, request, bind_of_ok granted, ← stateAfter]

/-- A request gathers for the bridge and tells the platform about no file. -/
theorem request_gathers (name : String) (index : Option Nat) (direction : Option DirectionSpec)
    (rate : Option RateSpec) (s : Build σ) :
    let s' := stateAfter (request name index direction rate) s
    Gathers s.bridge s'.bridge ∧ s'.platform.sources = s.platform.sources := by
  dsimp only
  rcases request_cases name index direction rate s with same | ⟨pads, platform, host, h, result⟩
  · rw [same]
    exact ⟨.refl _, rfl⟩
  · obtain ⟨primitives, sources⟩ := Platform.request_keeps h
    rw [result]
    refine ⟨Gathers.trans ?_ (Gathering.adapt _ direction rate pads _), sources⟩
    exact ⟨rfl, rfl, rfl, Host.Netlist.instances_of_primitives primitives, fun _ => rfl⟩

end Build

end NetBridge
