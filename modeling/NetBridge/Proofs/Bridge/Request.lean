import NetBridge.Bridge.Build
import NetBridge.Proofs.Bridge.Exposure

/-! # Requests of a build

The first request of a resource makes one new host signal for every leaf of its layout,
and adapting these exposes what the request does. -/
namespace NetBridge

open Exposure (Follows expose)
open Host (Pad PadTree)

namespace Platform

/-- The second host has a new signal for each of the pads. -/
structure HandsOut (host host' : Host.Netlist) (pads : List Pad) : Prop where
  adds : host.signals.Adds host'.signals (pads.map (·.signal))
  stands : ∀ pad ∈ pads, host'.Stands (.unsignedBits pad.width) pad.signal

theorem HandsOut.nil (host : Host.Netlist) : HandsOut host host [] := ⟨.refl _, by simp⟩

theorem HandsOut.one (host : Host.Netlist) (name : String) (width : Nat) (inverted : Bool) :
    HandsOut host (host.addSignal name (.unsignedBits width)).2
      [⟨host.signals.nextKey, width, inverted⟩] where
  adds := .push _ _
  stands := List.forall_mem_singleton.mpr ⟨name, Arena.get?_push_nextKey _ _⟩

theorem HandsOut.append {a b c : Host.Netlist} {xs ys : List Pad} (hab : HandsOut a b xs)
    (hbc : HandsOut b c ys) : HandsOut a c (xs ++ ys) where
  adds := by
    rw [List.map_append]
    exact hab.adds.append hbc.adds
  stands := List.forall_mem_append.mpr
    ⟨fun pad hpad => (hab.stands pad hpad).extends hbc.adds.grown, hbc.stands⟩

mutual

/-- The pads have the form of the layout. -/
theorem allocate_handsOut (name : String) : ∀ (layout : Layout) (host : Host.Netlist),
    ((allocate name layout).run host).1.map Bridge.padShape = layout ∧
      HandsOut host ((allocate name layout).run host).2
        ((allocate name layout).run host).1.leaves
  | .leaf pad, host => ⟨rfl, .one host name pad.width pad.inverted⟩
  | .group fields, host => by
    obtain ⟨form, out⟩ := allocateFields_handsOut name fields host
    exact ⟨congrArg FieldTree.group form, out⟩

theorem allocateFields_handsOut (name : String) :
    ∀ (fields : List (String × Layout)) (host : Host.Netlist),
      FieldTree.mapFields Bridge.padShape ((allocateFields name fields).run host).1 = fields ∧
        HandsOut host ((allocateFields name fields).run host).2
          (FieldTree.fieldLeaves ((allocateFields name fields).run host).1)
  | [], host => ⟨rfl, .nil host⟩
  | (field, layout) :: rest, host => by
    obtain ⟨form, out⟩ := allocate_handsOut s!"{name}_{field}" layout host
    obtain ⟨formRest, outRest⟩ := allocateFields_handsOut name rest
      ((allocate s!"{name}_{field}" layout).run host).2
    refine ⟨?_, out.append outRest⟩
    have first := congrArg (Prod.mk field) form
    exact congrArg₂ List.cons first formRest

end

end Platform

namespace Build

variable {σ : Type} {s : Build σ}

/-- An operation on the bridge follows what it follows there. -/
theorem onBridge_follows {α β : Type} {x : BridgeM α} {expected : Except Refusal β}
    {good : α → Bridge → β → Prop}
    (h : Follows Refusal.bridgeError? good (x s.bridge) expected) :
    Follows Refusal.bridgeError? (fun a s' b => good a s'.bridge b) (onBridge x s) expected := by
  rw [onBridge]
  cases expected with
  | ok b =>
    obtain ⟨a, bridge, hrun, hgood⟩ := h
    rw [hrun]
    exact .ok hgood
  | error refusal =>
    intro e he
    obtain ⟨bridge, hrun⟩ := h e he
    rw [hrun]
    exact ⟨_, rfl⟩

/-- The first request for pads makes their signals. -/
theorem requestPads_fresh {name : String} {index : Option Nat} {resource : Resource}
    {layout : Layout} (fresh : s.platform.allocated = [])
    (found : s.platform.board.resource? name index = some resource)
    (valid : resource.layout = .ok layout) :
    requestPads name index s =
      let made := (Platform.allocate resource.logical layout).run s.bridge.host
      .ok made.1 { s with
        bridge := { s.bridge with host := made.2 }
        platform := { s.platform with allocated := [((name, index), made.1)] } } := by
  have handedOut : s.platform.request s.bridge.host name index =
      let made := (Platform.allocate resource.logical layout).run s.bridge.host
      .ok (made.1, { s.platform with allocated := [((name, index), made.1)] }, made.2) := by
    rw [Platform.request, fresh]
    simp only [Table.get?, found, valid]
    rfl
  rw [requestPads, bind_of_ok get_run, handedOut]
  rfl

/-- A request on a fresh platform, for a bridge to which nothing has been adapted. -/
theorem request_follows {name : String} {index : Option Nat} {resource : Resource}
    {layout : Layout} (collecting : s.bridge.phase = .collecting) (unadapted : s.bridge.pads = [])
    (fresh : s.platform.allocated = [])
    (found : s.platform.board.resource? name index = some resource)
    (valid : resource.layout = .ok layout) (direction : Option DirectionSpec)
    (rate : Option RateSpec) :
    Follows Refusal.bridgeError? (fun c s' expected => c.exposed s'.bridge.guest = expected)
      (request name index direction rate s)
      (expose s!"pad_{logicalName name index}" direction rate layout) := by
  obtain ⟨form, out⟩ := Platform.allocate_handsOut resource.logical layout s.bridge.host
  let made := (Platform.allocate resource.logical layout).run s.bridge.host
  let s₁ : Build σ := { s with
    bridge := { s.bridge with host := made.2 }
    platform := { s.platform with allocated := [((name, index), made.1)] } }
  have untouched : Bridge.Untouched s₁.bridge made.1.leaves :=
    ⟨collecting, out.stands, out.adds.nodup, by simp [s₁, unadapted, Table.keys]⟩
  have adapted := Bridge.adapt_follows s!"pad_{logicalName name index}" direction rate made.1
    untouched
  rw [form] at adapted
  rw [request, bind_of_ok (requestPads_fresh fresh found valid)]
  exact (onBridge_follows (s := s₁) adapted).mono fun c s' expected h => h.1.exposes.members

end Build

end NetBridge
