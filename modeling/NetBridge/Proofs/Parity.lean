import NetBridge.Proofs.Bridge.Request
import NetBridge.Proofs.Simulation.Exposure

/-! # Parity of hardware and simulation

A resource that is requested for a build and the same resource requested on a bench are
read by two walks over the layout, each with its own names and its own errors. What
comes out is the same: it is what the request exposes. -/
namespace NetBridge

open Exposure (expose)
open Simulation (Bench)

/-- A fresh build and a fresh bench answer a request alike: with the members that it
exposes, or with the refusal that it meets first. Only the direction of a leaf that is
reached without one is left to each side. -/
theorem request_parity {σ ρ : Type} (bridgeName : String) (host : Host.Netlist) (storage : σ)
    {board : Board} {name : String} {index : Option Nat} {resource : Resource} {layout : Layout}
    (found : board.resource? name index = some resource) (valid : resource.layout = .ok layout)
    (fits : ∀ pad ∈ layout.leaves, 0 < pad.width ∧ pad.width ≤ 64)
    (direction : Option DirectionSpec) (rate : Option RateSpec) :
    let hardware := Build.request name index direction rate
      ⟨{ name := bridgeName, host }, { board }, storage⟩
    let simulation := Bench.request name index direction rate ({ board } : Bench ρ)
    match expose s!"pad_{logicalName name index}" direction rate layout with
    | .ok members =>
      (∃ c s, hardware = .ok c s ∧ c.exposed s.bridge.guest = members) ∧
        ∃ pins b, simulation = .ok pins b ∧ pins.exposed b.simulator.signals = members
    | .error (.missingMember node member) =>
      (∃ s, hardware = .error (.missingMember node member) s) ∧
        ∃ b, simulation = .error (.missingMember node member) b
    | .error (.specShape node) =>
      (∃ s, hardware = .error (.specShape node) s) ∧ ∃ b, simulation = .error (.specShape node) b
    | .error (.unsupported mode) =>
      (∃ s, hardware = .error (.unsupportedPad mode) s) ∧
        ∃ b, simulation = .error (.unsupportedPin mode) b
    | .error .undirected => True := by
  intro hardware simulation
  have logical : resource.logical = logicalName name index := by
    have answers := List.find?_some found
    simp only [Resource.answers, Bool.and_eq_true, beq_iff_eq] at answers
    rw [Resource.logical, answers.1, answers.2]
  have inHardware := Build.request_follows
    (s := ⟨{ name := bridgeName, host }, { board }, storage⟩) rfl rfl rfl found valid direction rate
  have inSimulation := Bench.request_follows (b := ({ board } : Bench ρ)) rfl found valid fits
    direction rate
  rw [logical] at inSimulation
  generalize expose s!"pad_{logicalName name index}" direction rate layout = expected
    at inHardware inSimulation ⊢
  cases expected with
  | ok members => exact ⟨inHardware, inSimulation⟩
  | error refusal =>
    cases refusal with
    | missingMember node member => exact ⟨inHardware _ rfl, inSimulation _ rfl⟩
    | specShape node => exact ⟨inHardware _ rfl, inSimulation _ rfl⟩
    | unsupported mode => exact ⟨inHardware _ rfl, inSimulation _ rfl⟩
    | undirected => trivial

/-- A bus of eight bits with an active-low strobe. -/
def bus : Resource where
  name := "bus"
  index := some 0
  node := .mk none false [("data", .mk (some 8) false []), ("strobe", .mk (some 1) true [])]

def busLayout : Layout := .group [("data", .leaf ⟨8, false⟩), ("strobe", .leaf ⟨1, true⟩)]

def busDirections : DirectionSpec := .group [("data", .leaf .inout), ("strobe", .leaf .output)]

theorem bus_parity :
    ({ resources := [bus] } : Board).resource? "bus" (some 0) = some bus ∧
    bus.layout = .ok busLayout ∧
    (∀ pad ∈ busLayout.leaves, 0 < pad.width ∧ pad.width ≤ 64) ∧
    ∃ members,
      (∃ c s, Build.request "bus" (some 0) (some busDirections) (some (.leaf 1))
          (⟨{ name := "core", host := { name := "top" } }, { board := { resources := [bus] } }, {}⟩ :
            Build Disk) = .ok c s ∧ c.exposed s.bridge.guest = members) ∧
      ∃ pins b, Bench.request "bus" (some 0) (some busDirections) (some (.leaf 1))
          ({ board := { resources := [bus] } } : Bench Empty) = .ok pins b ∧
        pins.exposed b.simulator.signals = members := by
  have found : ({ resources := [bus] } : Board).resource? "bus" (some 0) = some bus := by
    simp [Board.resource?, Resource.answers, bus]
  have valid : bus.layout = .ok busLayout := rfl
  have fits : ∀ pad ∈ busLayout.leaves, 0 < pad.width ∧ pad.width ≤ 64 := by decide
  have parity := request_parity "core" { name := "top" } ({} : Disk) found valid fits
    (ρ := Empty) (some busDirections) (some (.leaf 1))
  generalize hexpected : expose _ (some busDirections) (some (.leaf 1)) busLayout = expected
    at parity
  have granted : expected.isOk = true := by
    rw [← hexpected]
    decide +kernel
  cases expected with
  | error e => cases granted
  | ok members => exact ⟨found, valid, fits, members, parity⟩

end NetBridge
