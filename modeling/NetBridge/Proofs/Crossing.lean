import NetBridge.Proofs.Bridge.Inversion
import NetBridge.Proofs.Simulation.RateZero

/-! # What crosses a port

A simulated pin without a clock and the connection that is synthesized for it compute the
same function. The connection does so at all times. The pin is driven by changes, so that
the one difference is a port that has never changed: behind an active-low port a zero
reads as a zero until then. -/
namespace NetBridge

open Simulation (Bench Coroutine Minted Mirrors PinTree Rounds)
open Simulation.Simulator (value?)
open Simulation.Bench (Action run)
open Bridge (Carries Realized)

/-- A pin that was requested at rate 0, on a bench that is prepared before anything is
written, and runs that leave the signals alone that the pin writes. In every settled
state the pin shows on one side what crosses its port from the other side, in the way of
the connections that a bridge makes for the pad. -/
theorem settled_pin_matches_connection {ρ : Type} [Coroutine ρ] (board : Board) (maxDeltas : Nat)
    (before between later : List Action) {name : String} {index : Option Nat}
    {direction : Option DirectionSpec} {rate : Option RateSpec} {tree : PinTree} {granted : Bench ρ}
    (request : Bench.request name index direction rate
      (run before { board, simulator := { maxDeltas } }) = .ok tree granted)
    {p : Simulation.Pin} (hp : p ∈ tree.leaves) (hrate : p.rate = 0) :
    let prepared := (run (between ++ .prepare :: later) granted).simulator
    ∃ port width, Minted prepared.signals port width p ∧
      (p.direction.samples = true → ∃ i, p.signal? .i = some i ∧
        ∀ now earlier, Rounds p.spared prepared (now :: earlier) →
          Mirrors p.invert width p.port i now earlier) ∧
      (p.direction.drives = true → ∃ o, p.signal? .o = some o ∧
        ∀ now earlier, Rounds p.spared prepared (now :: earlier) →
          Mirrors p.invert width o p.port now earlier) ∧
      ∀ pad signals sealed inst built, Realized pad p.direction p.rate signals sealed inst built →
        pad.inverted = p.invert → pad.width = width →
        ∀ r ∈ [Role.i, Role.o], ∀ g, Table.get? signals r = some g →
          ∃ outer info inner, ⟨outer, .signal g, p.invert⟩ ∈ sealed.connections ∧
            sealed.portMap.lookup (.signal g) = .ok info ∧ inst.port? info.label = some inner ∧
            Carries built.host info.direction p.invert width inner outer := by
  intro prepared
  obtain ⟨attached, plugged, -⟩ := (Bench.Plugged.fresh (ρ := ρ) board maxDeltas).run before
  obtain ⟨plugged, waiting⟩ := plugged.request request
  obtain ⟨final, h, there⟩ :=
    plugged.attached_after_prepare (.inl (waiting p hp)) between later
  obtain ⟨port, width, ports, sampled, driven⟩ := h.links there hrate
  refine ⟨port, width, ports, fun samples => ?_, fun drives => ?_, ?_⟩
  · obtain ⟨i, feed, hi, hfeed, poised⟩ := sampled samples
    refine ⟨i, hi, fun now earlier rounds => ?_⟩
    have spared : i ∈ p.spared := List.mem_append_left _ (by simp [hi])
    have port_spared : feed.isSome = true → p.port ∈ p.spared := fun hf =>
      List.mem_append_right _ (by simp [← hfeed, hf])
    obtain ⟨idle, poised⟩ := poised.rounds spared port_spared h.idle rounds
    exact poised.mirrors idle
  · obtain ⟨o, ho, poised⟩ := driven drives
    refine ⟨o, ho, fun now earlier rounds => ?_⟩
    have spared : p.port ∈ p.spared := List.mem_append_right _ (by simp [drives])
    obtain ⟨idle, poised⟩ := poised.rounds spared (by simp) h.idle rounds
    exact poised.mirrors idle
  · rintro pad signals sealed inst built realized inverted rfl r hr g hg
    have data : r.isData = true := by
      rcases List.mem_pair.mp hr with rfl | rfl <;> rfl
    rw [← inverted]
    exact realized.carries hg data

/-- A push button that pulls its port down. -/
def button : Resource where
  name := "btn"
  index := none
  node := .mk (some 1) true []

def buttonBench : Bench Simulation.PinProcess := { board := { resources := [button] } }

def buttonPin : Simulation.Pin := ⟨"pad_btn", ⟨0⟩, .input, 0, true, [(.i, ⟨1⟩)]⟩

def buttonGranted : Bench Simulation.PinProcess where
  simulator := { signals := ⟨#[⟨"btn", 1, 0⟩, ⟨"pad_btn_i", 1, 0⟩]⟩ }
  board := { resources := [button] }
  requested := [("btn", none)]
  waiting := [buttonPin]

theorem button_granted : Bench.request "btn" none (some (.leaf .input)) (some (.leaf 0))
    buttonBench = .ok (.leaf buttonPin) buttonGranted := rfl

/-- Nothing has moved the port yet: it is at zero and so is the sample, as if the button
were not pressed. -/
theorem untouched_button_reads_zero :
    Bench.request "btn" none (some (.leaf .input)) (some (.leaf 0)) buttonBench =
      .ok (.leaf buttonPin) buttonGranted ∧
    buttonPin.rate = 0 ∧ buttonPin.invert = true ∧ buttonPin.signal? .i = some ⟨1⟩ ∧
    let prepared := (run [.prepare] buttonGranted).simulator
    value? prepared.signals buttonPin.port = some 0 ∧ value? prepared.signals ⟨1⟩ = some 0 ∧
      value? prepared.signals ⟨1⟩ ≠ some (Word.crossed buttonPin.invert 1 0) :=
  ⟨button_granted, rfl, rfl, rfl, rfl, rfl, by decide⟩

def buttonPad : Host.Pad := ⟨⟨0⟩, 1, true⟩

/-- A bridge whose host has the pad of the button. -/
def buttonBridge : Bridge where
  name := "core"
  host := { name := "top", signals := ⟨#[⟨"btn", .bit⟩]⟩ }

def buttonAdapted : Bridge :=
  { buttonBridge with
    guest := { signals := ⟨#[⟨"pad_btn_i", .bit, 0⟩]⟩ }
    connections := [⟨⟨0⟩, .signal ⟨0⟩, true⟩]
    pads := [(⟨0⟩, ⟨.input, 0, .leaf "pad_btn" (.ofRoles [.i] ⟨1, false⟩) [(.i, ⟨0⟩)]⟩)] }

def buttonSealed : Bridge := stateAfter Bridge.emit buttonAdapted

theorem button_adapted : Bridge.adaptLeaf "pad_btn" buttonPad .input 0 buttonBridge =
    .ok (.leaf "pad_btn" (.ofRoles [.i] ⟨1, false⟩) [(.i, ⟨0⟩)]) buttonAdapted := by
  have roles : modeRoles .input 0 = .ok [.i] := rfl
  exact (Bridge.adaptLeaf_fresh roles (by decide) rfl).trans rfl

theorem button_realized : Realized buttonPad .input 0 [(.i, ⟨0⟩)] buttonSealed
    ⟨"core", [("i_pad_btn_i", ⟨1⟩)]⟩ (stateAfter Bridge.buildInstance buttonSealed) where
  adapted := ⟨_, _, buttonBridge, buttonAdapted, rfl, rfl, ⟨"btn", rfl⟩, button_adapted, .refl _,
    List.Subset.refl _⟩
  emitted := rfl
  sources := by decide
  allocated := by decide
  construction := rfl

/-- The bench with the button after its release has settled. -/
def buttonReleased : Simulation.Simulator (Simulation.PinProcess ⊕ Simulation.PinProcess) where
  signals := ⟨#[⟨"btn", 1, 1⟩, ⟨"pad_btn_i", 1, 0⟩]⟩
  slots := [⟨.inl (.follow ⟨0⟩ ⟨1⟩ 1), .change ⟨0⟩⟩]
  totalDeltas := 2

theorem button_settles :
    Simulation.Simulator.settle ((run [.prepare] buttonGranted).simulator.write (⟨0⟩, 1)) =
      .ok 2 buttonReleased := rfl

/-- Releasing the button moves the port, and from then on the sample is right. In hardware
it is right from the start. -/
theorem button_matches_connection :
    Bench.request "btn" none (some (.leaf .input)) (some (.leaf 0)) buttonBench =
      .ok (.leaf buttonPin) buttonGranted ∧
    buttonPin ∈ FieldTree.leaves (.leaf buttonPin) ∧ buttonPin.rate = 0 ∧
    (let prepared := (run [.prepare] buttonGranted).simulator
    Rounds buttonPin.spared prepared [buttonReleased, prepared] ∧
      value? buttonReleased.signals buttonPin.port = some 1 ∧
      Mirrors true 1 buttonPin.port ⟨1⟩ buttonReleased [prepared]) ∧
    ∃ (outer : Host.SignalId) (info : PortInfo) (inner : Host.SignalId),
      ⟨outer, .signal ⟨0⟩, true⟩ ∈ buttonSealed.connections ∧
      buttonSealed.portMap.lookup (.signal ⟨0⟩) = .ok info ∧
      Carries (stateAfter Bridge.buildInstance buttonSealed).host info.direction true 1 inner
        outer := by
  have there : buttonPin ∈ FieldTree.leaves (.leaf buttonPin) := List.mem_singleton_self _
  obtain ⟨port, width, minted, sampled, -, connected⟩ :=
    settled_pin_matches_connection { resources := [button] } 1000 [] [] [] button_granted there rfl
  obtain ⟨i, hi, mirrors⟩ := sampled rfl
  obtain rfl : ⟨1⟩ = i := Option.some.inj hi
  obtain rfl : 1 = width := by
    obtain ⟨v, hv⟩ := minted.port
    exact congrArg Simulation.Signal.width (Option.some.inj hv)
  obtain ⟨outer, info, inner, hc, hinfo, -, carries⟩ :=
    connected _ _ _ _ _ button_realized rfl rfl .i (by simp) ⟨0⟩ rfl
  have rounds : Rounds buttonPin.spared (run [.prepare] buttonGranted).simulator
      [buttonReleased, (run [.prepare] buttonGranted).simulator] :=
    .settle [(⟨0⟩, 1)] .start (List.forall_mem_singleton.mpr (by decide)) button_settles
  exact ⟨button_granted, there, rfl, ⟨rounds, rfl, mirrors _ _ rounds⟩, outer, info, inner, hc,
    hinfo, carries⟩

end NetBridge
