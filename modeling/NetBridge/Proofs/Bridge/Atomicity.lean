import NetBridge.Proofs.Bridge.ConnectionOrder
import NetBridge.Proofs.Bridge.Placement

/-! # Failures leave no trace

An operation of a bridge checks everything that can fail before it changes anything. So a
bridge that has refused an operation is the one that was asked, and goes on as if nothing
had happened. -/
namespace NetBridge.Bridge

open Guest (Generated)

section Checks

variable {α β : Type} {x : BridgeM α} {f : α → BridgeM β} {b b' : Bridge}

/-- If the operation fails, the bridge is as before. -/
def Atomic (x : BridgeM α) (b : Bridge) : Prop := ∀ e b', x b = .error e b' → b' = b

namespace Atomic

theorem of_ok {a : α} (h : x b = .ok a b') : Atomic x b := fun e c failed => by
  cases h.symm.trans failed

theorem of_error {e : BridgeError} (h : x b = .error e b) : Atomic x b := fun _ _ failed =>
  (EStateM.Result.error.inj (h.symm.trans failed)).2.symm

/-- What changes nothing can come before an operation. -/
theorem check (unchanged : stateAfter x b = b) (rest : ∀ a, x b = .ok a b → Atomic (f a) b) :
    Atomic (x >>= f) b := by
  cases h : x b with
  | ok a c =>
    obtain rfl := (stateAfter_ok h).symm.trans unchanged
    intro e d failed
    rw [bind_of_ok h] at failed
    exact rest a h e d failed
  | error e c =>
    obtain rfl := (stateAfter_error h).symm.trans unchanged
    exact of_error (bind_of_error h)

theorem get {f : Bridge → BridgeM β} (rest : Atomic (f b) b) : Atomic (get >>= f) b :=
  check rfl fun a h => by
    obtain ⟨rfl, -⟩ := EStateM.Result.ok.inj h
    exact rest

theorem ensurePhase {f : Unit → BridgeM β} {expected : Phase} {operation : Operation}
    (rest : b.phase = expected → Atomic (f ()) b) :
    Atomic (Bridge.ensurePhase expected operation >>= f) b := by
  by_cases hp : b.phase = expected
  · exact check (stateAfter_ok (ensurePhase_ok hp)) fun _ _ => rest hp
  · exact of_error (bind_of_error (ensurePhase_error hp))

theorem ofGuest {r : Except Guest.Error α} (rest : ∀ a, r = .ok a → Atomic (f a) b) :
    Atomic (Bridge.ofGuest r >>= f) b := by
  cases r with
  | error e => exact of_error (bind_of_error (ofGuest_error e))
  | ok a => exact check rfl fun _ h => (EStateM.Result.ok.inj h).1 ▸ rest a rfl

end Atomic

end Checks

variable {b : Bridge}

theorem connect_atomic (source : Host.SignalId) (target : Guest.Target) (invert : Bool) :
    Atomic (connect source target invert) b :=
  .ensurePhase fun _ => .of_ok (modify_run _)

theorem declareDomain_atomic (name : String) : Atomic (declareDomain name) b := by
  by_cases collecting : b.phase = .collecting
  · rcases declareDomain_declares name collecting with ⟨e, failed⟩ | ⟨b', domain, done, -⟩
    · exact .of_error failed
    · exact .of_ok done
  · exact .of_error (bind_of_error (ensurePhase_error collecting))

theorem importFromGuest_atomic (id : Guest.SignalId) (invert : Bool) :
    Atomic (importFromGuest id invert) b :=
  .ensurePhase fun collecting => .get <| .ofGuest fun s _ => by
    let grown : Bridge := { b with host := (b.host.addSignal s.name s.shape).2 }
    have connected : connect b.host.signals.nextKey (.signal id) invert grown = _ :=
      connect_ok collecting
    exact .of_ok ((bind_of_ok (onHost_run _)).trans (bind_of_ok connected))

theorem importFromHost_atomic (id : Host.SignalId) (name : Option String) (invert : Bool) :
    Atomic (importFromHost id name invert) b := by
  refine .ensurePhase fun collecting => ?_
  cases hs : b.host.signal? id with
  | none => exact .of_error (bind_of_error (hostSignal_error hs))
  | some s =>
    refine .check (stateAfter_ok (hostSignal_ok hs)) fun s _ => ?_
    let grown : Bridge := { b with guest := (b.guest.addSignal (name.getD s.name) s.shape).2 }
    have connected : connect id (.signal b.guest.signals.nextKey) invert grown = _ :=
      connect_ok collecting
    exact .of_ok ((bind_of_ok (modifyGet_run _)).trans (bind_of_ok connected))

theorem emit_atomic : Atomic emit b :=
  .ensurePhase fun _ => .get <| .ofGuest fun _ _ => .of_ok (bind_of_ok (modify_run _))

theorem buildInstance_atomic
    (allocated : ∀ c ∈ b.connections, b.host.signals.contains c.source = true) :
    Atomic buildInstance b := by
  by_cases emitted : b.phase = .emitted
  · cases hb : bindings b.portMap [] b.connections with
    | error e => exact .of_error (buildInstance_of_error emitted hb)
    | ok bs =>
      have sources : bs.map (·.source) = b.connections.map (·.source) := by
        have ends := congrArg (List.map Prod.fst) (bindings_ends hb)
        rwa [List.map_map, List.map_map] at ends
      have there : ∀ x ∈ bs, HasSource b.host x := fun x hx _ => by
        obtain ⟨c, hc, same⟩ := List.mem_map.mp (sources ▸ List.mem_map_of_mem hx)
        exact same ▸ Arena.exists_get? (allocated c hc)
      obtain ⟨inst, built, made, -⟩ := buildInstance_wires emitted hb there
      exact .of_ok made
  · exact .of_error (bind_of_error (ensurePhase_error emitted))

/-- A failure of an operation that collects, of an emission or of building an instance leaves
the whole bridge as it was. Once the guest of a bridge that could not be emitted has been
corrected, the emission is the one of a bridge that never failed. -/
theorem failures_leave_no_trace (b : Bridge)
    (allocated : ∀ c ∈ b.connections, b.host.signals.contains c.source = true) :
    (∀ source target invert, Atomic (connect source target invert) b) ∧
    (∀ name, Atomic (declareDomain name) b) ∧
    (∀ id invert, Atomic (importFromGuest id invert) b) ∧
    (∀ id name invert, Atomic (importFromHost id name invert) b) ∧
    Atomic emit b ∧ Atomic buildInstance b ∧
    ∀ cause b', emit b = .error (.guest cause) b' → ∀ guest : Guest.Netlist,
      emit { b' with guest } = emit { b with guest } ∧
      ∀ g, guest.generate b.name (b.connections.map (·.target)) = .ok g →
        emit { b' with guest } = .ok g.text { b with
          guest
          netlist := some g.text
          portMap := PortMap.ofGenerated guest g
          phase := .emitted } := by
  refine ⟨connect_atomic, declareDomain_atomic, importFromGuest_atomic, importFromHost_atomic,
    emit_atomic, buildInstance_atomic allocated, fun cause b' failed guest => ?_⟩
  obtain rfl := emit_atomic _ _ failed
  refine ⟨rfl, fun g corrected => ?_⟩
  have collecting : b'.phase = .collecting := by
    by_contra other
    rw [emit, bind_of_error (ensurePhase_error other)] at failed
    cases failed
  exact emit_eq_ok.mpr ⟨collecting, g, corrected, rfl, rfl⟩

/-- The guest has a register in a clock domain that nobody has declared. -/
def unclocked : Bridge where
  name := "core"
  host := { name := "top", signals := ⟨#[⟨"a", .bit⟩]⟩ }
  guest :=
    { signals := ⟨#[⟨"clk", .bit, 0⟩, ⟨"rst", .bit, 0⟩, ⟨"q", .bit, 0⟩]⟩
      statements := [⟨⟨2⟩, .unary .not (.signal ⟨2⟩), some "sync"⟩] }
  connections := [⟨⟨0⟩, .signal ⟨2⟩, true⟩]

/-- It cannot be emitted until the domain is there. -/
theorem unclocked_emits_once_corrected :
    (∀ c ∈ unclocked.connections, unclocked.host.signals.contains c.source = true) ∧
    ∃ cause b', emit unclocked = .error (.guest cause) b' ∧
      let guest := { b'.guest with domains := [("sync", ⟨"sync", ⟨0⟩, ⟨1⟩⟩)] }
      ∃ text emitted, emit { b' with guest } = .ok text emitted ∧ emitted.phase = .emitted := by
  have allocated : ∀ c ∈ unclocked.connections,
      unclocked.host.signals.contains c.source = true := by decide
  obtain ⟨cause, b', failed⟩ : ∃ cause b', emit unclocked = .error (.guest cause) b' :=
    ⟨_, _, rfl⟩
  obtain ⟨-, -, -, -, unchanged, -, corrected⟩ := failures_leave_no_trace unclocked allocated
  obtain rfl := unchanged _ _ failed
  refine ⟨allocated, cause, _, failed, ?_⟩
  exact ⟨_, _, (corrected cause _ failed _).2 _ rfl, rfl⟩

end NetBridge.Bridge
