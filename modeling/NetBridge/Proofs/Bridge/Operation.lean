import NetBridge.Bridge.Emission
import NetBridge.Proofs.Running

/-! # Running bridge operations

These are the results of the steps that bridge operations are made of, and of the
operations that seal a bridge. -/
namespace NetBridge.Bridge

section Steps

variable {α : Type} {b : Bridge}

@[simp] theorem ofGuest_ok (a : α) : ofGuest (.ok a) b = .ok a b := rfl

@[simp] theorem ofGuest_error (e : Guest.Error) :
    (ofGuest (.error e) : BridgeM α) b = .error (.guest e) b := rfl

theorem onHost_run (change : Host.Netlist → α × Host.Netlist) :
    onHost change b = .ok (change b.host).1 { b with host := (change b.host).2 } := rfl

theorem ensurePhase_ok {expected : Phase} {operation : Operation} (h : b.phase = expected) :
    ensurePhase expected operation b = .ok () b := by
  rw [ensurePhase, bind_of_ok get_run]
  simp [h]

theorem ensurePhase_error {expected : Phase} {operation : Operation} (h : b.phase ≠ expected) :
    ensurePhase expected operation b = .error (.phaseViolation operation b.phase) b := by
  rw [ensurePhase, bind_of_ok get_run]
  simp [h]

theorem ensurePhase_eq_ok {expected : Phase} {operation : Operation} {b' : Bridge}
    (h : ensurePhase expected operation b = .ok () b') : b.phase = expected ∧ b' = b := by
  by_cases hp : b.phase = expected
  · exact ⟨hp, (EStateM.Result.ok.inj ((ensurePhase_ok hp).symm.trans h)).2.symm⟩
  · cases (ensurePhase_error hp).symm.trans h

end Steps

/-- Emission succeeds exactly when the netlist can be generated, and then seals the
connections. -/
theorem emit_eq_ok {b b' : Bridge} {text : String} :
    emit b = .ok text b' ↔ b.phase = .collecting ∧
      ∃ g, b.guest.generate b.name (b.connections.map (·.target)) = .ok g ∧ text = g.text ∧
        b' = { b with
          netlist := some g.text
          portMap := PortMap.ofGenerated b.guest g
          phase := .emitted } := by
  by_cases hp : b.phase = .collecting
  · rw [emit, bind_of_ok (ensurePhase_ok hp), bind_of_ok get_run]
    cases hg : b.guest.generate b.name (b.connections.map (·.target)) with
    | error e =>
      rw [bind_of_error (ofGuest_error e)]
      simp
    | ok g =>
      rw [bind_of_ok (ofGuest_ok g), bind_of_ok (modify_run _)]
      simp [hp, eq_comm]
  · rw [emit, bind_of_error (ensurePhase_error hp)]
    simp [hp]

/-- A later state of an emitted bridge from which no instance has been built. Its host
and its guest may have grown. -/
structure Sealed (emitted b : Bridge) : Prop where
  phase : b.phase = .emitted
  name : b.name = emitted.name
  connections : b.connections = emitted.connections
  portMap : b.portMap = emitted.portMap

theorem Sealed.of_emit {b emitted : Bridge} {text : String} (h : emit b = .ok text emitted) :
    Sealed emitted emitted := by
  obtain ⟨-, g, -, -, rfl⟩ := emit_eq_ok.mp h
  exact ⟨rfl, rfl, rfl, rfl⟩

end NetBridge.Bridge
