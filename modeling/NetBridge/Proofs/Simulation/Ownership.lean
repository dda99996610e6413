import NetBridge.Proofs.Simulation.Setup

/-! # Whose process it is

A process that a pin was given stays one of that pin's: whatever state it gets to, it
watches the same signal, writes the same signals and reads signals of the pin. -/
namespace NetBridge.Simulation

/-- The process is one of the pin's, in whatever state. -/
inductive Pin.Runs (p : Pin) : PinProcess → Prop
  | followPort {i : SignalId} {mask : Word} : p.signal? .i = some i →
    p.Runs (.follow p.port i mask)
  | followSignal {o : SignalId} {mask : Word} : p.signal? .o = some o →
    p.Runs (.follow o p.port mask)
  | registerPort {clk i : SignalId} {mask : Word} : p.signal? .iClk = some clk →
    p.signal? .i = some i → p.Runs (.register clk p.port i mask)
  | registerSignal {clk o : SignalId} {mask : Word} : p.signal? .oClk = some clk →
    p.signal? .o = some o → p.Runs (.register clk o p.port mask)
  | doubleInput {lanes : DoubleInput} : p.signal? .iClk = some lanes.clk →
    p.signal? .i0 = some lanes.i0 → p.signal? .i1 = some lanes.i1 → lanes.port = p.port →
    p.Runs (.doubleInput lanes)
  | doubleOutput {lanes : DoubleOutput} : p.signal? .oClk = some lanes.clk →
    p.signal? .o0 = some lanes.o0 → p.signal? .o1 = some lanes.o1 → lanes.port = p.port →
    p.Runs (.doubleOutput lanes)

namespace Pin

variable {p : Pin} {q : PinProcess} {mask : Word} {signals : Arena Signal} {port : String}
  {width : Nat}

/-- A pin has the process of its input, if it samples, and that of its output, if it drives. -/
theorem mem_processes {qs : List PinProcess} (h : p.processes mask = .ok qs) :
    q ∈ qs ↔ (p.direction.samples = true ∧ p.inputProcess mask = .ok q) ∨
      (p.direction.drives = true ∧ p.outputProcess mask = .ok q) := by
  unfold processes at h
  cases hs : p.direction.samples <;> cases hd : p.direction.drives <;>
    cases hi : p.inputProcess mask <;> cases ho : p.outputProcess mask <;>
    simp [hs, hd, hi, ho, bind, Except.bind, pure, Except.pure] at h <;> subst h <;>
    simp [eq_comm]

/-- What is made for a pin is its own, and ready. -/
theorem runs_of_mem (minted : Minted signals port width p) {qs : List PinProcess}
    (h : p.processes mask = .ok qs) (hq : q ∈ qs) : p.Runs q ∧ q.start = q.wait := by
  rcases (mem_processes h).mp hq with ⟨samples, made⟩ | ⟨drives, made⟩
  · rcases inputProcess_cases minted samples mask with
      ⟨-, i, hi, made'⟩ | ⟨-, clk, i, hclk, hi, made'⟩ | ⟨-, clk, i0, i1, hclk, hi0, hi1, made'⟩ <;>
      obtain rfl := Except.ok.inj (made.symm.trans made')
    · exact ⟨.followPort hi, rfl⟩
    · exact ⟨.registerPort hclk hi, rfl⟩
    · exact ⟨.doubleInput hclk hi0 hi1 rfl, rfl⟩
  · rcases outputProcess_cases minted drives mask with
      ⟨-, o, ho, made'⟩ | ⟨-, clk, o, hclk, ho, made'⟩ | ⟨-, clk, o0, o1, hclk, ho0, ho1, made'⟩ <;>
      obtain rfl := Except.ok.inj (made.symm.trans made')
    · exact ⟨.followSignal ho, rfl⟩
    · exact ⟨.registerSignal hclk ho, rfl⟩
    · exact ⟨.doubleOutput hclk ho0 ho1 rfl, rfl⟩

namespace Runs

theorem sinks (h : p.Runs q) : ∀ x ∈ q.sinks, x ∈ p.ids := by
  cases h with
  | followPort hi => simpa [PinProcess.sinks] using mem_ids hi
  | followSignal => simpa [PinProcess.sinks] using p.port_mem_ids
  | registerPort _ hi => simpa [PinProcess.sinks] using mem_ids hi
  | registerSignal => simpa [PinProcess.sinks] using p.port_mem_ids
  | doubleInput _ hi0 hi1 => simpa [PinProcess.sinks] using ⟨mem_ids hi0, mem_ids hi1⟩
  | doubleOutput _ _ _ hport => simpa [PinProcess.sinks, hport] using p.port_mem_ids

/-- A process can go on as long as it can read the signals of its pin, and stays one of the
pin's. -/
theorem resume (h : p.Runs q) {read : SignalId → Option Word}
    (reads : ∀ x ∈ p.ids, ∃ v, read x = some v) :
    ∃ r, q.resume read = some r ∧ p.Runs r.process := by
  cases h with
  | followPort hi =>
    obtain ⟨v, hv⟩ := reads p.port p.port_mem_ids
    exact ⟨_, PinProcess.resume_follow hv, .followPort hi⟩
  | followSignal ho =>
    obtain ⟨v, hv⟩ := reads _ (mem_ids ho)
    exact ⟨_, PinProcess.resume_follow hv, .followSignal ho⟩
  | registerPort hclk hi =>
    obtain ⟨v, hv⟩ := reads p.port p.port_mem_ids
    exact ⟨_, PinProcess.resume_register hv, .registerPort hclk hi⟩
  | registerSignal hclk ho =>
    obtain ⟨v, hv⟩ := reads _ (mem_ids ho)
    exact ⟨_, PinProcess.resume_register hv, .registerSignal hclk ho⟩
  | @doubleInput lanes hclk hi0 hi1 hport =>
    obtain ⟨v, hv⟩ := reads lanes.port (hport ▸ p.port_mem_ids)
    cases half : lanes.half with
    | high =>
      exact ⟨_, PinProcess.resume_doubleInput_high half hv, .doubleInput hclk hi0 hi1 hport⟩
    | low =>
      exact ⟨_, PinProcess.resume_doubleInput_low half hv, .doubleInput hclk hi0 hi1 hport⟩
  | @doubleOutput lanes hclk ho0 ho1 hport =>
    obtain ⟨v, hv⟩ := reads lanes.o0 (mem_ids ho0)
    obtain ⟨w, hw⟩ := reads lanes.o1 (mem_ids ho1)
    cases half : lanes.half with
    | high =>
      exact ⟨_, PinProcess.resume_doubleOutput_high half hv hw, .doubleOutput hclk ho0 ho1 hport⟩
    | low =>
      exact ⟨_, PinProcess.resume_doubleOutput_low half, .doubleOutput hclk ho0 ho1 hport⟩

end Runs

end Pin

end NetBridge.Simulation
