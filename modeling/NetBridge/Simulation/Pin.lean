import NetBridge.Simulation.Kernel

/-! # Pins

A pin joins a simulated physical port with the logical signals of its roles. Each
active direction has a process, which behaves like the hardware of the same mode:
at rate 0 it follows every change, at rate 1 it transfers a sample on every rising
edge of its clock, at rate 2 a sample in each half of the cycle, through a short
pipeline. Data of active-low pins is complemented at the port. -/
namespace NetBridge.Simulation

/-- Which half of the clock cycle a process waits for. -/
inductive Half where
  | high
  | low
deriving DecidableEq

/-- Samples the port on both edges. A rising edge presents the samples of the
cycle before it: the one of its rising edge on `i0`, that of its falling edge on `i1`. -/
structure DoubleInput where
  clk : SignalId
  port : SignalId
  i0 : SignalId
  i1 : SignalId
  mask : Word
  rise : Word := 0
  fall : Word := 0
  half : Half := .high
deriving DecidableEq

/-- Each lane is a queue of two samples taken on rising edges. The one shifted out
of lane 0 is driven while the clock is high, that of lane 1 while it is low. -/
structure DoubleOutput where
  clk : SignalId
  port : SignalId
  o0 : SignalId
  o1 : SignalId
  mask : Word
  lane0 : Word × Word := (0, 0)
  lane1 : Word × Word := (0, 0)
  second : Word := 0
  half : Half := .high
deriving DecidableEq

inductive PinProcess where
  /-- Copies every change of `source` to `sink`. -/
  | follow (source sink : SignalId) (mask : Word)
  /-- Copies `source` to `sink` on each rising edge of `clk`. -/
  | register (clk source sink : SignalId) (mask : Word)
  | doubleInput (lanes : DoubleInput)
  | doubleOutput (lanes : DoubleOutput)
deriving DecidableEq

namespace DoubleInput

def resume (p : DoubleInput) (read : SignalId → Option Word) : Option (Resumption DoubleInput) := do
  let sample ← read p.port
  match p.half with
  | .high =>
    return ⟨{ p with rise := sample, half := .low },
      [(p.i0, p.rise ^^^ p.mask), (p.i1, p.fall ^^^ p.mask)], .level p.clk 0⟩
  | .low => return ⟨{ p with fall := sample, half := .high }, [], .level p.clk 1⟩

end DoubleInput

namespace DoubleOutput

def resume (p : DoubleOutput) (read : SignalId → Option Word) :
    Option (Resumption DoubleOutput) := do
  match p.half with
  | .high =>
    let sample0 ← read p.o0
    let sample1 ← read p.o1
    let next := { p with
      lane0 := (p.lane0.2, sample0)
      lane1 := (p.lane1.2, sample1)
      second := p.lane1.1
      half := .low }
    return ⟨next, [(p.port, p.lane0.1 ^^^ p.mask)], .level p.clk 0⟩
  | .low => return ⟨{ p with half := .high }, [(p.port, p.second ^^^ p.mask)], .level p.clk 1⟩

end DoubleOutput

namespace PinProcess

def start : PinProcess → Wait
  | follow source _ _ => .change source
  | register clk _ _ _ => .level clk 1
  | doubleInput p => .level p.clk 1
  | doubleOutput p => .level p.clk 1

def resume (p : PinProcess) (read : SignalId → Option Word) : Option (Resumption PinProcess) :=
  match p with
  | follow source sink mask => do
    return ⟨p, [(sink, (← read source) ^^^ mask)], .change source⟩
  | register clk source sink mask => do
    return ⟨p, [(sink, (← read source) ^^^ mask)], .level clk 1⟩
  | doubleInput lanes => (lanes.resume read).map (Resumption.map doubleInput)
  | doubleOutput lanes => (lanes.resume read).map (Resumption.map doubleOutput)

instance : Coroutine PinProcess := ⟨start, resume⟩

end PinProcess

/-- The logical side of a pad. -/
structure Pin where
  name : String
  /-- The simulated physical port. -/
  port : SignalId
  direction : Direction
  rate : Nat
  /-- The port is active-low. -/
  invert : Bool
  signals : Table Role SignalId
deriving DecidableEq

namespace Pin

def signal? (p : Pin) (role : Role) : Option SignalId := Table.get? p.signals role

/-- The signal of a role that the mode of the pin needs. -/
def require (p : Pin) (role : Role) : Except Error SignalId :=
  match p.signal? role with
  | some id => .ok id
  | none => .error (.missingPinSignal p.name role)

def inputProcess (p : Pin) (mask : Word) : Except Error PinProcess :=
  match p.rate with
  | 0 => return .follow p.port (← p.require .i) mask
  | 1 => return .register (← p.require .iClk) p.port (← p.require .i) mask
  | _ => do
    let clk ← p.require .iClk
    let i0 ← p.require .i0
    let i1 ← p.require .i1
    return .doubleInput { clk, port := p.port, i0, i1, mask }

def outputProcess (p : Pin) (mask : Word) : Except Error PinProcess :=
  match p.rate with
  | 0 => return .follow (← p.require .o) p.port mask
  | 1 => return .register (← p.require .oClk) (← p.require .o) p.port mask
  | _ => do
    let clk ← p.require .oClk
    let o0 ← p.require .o0
    let o1 ← p.require .o1
    return .doubleOutput { clk, port := p.port, o0, o1, mask }

/-- The processes of a pin, one for each active direction. -/
def processes (p : Pin) (mask : Word) : Except Error (List PinProcess) := do
  let inputs ← if p.direction.samples then do pure [← p.inputProcess mask] else pure []
  let outputs ← if p.direction.drives then do pure [← p.outputProcess mask] else pure []
  return inputs ++ outputs

variable {ρ : Type} [Coroutine ρ]

/-- The word that complements the data of the pin. -/
def mask (p : Pin) : SimM (PinProcess ⊕ ρ) Word := do
  if p.invert then return (← Simulator.signal p.port).mask else return 0

def addAll : List PinProcess → SimM (PinProcess ⊕ ρ) Unit
  | [] => return ()
  | p :: rest => do
    Simulator.addProcess (.inl p)
    addAll rest

/-- Adds the processes of a pin, and says how many they are. -/
def spawn (p : Pin) : SimM (PinProcess ⊕ ρ) Nat := do
  if let .error e := modeRoles p.direction p.rate then throw (.unsupportedPin e)
  let mask ← p.mask
  match p.processes mask with
  | .error e => throw e
  | .ok ps =>
    addAll ps
    return ps.length

end Pin

end NetBridge.Simulation
