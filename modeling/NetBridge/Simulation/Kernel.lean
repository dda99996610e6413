import NetBridge.Arena
import NetBridge.Board.Board
import NetBridge.Json.Form
import NetBridge.Pad.Mode
import NetBridge.Shape

/-! # The simulation kernel

Writes wait until the next delta cycle, which commits them together. A commit wakes
every process whose wait the changed signals satisfy, in the order of registration;
what a process writes waits for the following cycle. Processes are passive: one that
waits keeps nothing going. -/
namespace NetBridge.Simulation

inductive Error where
  | invalidWidth (signal : String) (width : Nat)
  | valueTooWide (signal : String) (value : Word) (width : Nat)
  | deltaLimit (maxDeltas : Nat)
  | unknownResource (logical : String)
  | alreadyRequested (logical : String)
  | unsupportedPin (mode : UnsupportedMode)
  | missingPinSignal (pin : String) (role : Role)
  | missingMember (group member : String)
  | specShape (pin : String)
  | board (cause : BoardError)
  /-- A key that the simulator never handed out. -/
  | unallocated
deriving DecidableEq

namespace Error

def message? : Error → Option String
  | invalidWidth signal width =>
    s!"signal '{signal}' has unsupported width {width} (expected 1..=64)"
  | valueTooWide signal value width =>
    s!"value 0x{Word.hex value} does not fit the {width}-bit signal '{signal}'"
  | deltaLimit maxDeltas => s!"delta cycle limit exceeded (max {maxDeltas} deltas)"
  | unknownResource logical => s!"no resource '{logical}'"
  | alreadyRequested logical => s!"resource '{logical}' has already been requested"
  | unsupportedPin mode => mode.message
  | missingPinSignal pin role => s!"pin '{pin}' has no '{role.text}' signal"
  | missingMember group member => s!"pin group '{group}' has no member '{member}'"
  | specShape pin => s!"pin '{pin}' is a single signal but was given a per-field spec"
  | board cause => cause.message?
  | unallocated => some "a signal is not part of the simulator"

end Error

structure Signal where
  name : String
  /-- At least 1 and at most 64 in a simulator. -/
  width : Nat
  /-- The value as of the last commit. -/
  value : Word
deriving DecidableEq

abbrev SignalId := Key Signal

namespace Signal

def mask (s : Signal) : Word := Word.ones s.width

def form : Form Signal where
  write s := .object [("name", .text s.name), ("width", .nat s.width),
    ("value", Form.word.write s.value)]
  read depth j := do
    let (depth, [name, width, value]) ← Form.record? ["name", "width", "value"] depth j | none
    return ⟨← Form.need .text depth name, ← Form.need (.natBits 32) depth width,
      ← Form.need .word depth value⟩

end Signal

/-- What a process waits for. -/
inductive Wait where
  /-- Any change of the signal. -/
  | change (id : SignalId)
  /-- A change of the signal to this value. -/
  | level (id : SignalId) (value : Word)
deriving DecidableEq

/-- What a process does when it is woken: it writes, and waits in a new state. -/
structure Resumption (π : Type) where
  process : π
  writes : List (SignalId × Word)
  wait : Wait

/-- State machines that wait, read committed values and write. There is no
resumption if one reads a signal that was never allocated. -/
class Coroutine (π : Type) where
  start : π → Wait
  resume : π → (SignalId → Option Word) → Option (Resumption π)

namespace Resumption

variable {π ρ : Type}

def map (f : π → ρ) (r : Resumption π) : Resumption ρ := ⟨f r.process, r.writes, r.wait⟩

end Resumption

instance {π ρ : Type} [Coroutine π] [Coroutine ρ] : Coroutine (π ⊕ ρ) where
  start
    | .inl p => Coroutine.start p
    | .inr p => Coroutine.start p
  resume
    | .inl p, read => (Coroutine.resume p read).map (Resumption.map .inl)
    | .inr p, read => (Coroutine.resume p read).map (Resumption.map .inr)

/-- A process and what it waits for. -/
structure Slot (π : Type) where
  process : π
  wait : Wait

structure Simulator (π : Type) where
  signals : Arena Signal := {}
  slots : List (Slot π) := []
  /-- Writes that wait for the next delta cycle, the last one for each signal. -/
  pending : Table SignalId Word := []
  /-- The number of delta cycles that a settling may take. -/
  maxDeltas : Nat := 1000
  totalDeltas : Nat := 0

abbrev SimM (π : Type) := EStateM Error (Simulator π)

namespace Simulator

variable {π : Type}

def value? (signals : Arena Signal) (id : SignalId) : Option Word :=
  (signals.get? id).map (·.value)

/-- The writes that change their signal. -/
def changes (signals : Arena Signal) (pending : Table SignalId Word) : Table SignalId Word :=
  pending.filter fun p => value? signals p.1 != some p.2

/-- Gives every written signal its value. -/
def commit (signals : Arena Signal) (pending : Table SignalId Word) : Arena Signal :=
  pending.foldl (fun signals p => signals.modify p.1 fun s => { s with value := p.2 }) signals

/-- The changed signals and the committed values satisfy a wait. -/
def fires (signals : Arena Signal) (changed : Table SignalId Word) : Wait → Bool
  | .change id => Table.contains changed id
  | .level id value => Table.contains changed id && value? signals id == some value

/-- Queues writes, each cut to the width of its signal. -/
def queue (signals : Arena Signal) :
    Table SignalId Word → List (SignalId × Word) → Option (Table SignalId Word)
  | pending, [] => some pending
  | pending, (id, value) :: rest => do
    let s ← signals.get? id
    queue signals (Table.set pending id (value &&& s.mask)) rest

/-- Wakes the processes whose wait fires. -/
def wake [Coroutine π] (signals : Arena Signal) (changed : Table SignalId Word) :
    Table SignalId Word → List (Slot π) → Option (Table SignalId Word × List (Slot π))
  | pending, [] => some (pending, [])
  | pending, slot :: rest =>
    if fires signals changed slot.wait then do
      let r ← Coroutine.resume slot.process (value? signals)
      let pending ← queue signals pending r.writes
      let (pending, slots) ← wake signals changed pending rest
      return (pending, ⟨r.process, r.wait⟩ :: slots)
    else do
      let (pending, slots) ← wake signals changed pending rest
      return (pending, slot :: slots)

/-- One delta cycle. -/
def delta? [Coroutine π] (s : Simulator π) : Option (Simulator π) := do
  let signals := commit s.signals s.pending
  let (pending, slots) ← wake signals (changes s.signals s.pending) [] s.slots
  return { s with signals, pending, slots }

/-- A signal that must have been allocated. -/
def signal (id : SignalId) : SimM π Signal := do
  match (← get).signals.get? id with
  | some s => return s
  | none => throw .unallocated

/-- Adds a signal that starts at zero. -/
def addSignal (name : String) (width : Nat) : SimM π SignalId := do
  if width = 0 ∨ 64 < width then throw (.invalidWidth name width)
  modifyGet fun s =>
    (s.signals.nextKey, { s with signals := s.signals.push ⟨name, width, 0⟩ })

def find? (s : Simulator π) (name : String) : Option SignalId :=
  (s.signals.entries.find? (·.2.name == name)).map Prod.fst

/-- Adds a process. It first runs when its first wait fires. -/
def addProcess [Coroutine π] (p : π) : SimM π Unit :=
  modify fun s => { s with slots := s.slots ++ [⟨p, Coroutine.start p⟩] }

/-- Queues a write from outside. -/
def set (id : SignalId) (value : Word) : SimM π Unit := do
  let s ← signal id
  if value &&& ~~~s.mask ≠ 0 then throw (.valueTooWide s.name value s.width)
  modify fun sim => { sim with pending := Table.set sim.pending id value }

/-- Runs delta cycles, at most `budget` of them, until no write waits. The number
of cycles comes back, counted from `count`. -/
def runDeltas [Coroutine π] : Nat → Nat → SimM π Nat
  | budget, count => do
    let s ← get
    if s.pending.isEmpty then return count
    match budget with
    | 0 => throw (.deltaLimit s.maxDeltas)
    | budget + 1 =>
      match s.delta? with
      | none => throw .unallocated
      | some s =>
        MonadStateOf.set s
        runDeltas budget (count + 1)

/-- Runs delta cycles until no write waits. -/
def settle [Coroutine π] : SimM π Nat := do
  let count ← runDeltas (← get).maxDeltas 0
  modify fun s => { s with totalDeltas := s.totalDeltas + count }
  return count

/-- A clock pulse: high, settle, low, settle. -/
def tick [Coroutine π] (clk : SignalId) : SimM π Unit := do
  set clk 1
  let _ ← settle
  set clk 0
  let _ ← settle

end Simulator

end NetBridge.Simulation
