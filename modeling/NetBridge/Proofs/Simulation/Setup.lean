import NetBridge.Proofs.Simulation.Request
import NetBridge.Proofs.Simulation.Writers

/-! # Setting up a bench

Resources are requested and the bench is prepared, in any order and any number of
times. Nothing runs meanwhile, so that the processes stand in the simulator as they
were added: those of one prepared pin after those of another, each writing signals of
its own pin only. -/
namespace NetBridge.Simulation

namespace Pin

variable {p : Pin} {signals : Arena Signal} {port : String} {width : Nat}

/-- The word that complements what crosses the port, on a pin of this width. -/
def crossing (p : Pin) (width : Nat) : Word := if p.invert then Word.ones width else 0

theorem port_mem_ids (p : Pin) : p.port ∈ p.ids := List.mem_cons_self

theorem mem_ids {r : Role} {id : SignalId} (h : p.signal? r = some id) : id ∈ p.ids :=
  List.mem_cons_of_mem _ (List.mem_map.mpr ⟨(r, id), Table.mem_of_get? h, rfl⟩)

/-- A pin has a signal for each role of its mode. -/
theorem exists_signal (minted : Minted signals port width p) {roles : List Role}
    (hroles : modeRoles p.direction p.rate = .ok roles) {r : Role} (hr : r ∈ roles) :
    ∃ id, p.signal? r = some id := by
  obtain ⟨roles', h, keys⟩ := minted.roles
  obtain rfl := Except.ok.inj (hroles.symm.trans h)
  refine Table.exists_get?_of_mem_keys ?_
  rw [keys]
  exact List.mem_filter.mpr ⟨Role.mem_all r, by simpa using hr⟩

theorem require_ok {r : Role} {id : SignalId} (h : p.signal? r = some id) :
    p.require r = .ok id := by
  rw [require, h]

theorem mem_values {r : Role} {id : SignalId} (h : p.signal? r = some id) :
    id ∈ p.signals.values :=
  List.mem_map.mpr ⟨(r, id), Table.mem_of_get? h, rfl⟩

/-- The process of an input at each rate. -/
theorem inputProcess_cases (minted : Minted signals port width p) (h : p.direction.samples = true)
    (mask : Word) :
    (p.rate = 0 ∧ ∃ i, p.signal? .i = some i ∧
      p.inputProcess mask = .ok (.follow p.port i mask)) ∨
    (p.rate = 1 ∧ ∃ clk i, p.signal? .iClk = some clk ∧ p.signal? .i = some i ∧
      p.inputProcess mask = .ok (.register clk p.port i mask)) ∨
    (p.rate = 2 ∧ ∃ clk i0 i1, p.signal? .iClk = some clk ∧ p.signal? .i0 = some i0 ∧
      p.signal? .i1 = some i1 ∧
      p.inputProcess mask = .ok (.doubleInput { clk, port := p.port, i0, i1, mask })) := by
  obtain ⟨roles, hroles, -⟩ := minted.roles
  rcases roles_of_samples (modeRoles?_of_ok hroles) h with
    ⟨hrate, hi⟩ | ⟨hrate, hi, hclk⟩ | ⟨hrate, hi0, hi1, hclk⟩
  · obtain ⟨i, hi⟩ := exists_signal minted hroles hi
    refine .inl ⟨hrate, i, hi, ?_⟩
    simp only [inputProcess, hrate, require_ok hi]
    rfl
  · obtain ⟨i, hi⟩ := exists_signal minted hroles hi
    obtain ⟨clk, hclk⟩ := exists_signal minted hroles hclk
    refine .inr (.inl ⟨hrate, clk, i, hclk, hi, ?_⟩)
    simp only [inputProcess, hrate, require_ok hi, require_ok hclk]
    rfl
  · obtain ⟨i0, hi0⟩ := exists_signal minted hroles hi0
    obtain ⟨i1, hi1⟩ := exists_signal minted hroles hi1
    obtain ⟨clk, hclk⟩ := exists_signal minted hroles hclk
    refine .inr (.inr ⟨hrate, clk, i0, i1, hclk, hi0, hi1, ?_⟩)
    simp only [inputProcess, hrate, require_ok hi0, require_ok hi1, require_ok hclk]
    rfl

/-- The process of an output at each rate. -/
theorem outputProcess_cases (minted : Minted signals port width p) (h : p.direction.drives = true)
    (mask : Word) :
    (p.rate = 0 ∧ ∃ o, p.signal? .o = some o ∧
      p.outputProcess mask = .ok (.follow o p.port mask)) ∨
    (p.rate = 1 ∧ ∃ clk o, p.signal? .oClk = some clk ∧ p.signal? .o = some o ∧
      p.outputProcess mask = .ok (.register clk o p.port mask)) ∨
    (p.rate = 2 ∧ ∃ clk o0 o1, p.signal? .oClk = some clk ∧ p.signal? .o0 = some o0 ∧
      p.signal? .o1 = some o1 ∧
      p.outputProcess mask = .ok (.doubleOutput { clk, port := p.port, o0, o1, mask })) := by
  obtain ⟨roles, hroles, -⟩ := minted.roles
  rcases roles_of_drives (modeRoles?_of_ok hroles) h with
    ⟨hrate, ho⟩ | ⟨hrate, ho, hclk⟩ | ⟨hrate, ho0, ho1, hclk⟩
  · obtain ⟨o, ho⟩ := exists_signal minted hroles ho
    refine .inl ⟨hrate, o, ho, ?_⟩
    simp only [outputProcess, hrate, require_ok ho]
    rfl
  · obtain ⟨o, ho⟩ := exists_signal minted hroles ho
    obtain ⟨clk, hclk⟩ := exists_signal minted hroles hclk
    refine .inr (.inl ⟨hrate, clk, o, hclk, ho, ?_⟩)
    simp only [outputProcess, hrate, require_ok ho, require_ok hclk]
    rfl
  · obtain ⟨o0, ho0⟩ := exists_signal minted hroles ho0
    obtain ⟨o1, ho1⟩ := exists_signal minted hroles ho1
    obtain ⟨clk, hclk⟩ := exists_signal minted hroles hclk
    refine .inr (.inr ⟨hrate, clk, o0, o1, hclk, ho0, ho1, ?_⟩)
    simp only [outputProcess, hrate, require_ok ho0, require_ok ho1, require_ok hclk]
    rfl

/-- The process of an input is made, and writes signals of roles. Without a clock it
follows the port. -/
theorem inputProcess_ok (minted : Minted signals port width p) (h : p.direction.samples = true)
    (mask : Word) : ∃ q, p.inputProcess mask = .ok q ∧ (∀ x ∈ q.sinks, x ∈ p.signals.values) ∧
      (p.rate = 0 → ∃ i, p.signal? .i = some i ∧ q = .follow p.port i mask) := by
  rcases inputProcess_cases minted h mask with
    ⟨-, i, hi, made⟩ | ⟨hrate, clk, i, -, hi, made⟩ | ⟨hrate, clk, i0, i1, -, hi0, hi1, made⟩
  · exact ⟨_, made, by simpa [PinProcess.sinks] using mem_values hi, fun _ => ⟨i, hi, rfl⟩⟩
  · exact ⟨_, made, by simpa [PinProcess.sinks] using mem_values hi, fun _ => by omega⟩
  · refine ⟨_, made, ?_, fun _ => by omega⟩
    simpa [PinProcess.sinks] using ⟨mem_values hi0, mem_values hi1⟩

/-- The process of an output is made, and writes the port. Without a clock it follows the
signal. -/
theorem outputProcess_ok (minted : Minted signals port width p) (h : p.direction.drives = true)
    (mask : Word) : ∃ q, p.outputProcess mask = .ok q ∧ q.sinks = [p.port] ∧
      (p.rate = 0 → ∃ o, p.signal? .o = some o ∧ q = .follow o p.port mask) := by
  rcases outputProcess_cases minted h mask with
    ⟨-, o, ho, made⟩ | ⟨hrate, clk, o, -, -, made⟩ | ⟨hrate, clk, o0, o1, -, -, -, made⟩
  · exact ⟨_, made, rfl, fun _ => ⟨o, ho, rfl⟩⟩
  · exact ⟨_, made, rfl, fun _ => by omega⟩
  · exact ⟨_, made, rfl, fun _ => by omega⟩

/-- The processes of a pin, one list for each way that data goes. -/
theorem processes_eq {mask : Word} {ins outs : List PinProcess}
    (hins : if p.direction.samples then ∃ q, p.inputProcess mask = .ok q ∧ ins = [q] else ins = [])
    (houts : if p.direction.drives then ∃ q, p.outputProcess mask = .ok q ∧ outs = [q]
      else outs = []) : p.processes mask = .ok (ins ++ outs) := by
  rw [processes]
  cases hs : p.direction.samples <;> cases hd : p.direction.drives <;> rw [hs] at hins <;>
    rw [hd] at houts
  · rw [if_neg Bool.false_ne_true] at hins houts
    subst hins houts
    rfl
  · rw [if_neg Bool.false_ne_true] at hins
    rw [if_pos rfl] at houts
    obtain ⟨q, hq, rfl⟩ := houts
    rw [hq, hins]
    rfl
  · rw [if_pos rfl] at hins
    rw [if_neg Bool.false_ne_true] at houts
    obtain ⟨q, hq, rfl⟩ := hins
    rw [hq, houts]
    rfl
  · rw [if_pos rfl] at hins houts
    obtain ⟨q, hq, rfl⟩ := hins
    obtain ⟨q', hq', rfl⟩ := houts
    rw [hq, hq']
    rfl

/-- The processes of a pin can be made, and write its own signals. Without a clock they
are the followers of its two ways. -/
theorem processes_ok (minted : Minted signals port width p) (mask : Word) :
    ∃ ins outs, p.processes mask = .ok (ins ++ outs) ∧
      (∀ q ∈ ins ++ outs, ∀ x ∈ q.sinks, x ∈ p.ids) ∧
      (p.rate = 0 →
        (if p.direction.samples then
          ∃ i, p.signal? .i = some i ∧ ins = [.follow p.port i mask] else ins = []) ∧
        (if p.direction.drives then
          ∃ o, p.signal? .o = some o ∧ outs = [.follow o p.port mask] else outs = [])) := by
  have inputs : ∃ ins, (if p.direction.samples then ∃ q, p.inputProcess mask = .ok q ∧ ins = [q]
      else ins = []) ∧ (∀ q ∈ ins, ∀ x ∈ q.sinks, x ∈ p.ids) ∧
        (p.rate = 0 → if p.direction.samples then
          ∃ i, p.signal? .i = some i ∧ ins = [.follow p.port i mask] else ins = []) := by
    split
    · rename_i h
      obtain ⟨q, hq, sinks, follower⟩ := inputProcess_ok minted h mask
      refine ⟨[q], ⟨q, hq, rfl⟩, List.forall_mem_singleton.mpr fun x hx =>
        List.mem_cons_of_mem _ (sinks x hx), fun hrate => ?_⟩
      obtain ⟨i, hi, rfl⟩ := follower hrate
      exact ⟨i, hi, rfl⟩
    · exact ⟨[], rfl, by simp, fun _ => rfl⟩
  have outputs : ∃ outs, (if p.direction.drives then
      ∃ q, p.outputProcess mask = .ok q ∧ outs = [q] else outs = []) ∧
        (∀ q ∈ outs, ∀ x ∈ q.sinks, x ∈ p.ids) ∧
        (p.rate = 0 → if p.direction.drives then
          ∃ o, p.signal? .o = some o ∧ outs = [.follow o p.port mask] else outs = []) := by
    split
    · rename_i h
      obtain ⟨q, hq, sinks, follower⟩ := outputProcess_ok minted h mask
      refine ⟨[q], ⟨q, hq, rfl⟩, List.forall_mem_singleton.mpr fun x hx => ?_, fun hrate => ?_⟩
      · rw [sinks, List.mem_singleton] at hx
        exact hx ▸ p.port_mem_ids
      · obtain ⟨o, ho, rfl⟩ := follower hrate
        exact ⟨o, ho, rfl⟩
    · exact ⟨[], rfl, by simp, fun _ => rfl⟩
  obtain ⟨ins, hins, insSinks, followed⟩ := inputs
  obtain ⟨outs, houts, outsSinks, driven⟩ := outputs
  exact ⟨ins, outs, processes_eq hins houts, List.forall_mem_append.mpr ⟨insSinks, outsSinks⟩,
    fun hrate => ⟨followed hrate, driven hrate⟩⟩

end Pin

variable {ρ : Type}

/-- A process that has just been added. -/
def freshSlot (q : PinProcess) : Slot (PinProcess ⊕ ρ) := ⟨.inl q, q.start⟩

/-- The pin has the processes that its mode and its inversion ask for. -/
def Animated (signals : Arena Signal) (a : Pin × List PinProcess) : Prop :=
  ∃ port width, Minted signals port width a.1 ∧ a.1.processes (a.1.crossing width) = .ok a.2

theorem Animated.extends {signals later : Arena Signal} {a : Pin × List PinProcess}
    (h : Animated signals a) (grown : signals.Extends later) : Animated later a := by
  obtain ⟨port, width, minted, hprocesses⟩ := h
  exact ⟨port, width, minted.extends grown, hprocesses⟩

/-- The slots of pins that were attached one after the other. -/
def slotsOf (attached : List (Pin × List PinProcess)) : List (Slot (PinProcess ⊕ ρ)) :=
  attached.flatMap fun a => a.2.map freshSlot

theorem slotsOf_append (xs ys : List (Pin × List PinProcess)) :
    (slotsOf (xs ++ ys) : List (Slot (PinProcess ⊕ ρ))) = slotsOf xs ++ slotsOf ys :=
  List.flatMap_append

namespace Pin

theorem addAll_run [Coroutine ρ] (qs : List PinProcess) (s : Simulator (PinProcess ⊕ ρ)) :
    addAll qs s = .ok () { s with slots := s.slots ++ qs.map freshSlot } := by
  induction qs generalizing s with
  | nil => simp [addAll]
  | cons q rest ih =>
    have added : (Simulator.addProcess (.inl q) : SimM (PinProcess ⊕ ρ) Unit) s =
        .ok () { s with slots := s.slots ++ [freshSlot q] } := rfl
    rw [addAll, bind_of_ok added, ih]
    simp

theorem mask_run {p : Pin} {s : Simulator (PinProcess ⊕ ρ)} {port : String} {width : Nat}
    (minted : Minted s.signals port width p) : p.mask s = .ok (p.crossing width) s := by
  obtain ⟨v, hport⟩ := minted.port
  have found : (Simulator.signal p.port : SimM (PinProcess ⊕ ρ) Signal) s =
      .ok ⟨port, width, v⟩ s := by
    rw [Simulator.signal, bind_of_ok get_run, hport]
    rfl
  rw [mask, crossing]
  cases p.invert with
  | false => rfl
  | true =>
    rw [if_pos rfl, bind_of_ok found]
    rfl

theorem spawn_ok [Coroutine ρ] {p : Pin} {s : Simulator (PinProcess ⊕ ρ)} {port : String} {width : Nat}
    (minted : Minted s.signals port width p) : ∃ qs, Animated s.signals (p, qs) ∧
      p.spawn s = .ok qs.length { s with slots := s.slots ++ qs.map freshSlot } := by
  obtain ⟨roles, hroles, -⟩ := minted.roles
  obtain ⟨ins, outs, hqs, -⟩ := processes_ok minted (p.crossing width)
  refine ⟨ins ++ outs, ⟨port, width, minted, hqs⟩, ?_⟩
  simp only [spawn, hroles]
  rw [bind_of_ok (mask_run minted), hqs]
  exact bind_of_ok (addAll_run _ s)

end Pin

namespace Bench

theorem spawnAll_ok [Coroutine ρ] {pins : List Pin} {s : Simulator (PinProcess ⊕ ρ)}
    (minted : ∀ p ∈ pins, ∃ port width, Minted s.signals port width p) :
    ∃ (n : Nat) (attached : List (Pin × List PinProcess)), attached.map Prod.fst = pins ∧
      (∀ a ∈ attached, Animated s.signals a) ∧
      spawnAll pins s = .ok n { s with slots := s.slots ++ slotsOf attached } := by
  induction pins generalizing s with
  | nil => exact ⟨0, [], rfl, by simp, by simp [spawnAll, slotsOf]⟩
  | cons p rest ih =>
    obtain ⟨⟨port, width, first⟩, others⟩ := List.forall_mem_cons.mp minted
    obtain ⟨qs, animated, hrun⟩ := Pin.spawn_ok first
    obtain ⟨n, attached, hpins, animatedRest, hrest⟩ :=
      ih (s := { s with slots := s.slots ++ qs.map freshSlot }) others
    refine ⟨qs.length + n, (p, qs) :: attached, congrArg (p :: ·) hpins,
      List.forall_mem_cons.mpr ⟨animated, animatedRest⟩, ?_⟩
    rw [spawnAll, bind_of_ok hrun, bind_of_ok hrest]
    simp [slotsOf]

/-- A bench on which nothing has run. Its processes are those of the attached pins, and
no two pins, attached or waiting, have a signal in common. -/
structure Plugged (b : Bench ρ) (attached : List (Pin × List PinProcess)) : Prop where
  slots : b.simulator.slots = slotsOf attached
  animated : ∀ a ∈ attached, Animated b.simulator.signals a
  waiting : ∀ p ∈ b.waiting, ∃ port width, Minted b.simulator.signals port width p
  apart : ((attached.map Prod.fst ++ b.waiting).flatMap Pin.ids).Nodup
  there : ∀ id ∈ (attached.map Prod.fst ++ b.waiting).flatMap Pin.ids,
    b.simulator.signals.contains id = true
  idle : b.simulator.pending = []
  zero : ∀ id x, b.simulator.signals.get? id = some x → x.value = 0

theorem Plugged.fresh (board : Board) (maxDeltas : Nat) :
    Plugged ({ board, simulator := { maxDeltas } } : Bench ρ) [] where
  slots := rfl
  animated := by simp
  waiting := by simp
  apart := List.nodup_nil
  there := by simp
  idle := rfl
  zero id x h := by simp [Arena.get?] at h

section Adding

variable {b : Bench ρ} {attached : List (Pin × List PinProcess)}
  {s : Simulator (PinProcess ⊕ ρ)} {ids : List SignalId}

/-- Signals may be added at any time. -/
theorem Plugged.add (h : Plugged b attached) (added : Added b.simulator s ids) :
    Plugged { b with simulator := s } attached where
  slots := by
    rw [added.only]
    exact h.slots
  animated a ha := (h.animated a ha).extends added.adds.grown
  waiting p hp := by
    obtain ⟨port, width, minted⟩ := h.waiting p hp
    exact ⟨port, width, minted.extends added.adds.grown⟩
  apart := h.apart
  there id hid := added.adds.grown.contains (h.there id hid)
  idle := by
    rw [added.only]
    exact h.idle
  zero id x hx := (added.zero id x hx).elim (h.zero id x) And.left

/-- New pins join those that wait. -/
theorem Plugged.grant (h : Plugged b attached) {pins : List Pin}
    (added : Added b.simulator s (pins.flatMap Pin.ids))
    (minted : ∀ p ∈ pins, ∃ port width, Minted s.signals port width p)
    {requested : List (String × Option Nat)} :
    Plugged { b with simulator := s, requested, waiting := b.waiting ++ pins } attached where
  slots := (h.add added).slots
  animated := (h.add added).animated
  waiting := List.forall_mem_append.mpr ⟨(h.add added).waiting, minted⟩
  apart := by
    rw [← List.append_assoc, List.flatMap_append, List.nodup_append]
    refine ⟨h.apart, added.adds.nodup, fun id hid id' hid' same => ?_⟩
    have new := added.adds.new id' hid'
    rw [← same, h.there id hid] at new
    cases new
  there := by
    rw [← List.append_assoc, List.flatMap_append]
    exact List.forall_mem_append.mpr ⟨(h.add added).there, added.adds.there⟩
  idle := (h.add added).idle
  zero := (h.add added).zero

end Adding

section Requesting

variable {b b' : Bench ρ} {name : String} {index : Option Nat} {direction : Option DirectionSpec}
  {rate : Option RateSpec} {tree : PinTree}

/-- The pins of a request wait. -/
theorem Plugged.request {attached : List (Pin × List PinProcess)} (h : Plugged b attached)
    (hr : request name index direction rate b = .ok tree b') :
    Plugged b' attached ∧ ∀ p ∈ tree.leaves, p ∈ b'.waiting := by
  have outcome := request_outcome name index direction rate b
  rw [hr] at outcome
  obtain ⟨added, minted, hb'⟩ := outcome
  rw [hb']
  exact ⟨h.grant added minted, fun p hp => List.mem_append_right _ hp⟩

theorem request_keeps (hr : request name index direction rate b = .ok tree b') :
    ∀ p ∈ b.waiting, p ∈ b'.waiting := by
  have outcome := request_outcome name index direction rate b
  rw [hr] at outcome
  obtain ⟨-, -, hb'⟩ := outcome
  rw [hb']
  exact fun p hp => List.mem_append_left _ hp

end Requesting

variable [Coroutine ρ]

/-- A preparation adds the processes of every pin that waits. -/
theorem prepare_ok {b : Bench ρ}
    (minted : ∀ p ∈ b.waiting, ∃ port width, Minted b.simulator.signals port width p) :
    ∃ (n : Nat) (added : List (Pin × List PinProcess)), added.map Prod.fst = b.waiting ∧
      (∀ a ∈ added, Animated b.simulator.signals a) ∧
      prepare b = .ok n { b with
        simulator := { b.simulator with slots := b.simulator.slots ++ slotsOf added }
        waiting := [] } := by
  obtain ⟨n, added, hpins, animated, hrun⟩ := spawnAll_ok minted
  refine ⟨n, added, hpins, animated, ?_⟩
  rw [prepare, bind_of_ok get_run, bind_of_ok (modify_run _)]
  exact onSimulator_ok hrun

/-- It attaches them. -/
theorem Plugged.prepare {b : Bench ρ} {attached : List (Pin × List PinProcess)}
    (h : Plugged b attached) : ∃ n b' added, Bench.prepare b = .ok n b' ∧
      added.map Prod.fst = b.waiting ∧ b'.waiting = [] ∧ Plugged b' (attached ++ added) := by
  obtain ⟨n, added, hpins, animated, hrun⟩ := prepare_ok h.waiting
  refine ⟨n, _, added, hrun, hpins, rfl, ?_⟩
  have pins : (attached ++ added).map Prod.fst ++ [] = attached.map Prod.fst ++ b.waiting := by
    rw [List.append_nil, List.map_append, hpins]
  exact {
    slots := by rw [slotsOf_append, ← h.slots]
    animated := List.forall_mem_append.mpr ⟨h.animated, animated⟩
    waiting := by simp
    apart := by
      rw [pins]
      exact h.apart
    there := by
      rw [pins]
      exact h.there
    idle := h.idle
    zero := h.zero }

/-- What is done to a bench before anything runs. -/
inductive Action where
  | request (name : String) (index : Option Nat) (direction : Option DirectionSpec)
      (rate : Option RateSpec)
  | prepare
  /-- A signal of the testbench itself. -/
  | addSignal (name : String) (width : Nat)

def Action.apply : Action → Bench ρ → Bench ρ
  | request name index direction rate => stateAfter (Bench.request name index direction rate)
  | prepare => stateAfter Bench.prepare
  | addSignal name width => stateAfter (onSimulator (Simulator.addSignal name width))

def run (actions : List Action) (b : Bench ρ) : Bench ρ := actions.foldl (fun b a => a.apply b) b

/-- The pin waits or is attached. -/
def Granted (b : Bench ρ) (attached : List (Pin × List PinProcess)) (p : Pin) : Prop :=
  p ∈ b.waiting ∨ p ∈ attached.map Prod.fst

/-- No action lets a pin go, and what is attached stays attached. -/
theorem Plugged.apply {b : Bench ρ} {attached : List (Pin × List PinProcess)}
    (h : Plugged b attached) (a : Action) : ∃ more, Plugged (a.apply b) (attached ++ more) ∧
      ∀ p, Granted b attached p → Granted (a.apply b) (attached ++ more) p := by
  cases a with
  | request name index direction rate =>
    cases hr : Bench.request name index direction rate b with
    | ok tree b' =>
      obtain ⟨plugged, -⟩ := h.request hr
      rw [Action.apply, stateAfter_ok hr]
      refine ⟨[], by simpa using plugged, fun p hp => ?_⟩
      rw [List.append_nil]
      exact hp.imp_left (request_keeps hr p)
    | error e b' =>
      have outcome := request_outcome name index direction rate b
      rw [hr] at outcome
      obtain ⟨⟨ids, added⟩, hb'⟩ := outcome
      rw [Action.apply, stateAfter_error hr, hb']
      refine ⟨[], by simpa using h.add added, fun p hp => ?_⟩
      rw [List.append_nil]
      exact hp
  | prepare =>
    obtain ⟨n, b', added, hr, hpins, hwaiting, plugged⟩ := h.prepare
    rw [Action.apply, stateAfter_ok hr]
    refine ⟨added, plugged, fun p hp => .inr ?_⟩
    rw [List.map_append, hpins, List.mem_append]
    exact hp.symm
  | addSignal name width =>
    have hadd := Simulator.addSignal_run name width b.simulator
    split at hadd
    · rw [Action.apply, stateAfter_error (onSimulator_error hadd)]
      exact ⟨[], by simpa using h, fun p hp => by simpa using hp⟩
    · rename_i valid
      obtain ⟨pos, le⟩ : 0 < width ∧ width ≤ 64 := by omega
      have added := h.add (Simulator.added_push b.simulator name pos le)
      rw [Action.apply, stateAfter_ok (onSimulator_ok hadd)]
      exact ⟨[], by simpa using added, fun p hp => by simpa [Granted] using hp⟩

theorem Plugged.run {b : Bench ρ} {attached : List (Pin × List PinProcess)}
    (h : Plugged b attached) (actions : List Action) :
    ∃ more, Plugged (run actions b) (attached ++ more) ∧
      ∀ p, Granted b attached p → Granted (Bench.run actions b) (attached ++ more) p := by
  induction actions generalizing b attached with
  | nil => exact ⟨[], by simpa [Bench.run] using h, fun p hp => by simpa [Bench.run] using hp⟩
  | cons a rest ih =>
    obtain ⟨more, h₁, kept₁⟩ := h.apply a
    obtain ⟨others, h₂, kept₂⟩ := ih h₁
    rw [List.append_assoc] at h₂ kept₂
    exact ⟨more ++ others, h₂, fun p hp => kept₂ p (kept₁ p hp)⟩

theorem run_append (xs ys : List Action) (b : Bench ρ) : run (xs ++ ys) b = run ys (run xs b) :=
  List.foldl_append

/-- A pin that was granted is attached once the bench has been prepared. -/
theorem Plugged.attached_after_prepare {b : Bench ρ} {attached : List (Pin × List PinProcess)}
    (h : Plugged b attached) {p : Pin} (hp : Granted b attached p) (between later : List Action) :
    ∃ attached', Plugged (Bench.run (between ++ .prepare :: later) b) attached' ∧
      p ∈ attached'.map Prod.fst := by
  obtain ⟨more, h₁, kept₁⟩ := h.run between
  obtain ⟨n, b', added, hr, hpins, -, h₂⟩ := h₁.prepare
  obtain ⟨others, h₃, -⟩ := h₂.run later
  refine ⟨attached ++ more ++ added ++ others, ?_, ?_⟩
  · rw [run_append]
    have prepared : (Action.prepare.apply (Bench.run between b)) = b' := stateAfter_ok hr
    rw [Bench.run, List.foldl_cons, prepared]
    exact h₃
  · rw [List.map_append, List.map_append, hpins]
    exact List.mem_append_left _ (List.mem_append.mpr (kept₁ p hp).symm)

end Bench

end NetBridge.Simulation
