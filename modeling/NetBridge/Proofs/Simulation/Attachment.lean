import Mathlib.Algebra.GroupWithZero.Nat
import NetBridge.Proofs.Simulation.Session

/-! # Every pin is attached once

What a bench answers to requests and preparations is recorded in their order. The record
tells which processes of pins the simulator has, whatever else happens in between: a
resource that was granted is never granted again, a preparation never fails, and the pins
that it finds waiting are those of the record that no earlier preparation has come upon. -/
namespace NetBridge

/-- The number of ways in which data crosses a pad. -/
def Direction.ways (d : Direction) : Nat := d.samples.toNat + d.drives.toNat

namespace Simulation

open Simulator (Woken delta? delta?_eq_some wake wake_cons)

variable {ρ : Type}

/-- One process for each way in which data crosses the pin: one that writes signals of
roles if data is sampled, and one that writes the port if data is driven. -/
structure Pin.OnePerWay (p : Pin) (mask : Word) (ins outs : List PinProcess) : Prop where
  inputs : if p.direction.samples then ∃ q, p.inputProcess mask = .ok q ∧ ins = [q] else ins = []
  outputs : if p.direction.drives then ∃ q, p.outputProcess mask = .ok q ∧ outs = [q] else outs = []
  inward : ∀ q ∈ ins, ∀ x ∈ q.sinks, x ∈ p.signals.values
  outward : ∀ q ∈ outs, q.sinks = [p.port]

namespace Pin

variable {p : Pin} {signals : Arena Signal} {port : String} {width : Nat} {mask : Word}
  {ins outs qs : List PinProcess}

theorem length_of_way {way : Bool} {made : PinProcess → Prop}
    (h : if way then ∃ q, made q ∧ qs = [q] else qs = []) : qs.length = way.toNat := by
  cases way with
  | false =>
    rw [if_neg Bool.false_ne_true] at h
    rw [h]
    rfl
  | true =>
    rw [if_pos rfl] at h
    obtain ⟨q, -, rfl⟩ := h
    rfl

theorem OnePerWay.length (h : p.OnePerWay mask ins outs) :
    (ins ++ outs).length = p.direction.ways := by
  rw [List.length_append, length_of_way h.inputs, length_of_way h.outputs, Direction.ways]

theorem onePerWay (minted : Minted signals port width p) (h : p.processes mask = .ok qs) :
    ∃ ins outs, qs = ins ++ outs ∧ p.OnePerWay mask ins outs := by
  have inputs : ∃ ins,
      (if p.direction.samples then ∃ q, p.inputProcess mask = .ok q ∧ ins = [q] else ins = []) ∧
      ∀ q ∈ ins, ∀ x ∈ q.sinks, x ∈ p.signals.values := by
    split
    · rename_i samples
      obtain ⟨q, made, sinks, -⟩ := inputProcess_ok minted samples mask
      exact ⟨[q], ⟨q, made, rfl⟩, List.forall_mem_singleton.mpr sinks⟩
    · exact ⟨[], rfl, List.forall_mem_nil _⟩
  have outputs : ∃ outs,
      (if p.direction.drives then ∃ q, p.outputProcess mask = .ok q ∧ outs = [q] else outs = []) ∧
      ∀ q ∈ outs, q.sinks = [p.port] := by
    split
    · rename_i drives
      obtain ⟨q, made, sinks, -⟩ := outputProcess_ok minted drives mask
      exact ⟨[q], ⟨q, made, rfl⟩, List.forall_mem_singleton.mpr sinks⟩
    · exact ⟨[], rfl, List.forall_mem_nil _⟩
  obtain ⟨ins, hins, inward⟩ := inputs
  obtain ⟨outs, houts, outward⟩ := outputs
  obtain rfl := Except.ok.inj (h.symm.trans (processes_eq hins houts))
  exact ⟨ins, outs, rfl, hins, houts, inward, outward⟩

end Pin

namespace PinProcess

variable {read : SignalId → Option Word} {q : PinProcess} {r : Resumption PinProcess}

/-- The process as it was before it ran. -/
def origin : PinProcess → PinProcess
  | doubleInput l => doubleInput { l with rise := 0, fall := 0, half := .high }
  | doubleOutput l => doubleOutput { l with lane0 := (0, 0), lane1 := (0, 0), second := 0, half := .high }
  | q => q

/-- A process does not become another one. -/
theorem origin_resume (h : q.resume read = some r) : r.process.origin = q.origin := by
  cases q with
  | follow source sink mask =>
    obtain ⟨v, hv, -⟩ := Option.bind_eq_some_iff.mp (show (read source).bind _ = some r from h)
    obtain rfl := Option.some.inj ((resume_follow hv).symm.trans h)
    rfl
  | register clk source sink mask =>
    obtain ⟨v, hv, -⟩ := Option.bind_eq_some_iff.mp (show (read source).bind _ = some r from h)
    obtain rfl := Option.some.inj ((resume_register hv).symm.trans h)
    rfl
  | doubleInput l =>
    obtain ⟨r', hr', -⟩ := Option.map_eq_some_iff.mp h
    obtain ⟨v, hv, -⟩ := Option.bind_eq_some_iff.mp (show (read l.port).bind _ = some r' from hr')
    cases half : l.half with
    | high =>
      obtain rfl := Option.some.inj ((resume_doubleInput_high half hv).symm.trans h)
      rfl
    | low =>
      obtain rfl := Option.some.inj ((resume_doubleInput_low half hv).symm.trans h)
      rfl
  | doubleOutput l =>
    cases half : l.half with
    | high =>
      obtain ⟨r', hr', -⟩ := Option.map_eq_some_iff.mp h
      rw [DoubleOutput.resume, half] at hr'
      obtain ⟨v, hv, hr'⟩ := Option.bind_eq_some_iff.mp hr'
      obtain ⟨w, hw, -⟩ := Option.bind_eq_some_iff.mp hr'
      obtain rfl := Option.some.inj ((resume_doubleOutput_high half hv hw).symm.trans h)
      rfl
    | low =>
      obtain rfl := Option.some.inj ((resume_doubleOutput_low half).symm.trans h)
      rfl

end PinProcess

theorem Pin.origin_of_mem {p : Pin} {signals : Arena Signal} {port : String} {width : Nat}
    {mask : Word} {q : PinProcess} {qs : List PinProcess} (minted : Minted signals port width p)
    (h : p.processes mask = .ok qs) (hq : q ∈ qs) : q.origin = q := by
  rcases (mem_processes h).mp hq with ⟨samples, made⟩ | ⟨drives, made⟩
  · rcases inputProcess_cases minted samples mask with
      ⟨-, i, -, made'⟩ | ⟨-, clk, i, -, -, made'⟩ | ⟨-, clk, i0, i1, -, -, -, made'⟩ <;>
      obtain rfl := Except.ok.inj (made.symm.trans made') <;> rfl
  · rcases outputProcess_cases minted drives mask with
      ⟨-, o, -, made'⟩ | ⟨-, clk, o, -, -, made'⟩ | ⟨-, clk, o0, o1, -, -, -, made'⟩ <;>
      obtain rfl := Except.ok.inj (made.symm.trans made') <;> rfl

/-- The processes of pins in their order, each as it was when it was added. -/
def pinProcesses (slots : List (Slot (PinProcess ⊕ ρ))) : List PinProcess :=
  slots.filterMap fun slot => slot.process.getLeft?.map PinProcess.origin

theorem pinProcesses_append (xs ys : List (Slot (PinProcess ⊕ ρ))) :
    pinProcesses (xs ++ ys) = pinProcesses xs ++ pinProcesses ys := List.filterMap_append

theorem pinProcesses_cons (slot : Slot (PinProcess ⊕ ρ)) (rest : List (Slot (PinProcess ⊕ ρ))) :
    pinProcesses (slot :: rest) = pinProcesses [slot] ++ pinProcesses rest :=
  pinProcesses_append [slot] rest

theorem pinProcesses_slotsOf {signals : Arena Signal} {added : List (Pin × List PinProcess)}
    (animated : ∀ a ∈ added, Animated signals a) :
    pinProcesses (slotsOf added : List (Slot (PinProcess ⊕ ρ))) = added.flatMap Prod.snd := by
  rw [pinProcesses, slotsOf, List.filterMap_flatMap]
  refine List.flatMap_congr fun a ha => ?_
  obtain ⟨port, width, minted, made⟩ := animated a ha
  rw [List.filterMap_map]
  refine (List.filterMap_congr fun q hq => ?_).trans List.filterMap_some
  exact congrArg some (Pin.origin_of_mem minted made hq)

/-- Signals stay, whatever their values, and so do the processes of pins, whatever their
states. -/
structure Undisturbed (s s' : Simulator (PinProcess ⊕ ρ)) : Prop where
  retains : Retains s.signals s'.signals
  processes : pinProcesses s'.slots = pinProcesses s.slots

theorem Retains.trans {a b c : Arena Signal} (hab : Retains a b) (hbc : Retains b c) :
    Retains a c := fun id x hx => by
  obtain ⟨v, hv⟩ := hab id x hx
  obtain ⟨w, hw⟩ := hbc id _ hv
  exact ⟨w, hw⟩

theorem Retains.extends {a b : Arena Signal} (grown : a.Extends b) : Retains a b :=
  fun _ x hx => ⟨x.value, grown hx⟩

/-- A commit changes nothing but values. -/
theorem Simulator.commit_retains (signals : Arena Signal) (pending : Table SignalId Word) :
    Retains signals (commit signals pending) := by
  induction pending generalizing signals with
  | nil => exact .extends (.refl signals)
  | cons p rest ih =>
    refine Retains.trans (fun id x hx => ?_) (ih _)
    rw [Arena.get?_modify, hx]
    split
    · exact ⟨p.2, rfl⟩
    · exact ⟨x.value, rfl⟩

theorem Animated.retained {a b : Arena Signal} {added : Pin × List PinProcess}
    (h : Animated a added) (retains : Retains a b) : Animated b added := by
  obtain ⟨port, width, minted, made⟩ := h
  exact ⟨port, width, minted.retained retains, made⟩

namespace Undisturbed

variable {s s' s'' : Simulator (PinProcess ⊕ ρ)}

theorem refl (s : Simulator (PinProcess ⊕ ρ)) : Undisturbed s s := ⟨.extends (.refl _), rfl⟩

theorem trans (h : Undisturbed s s') (h' : Undisturbed s' s'') : Undisturbed s s'' :=
  ⟨h.retains.trans h'.retains, h'.processes.trans h.processes⟩

theorem added {ids : List SignalId} (h : Added s s' ids) : Undisturbed s s' :=
  ⟨.extends h.adds.grown, by rw [h.only]⟩

theorem addSignal (name : String) (width : Nat) (s : Simulator (PinProcess ⊕ ρ)) :
    Undisturbed s (stateAfter (Simulator.addSignal name width) s) := by
  rw [stateAfter, Simulator.addSignal_run]
  by_cases invalid : width = 0 ∨ 64 < width
  · rw [if_pos invalid]
    exact refl s
  · rw [if_neg invalid]
    exact ⟨.extends (.push _ _), rfl⟩

theorem write (id : SignalId) (v : Word) (s : Simulator (PinProcess ⊕ ρ)) :
    Undisturbed s (stateAfter (Simulator.set id v) s) := by
  rcases Simulator.write_eq s id v with same | ⟨x, -, -, done⟩
  · rw [show stateAfter (Simulator.set id v) s = s from same]
    exact refl s
  · rw [show stateAfter (Simulator.set id v) s = _ from done]
    exact ⟨.extends (.refl _), rfl⟩

variable [Coroutine ρ]

/-- A process that is no pin's joins. -/
theorem join (r : ρ) (s : Simulator (PinProcess ⊕ ρ)) :
    Undisturbed s (stateAfter (Simulator.addProcess (.inr r)) s) :=
  ⟨.extends (.refl _), (pinProcesses_append _ _).trans (List.append_nil _)⟩

theorem woken {signals : Arena Signal} {changed : Table SignalId Word}
    {slot slot' : Slot (PinProcess ⊕ ρ)} {writes : List (SignalId × Word)}
    (h : Woken signals changed slot writes slot') : pinProcesses [slot'] = pinProcesses [slot] := by
  cases hp : slot.process with
  | inl q =>
    rcases woken_pin h hp with ⟨-, -, rfl⟩ | ⟨r, -, hr, -, rfl⟩
    · rfl
    · simp [pinProcesses, hp, PinProcess.origin_resume hr]
  | inr r =>
    cases hp' : slot'.process with
    | inl q =>
      obtain ⟨q', hq'⟩ := pin_of_woken h hp'
      cases hp.symm.trans hq'
    | inr r' => simp [pinProcesses, hp, hp']

theorem wake {signals : Arena Signal} {changed pending pending' : Table SignalId Word}
    {slots slots' : List (Slot (PinProcess ⊕ ρ))}
    (h : Simulator.wake signals changed pending slots = some (pending', slots')) :
    pinProcesses slots' = pinProcesses slots := by
  induction slots generalizing pending slots' with
  | nil =>
    obtain ⟨-, rfl⟩ := Prod.mk.inj (Option.some.inj h)
    rfl
  | cons slot rest ih =>
    obtain ⟨writes, slot', queued, rest', woken, -, hrest, rfl⟩ := wake_cons h
    rw [pinProcesses_cons slot', Undisturbed.woken woken, ih hrest, ← pinProcesses_cons]

theorem delta (h : delta? s = some s') : Undisturbed s s' := by
  obtain ⟨pending, slots, hw, rfl⟩ := delta?_eq_some h
  exact ⟨Simulator.commit_retains _ _, wake hw⟩

theorem settle (s : Simulator (PinProcess ⊕ ρ)) : Undisturbed s (stateAfter Simulator.settle s) :=
  Simulator.settle_traced (P := fun _ t => Undisturbed s t) (A := fun _ => True)
    (fun _ _ _ h _ hd => h.trans (delta hd)) (fun _ _ _ h => ⟨h.retains, h.processes⟩) [] (refl s)
    fun _ _ => trivial

end Undisturbed

namespace Bench

/-- The processes that are added are counted. -/
theorem spawnAll_counts [Coroutine ρ] {pins : List Pin} {n : Nat}
    {s s' : Simulator (PinProcess ⊕ ρ)}
    (minted : ∀ p ∈ pins, ∃ port width, Minted s.signals port width p)
    (h : spawnAll pins s = .ok n s') : s'.slots.length = s.slots.length + n := by
  induction pins generalizing s n with
  | nil =>
    obtain ⟨rfl, rfl⟩ := EStateM.Result.ok.inj h
    rfl
  | cons p rest ih =>
    obtain ⟨⟨port, width, first⟩, others⟩ := List.forall_mem_cons.mp minted
    obtain ⟨qs, -, hrun⟩ := Pin.spawn_ok first
    rw [spawnAll, bind_of_ok hrun] at h
    obtain ⟨m, u, hrest, h⟩ := bind_eq_ok.mp h
    obtain ⟨rfl, rfl⟩ := EStateM.Result.ok.inj h
    rw [ih (s := { s with slots := s.slots ++ qs.map freshSlot }) others hrest,
      List.length_append, List.length_map, Nat.add_assoc]

variable [Coroutine ρ]

/-- A preparation adds the processes of the pins that wait, and counts them. -/
theorem prepare_counts {b : Bench ρ}
    (minted : ∀ p ∈ b.waiting, ∃ port width, Minted b.simulator.signals port width p) :
    ∃ added : List (Pin × List PinProcess), added.map Prod.fst = b.waiting ∧
      (∀ a ∈ added, Animated b.simulator.signals a) ∧
      prepare b = .ok (added.flatMap Prod.snd).length { b with
        simulator := { b.simulator with slots := b.simulator.slots ++ slotsOf added }
        waiting := [] } := by
  obtain ⟨n, added, hpins, animated, hrun⟩ := spawnAll_ok minted
  have counted := spawnAll_counts minted hrun
  have slots : (slotsOf added : List (Slot (PinProcess ⊕ ρ))).length =
      (added.flatMap Prod.snd).length := by
    simp only [slotsOf, List.length_flatMap, List.length_map]
  rw [List.length_append, Nat.add_left_cancel_iff, slots] at counted
  refine ⟨added, hpins, animated, ?_⟩
  rw [prepare, bind_of_ok get_run, bind_of_ok (modify_run _), counted]
  exact onSimulator_ok hrun

/-- What a bench answers to a request or a preparation. -/
inductive Reply where
  | granted (key : String × Option Nat) (pins : PinTree)
  | refused (e : Error)
  /-- So many processes were added. -/
  | prepared (count : Nat)
  | failed (e : Error)

namespace Reply

/-- The resource that was granted. -/
def key? : Reply → Option (String × Option Nat)
  | granted key _ => some key
  | _ => none

/-- The pins that were granted, leaf by leaf. -/
def pins : Reply → List Pin
  | granted _ pins => pins.leaves
  | _ => []

def count : Reply → Nat
  | prepared count => count
  | _ => 0

/-- The pins that wait after the answer, where these waited before it. -/
def afterwards (waiting : List Pin) : Reply → List Pin
  | prepared _ => []
  | r => waiting ++ r.pins

end Reply

/-- The pins that were granted since the last preparation. -/
def unprepared (record : List Reply) : List Pin := record.foldl Reply.afterwards []

def Event.reply? : Event ρ → Bench ρ → Option Reply
  | arrange (.request name index direction rate), b =>
    match request name index direction rate b with
    | .ok pins _ => some (.granted (name, index) pins)
    | .error e _ => some (.refused e)
  | arrange .prepare, b =>
    match prepare b with
    | .ok count _ => some (.prepared count)
    | .error e _ => some (.failed e)
  | _, _ => none

/-- The answers of a session in their order. -/
def record : List (Event ρ) → Bench ρ → List Reply
  | [], _ => []
  | e :: rest, b => (e.reply? b).toList ++ record rest (e.apply b)

/-- The bench is as the record tells: these pins are attached, and the others of the
record wait. -/
structure Recorded (board : Board) (start : List PinProcess) (replies : List Reply)
    (attached : List (Pin × List PinProcess)) (b : Bench ρ) : Prop where
  sameBoard : b.board = board
  requested : replies.filterMap Reply.key? = b.requested
  once : b.requested.Nodup
  unfailed : ∀ e, .failed e ∉ replies
  waiting : unprepared replies = b.waiting
  minted : ∀ p ∈ b.waiting, ∃ port width, Minted b.simulator.signals port width p
  pins : attached.map Prod.fst ++ b.waiting = replies.flatMap Reply.pins
  laidOut : ∀ key pins, .granted key pins ∈ replies → LaidOut board b.simulator.signals key pins
  animated : ∀ a ∈ attached, Animated b.simulator.signals a
  processes : pinProcesses b.simulator.slots = start ++ attached.flatMap Prod.snd
  counted : (replies.map Reply.count).sum = (attached.flatMap Prod.snd).length

namespace Recorded

variable {board : Board} {start : List PinProcess} {replies : List Reply}
  {attached : List (Pin × List PinProcess)} {b : Bench ρ}

omit [Coroutine ρ] in
theorem fresh (board : Board) (simulator : Simulator (PinProcess ⊕ ρ)) :
    Recorded board (pinProcesses simulator.slots) [] [] ({ board, simulator } : Bench ρ) where
  sameBoard := rfl
  requested := rfl
  once := List.nodup_nil
  unfailed := by simp
  waiting := rfl
  minted := by simp
  pins := rfl
  laidOut := by simp
  animated := by simp
  processes := (List.append_nil _).symm
  counted := rfl

omit [Coroutine ρ] in
/-- The signals of what was granted are there, whether its pins wait or are attached. -/
theorem minted_granted (h : Recorded board start replies attached b) {key : String × Option Nat}
    {pins : PinTree} (granted : .granted key pins ∈ replies) :
    ∀ p ∈ pins.leaves, ∃ port width, Minted b.simulator.signals port width p := by
  intro p hp
  have known : p ∈ attached.map Prod.fst ++ b.waiting := by
    rw [h.pins]
    exact List.mem_flatMap.mpr ⟨_, granted, hp⟩
  rcases List.mem_append.mp known with there | waits
  · obtain ⟨a, ha, rfl⟩ := List.mem_map.mp there
    obtain ⟨port, width, minted, -⟩ := h.animated a ha
    exact ⟨port, width, minted⟩
  · exact h.minted p waits

omit [Coroutine ρ] in
/-- Nothing is recorded of what disturbs no pin. -/
theorem simulate (h : Recorded board start replies attached b) {s : Simulator (PinProcess ⊕ ρ)}
    (undisturbed : Undisturbed b.simulator s) :
    Recorded board start replies attached { b with simulator := s } where
  sameBoard := h.sameBoard
  requested := h.requested
  once := h.once
  unfailed := h.unfailed
  waiting := h.waiting
  minted p hp := by
    obtain ⟨port, width, minted⟩ := h.minted p hp
    exact ⟨port, width, minted.retained undisturbed.retains⟩
  pins := h.pins
  laidOut key pins granted :=
    (h.laidOut key pins granted).retained (h.minted_granted granted) undisturbed.retains
  animated a ha := (h.animated a ha).retained undisturbed.retains
  processes := undisturbed.processes.trans h.processes
  counted := h.counted

omit [Coroutine ρ] in
theorem refuse (h : Recorded board start replies attached b) (e : Error) :
    Recorded board start (replies ++ [.refused e]) attached b where
  sameBoard := h.sameBoard
  requested := by simpa [List.filterMap_cons, Reply.key?] using h.requested
  once := h.once
  unfailed e' := by simpa using h.unfailed e'
  waiting := by simpa [unprepared, Reply.afterwards, Reply.pins] using h.waiting
  minted := h.minted
  pins := by simpa [Reply.pins] using h.pins
  laidOut key pins granted := h.laidOut key pins (by simpa using granted)
  animated := h.animated
  processes := h.processes
  counted := by simpa [Reply.count] using h.counted

omit [Coroutine ρ] in
theorem grant (h : Recorded board start replies attached b) {key : String × Option Nat}
    (new : key ∉ b.requested) {pins : PinTree}
    (minted : ∀ p ∈ pins.leaves, ∃ port width, Minted b.simulator.signals port width p)
    (laid : LaidOut board b.simulator.signals key pins) :
    Recorded board start (replies ++ [.granted key pins]) attached { b with
      requested := b.requested ++ [key]
      waiting := b.waiting ++ pins.leaves } where
  sameBoard := h.sameBoard
  requested := by simp [Reply.key?, ← h.requested]
  once := h.once.append (List.nodup_singleton _) (by simpa using new)
  unfailed e := by simpa using h.unfailed e
  waiting := by simp [unprepared, Reply.afterwards, Reply.pins, ← h.waiting]
  minted := List.forall_mem_append.mpr ⟨h.minted, minted⟩
  pins := by simp [Reply.pins, ← h.pins]
  laidOut key' pins' granted := by
    rcases List.mem_append.mp granted with before | now
    · exact h.laidOut key' pins' before
    · obtain ⟨rfl, rfl⟩ := Reply.granted.inj (List.mem_singleton.mp now)
      exact laid
  animated := h.animated
  processes := h.processes
  counted := by simpa [Reply.count] using h.counted

omit [Coroutine ρ] in
theorem attach (h : Recorded board start replies attached b)
    {added : List (Pin × List PinProcess)} (pins : added.map Prod.fst = b.waiting)
    (animated : ∀ a ∈ added, Animated b.simulator.signals a) :
    Recorded board start (replies ++ [.prepared (added.flatMap Prod.snd).length])
      (attached ++ added) { b with
      simulator := { b.simulator with slots := b.simulator.slots ++ slotsOf added }
      waiting := [] } where
  sameBoard := h.sameBoard
  requested := by simpa [List.filterMap_cons, Reply.key?] using h.requested
  once := h.once
  unfailed e := by simpa using h.unfailed e
  waiting := by simp [unprepared, Reply.afterwards]
  minted := by simp
  pins := by simp [Reply.pins, pins, ← h.pins]
  laidOut key pins granted := h.laidOut key pins (by simpa using granted)
  animated := List.forall_mem_append.mpr ⟨h.animated, animated⟩
  processes := by
    rw [pinProcesses_append, h.processes, pinProcesses_slotsOf animated, List.flatMap_append,
      List.append_assoc]
  counted := by
    rw [List.map_append, List.sum_append, h.counted, List.flatMap_append, List.length_append]
    rfl

theorem request (h : Recorded board start replies attached b) (name : String) (index : Option Nat)
    (direction : Option DirectionSpec) (rate : Option RateSpec) :
    let e : Event ρ := .arrange (.request name index direction rate)
    Recorded board start (replies ++ (e.reply? b).toList) attached (e.apply b) := by
  have outcome := request_outcome name index direction rate b
  simp only [Event.reply?, Event.apply, Action.apply]
  cases hr : Bench.request name index direction rate b with
  | ok pins b' =>
    rw [hr] at outcome
    obtain ⟨added, minted, hb'⟩ := outcome
    obtain ⟨new, laid⟩ := request_grants hr
    rw [h.sameBoard] at laid
    rw [stateAfter_ok hr, hb']
    exact (h.simulate (.added added)).grant new minted laid
  | error e b' =>
    rw [hr] at outcome
    obtain ⟨⟨ids, added⟩, hb'⟩ := outcome
    rw [stateAfter_error hr, hb']
    exact (h.simulate (.added added)).refuse e

theorem prepare (h : Recorded board start replies attached b) :
    let e : Event ρ := .arrange .prepare
    ∃ more, Recorded board start (replies ++ (e.reply? b).toList) (attached ++ more)
      (e.apply b) := by
  obtain ⟨added, pins, animated, hrun⟩ := prepare_counts h.minted
  simp only [Event.reply?, Event.apply, Action.apply]
  rw [hrun, stateAfter_ok hrun]
  exact ⟨added, h.attach pins animated⟩

/-- The record goes on telling how the bench is. -/
theorem apply (h : Recorded board start replies attached b) (e : Event ρ) :
    ∃ more, Recorded board start (replies ++ (e.reply? b).toList) (attached ++ more)
      (e.apply b) := by
  have quiet {s : Simulator (PinProcess ⊕ ρ)} (undisturbed : Undisturbed b.simulator s) :
      ∃ more, Recorded board start (replies ++ []) (attached ++ more) { b with simulator := s } :=
    ⟨[], by simpa using h.simulate undisturbed⟩
  cases e with
  | arrange a =>
    cases a with
    | request name index direction rate =>
      exact ⟨[], by simpa using h.request name index direction rate⟩
    | prepare => exact h.prepare
    | addSignal name width =>
      rw [Event.apply, Action.apply, stateAfter_onSimulator]
      exact quiet (.addSignal name width _)
  | join r =>
    rw [Event.apply, stateAfter_onSimulator]
    exact quiet (.join r _)
  | write id v =>
    rw [Event.apply, stateAfter_onSimulator]
    exact quiet (.write id v _)
  | settle =>
    rw [Event.apply, stateAfter_onSimulator]
    exact quiet (.settle _)
  | limit n => exact quiet ⟨.extends (.refl _), rfl⟩

theorem play (h : Recorded board start replies attached b) (events : List (Event ρ)) :
    ∃ more, Recorded board start (replies ++ record events b) (attached ++ more)
      (Bench.play events b) := by
  induction events generalizing b replies attached with
  | nil => exact ⟨[], by simpa [Bench.play, record] using h⟩
  | cons e rest ih =>
    obtain ⟨more, h₁⟩ := h.apply e
    obtain ⟨others, h₂⟩ := ih h₁
    rw [List.append_assoc, List.append_assoc] at h₂
    exact ⟨more ++ others, h₂⟩

end Recorded

theorem ways_of_animated {signals : Arena Signal} {added : List (Pin × List PinProcess)}
    (animated : ∀ a ∈ added, Animated signals a) : (added.flatMap Prod.snd).length =
      ((added.map Prod.fst).map fun p => p.direction.ways).sum := by
  rw [List.length_flatMap, List.map_map]
  refine congrArg List.sum (List.map_congr_left fun a ha => ?_)
  obtain ⟨port, width, minted, made⟩ := animated a ha
  obtain ⟨ins, outs, same, onePerWay⟩ := Pin.onePerWay minted made
  rw [same, onePerWay.length]
  rfl

/-- Whatever happens to a bench in whatever order, no resource is granted twice and no
preparation fails. What is granted has a pin for each leaf of the resource's layout, as wide
as the leaf and active-low where the leaf is. A further preparation adds the processes of the
pins that were granted since the last one, none if there are no such pins. Then each leaf of
what was granted, in the order of the requests, has one process for each way in which data
crosses it. Those and the processes of pins that were there at the start are all, and the
counts of the preparations come to their number. -/
theorem every_pin_is_attached_once (board : Board) (simulator : Simulator (PinProcess ⊕ ρ))
    (events : List (Event ρ)) :
    let b := Bench.play events { board, simulator }
    let replies := record events { board, simulator }
    (replies.filterMap Reply.key?).Nodup ∧ (∀ e, .failed e ∉ replies) ∧
    ∃ (n : Nat) (b' : Bench ρ) (attached : List (Pin × List PinProcess)), Bench.prepare b = .ok n b' ∧
      n = ((unprepared replies).map fun p => p.direction.ways).sum ∧
      (∀ key pins, .granted key pins ∈ replies → LaidOut board b'.simulator.signals key pins) ∧
      attached.map Prod.fst = replies.flatMap Reply.pins ∧
      (∀ a ∈ attached, ∃ width ins outs, Sized b'.simulator.signals a.1.port width ∧
        a.2 = ins ++ outs ∧ a.1.OnePerWay (a.1.crossing width) ins outs) ∧
      pinProcesses b'.simulator.slots =
        pinProcesses simulator.slots ++ attached.flatMap Prod.snd ∧
      (replies.map Reply.count).sum + n = (attached.flatMap Prod.snd).length := by
  intro b replies
  obtain ⟨attached, before⟩ := (Recorded.fresh board simulator).play events
  rw [List.nil_append, List.nil_append] at before
  obtain ⟨added, pins, animated, hrun⟩ := prepare_counts before.minted
  have after := before.attach pins animated
  refine ⟨?_, before.unfailed, _, _, _, hrun, ?_, before.laidOut, ?_, ?_, after.processes, ?_⟩
  · rw [before.requested]
    exact before.once
  · rw [before.waiting, ← pins]
    exact ways_of_animated animated
  · simpa [Reply.pins] using after.pins
  · intro a ha
    obtain ⟨port, width, minted, made⟩ := after.animated a ha
    obtain ⟨ins, outs, same, onePerWay⟩ := Pin.onePerWay minted made
    exact ⟨width, ins, outs, minted.sized_port, same, onePerWay⟩
  · simpa [Reply.count] using after.counted

end Bench

end Simulation

end NetBridge
