import NetBridge.Simulation.Pin
import NetBridge.Proofs.Simulation.Kernel

/-! # Who writes a signal

The process of a pin watches one signal and writes the same signals all its life. A signal that a single
process follows another one into gets a write exactly when that other one changes, and
a signal that no process writes gets none. -/
namespace NetBridge.Simulation

open Simulator (fires queue queue_spares value? wake wake_cons wake_forall wake_quiet Woken)

/-- The level that begins a half of the clock cycle. -/
def Half.level : Half → Word
  | high => 1
  | low => 0

namespace PinProcess

/-- The signals that a process writes. -/
def sinks : PinProcess → List SignalId
  | follow _ sink _ => [sink]
  | register _ _ sink _ => [sink]
  | doubleInput lanes => [lanes.i0, lanes.i1]
  | doubleOutput lanes => [lanes.port]

/-- The signal whose changes may wake a process. -/
def watched : PinProcess → SignalId
  | follow source _ _ => source
  | register clk _ _ _ => clk
  | doubleInput lanes => lanes.clk
  | doubleOutput lanes => lanes.clk

/-- What a process waits for in its present state. -/
def wait : PinProcess → Wait
  | follow source _ _ => .change source
  | register clk _ _ _ => .level clk 1
  | doubleInput lanes => .level lanes.clk lanes.half.level
  | doubleOutput lanes => .level lanes.clk lanes.half.level

section Resuming

variable {read : SignalId → Option Word} {v w : Word}

theorem resume_follow {source sink : SignalId} {mask : Word} (hv : read source = some v) :
    (follow source sink mask).resume read =
      some ⟨follow source sink mask, [(sink, v ^^^ mask)], .change source⟩ := by
  rw [resume, hv]
  rfl

theorem resume_register {clk source sink : SignalId} {mask : Word} (hv : read source = some v) :
    (register clk source sink mask).resume read =
      some ⟨register clk source sink mask, [(sink, v ^^^ mask)], .level clk 1⟩ := by
  rw [resume, hv]
  rfl

theorem resume_doubleInput_high {l : DoubleInput} (half : l.half = .high)
    (hv : read l.port = some v) : (doubleInput l).resume read =
      some ⟨doubleInput { l with rise := v, half := .low },
        [(l.i0, l.rise ^^^ l.mask), (l.i1, l.fall ^^^ l.mask)], .level l.clk 0⟩ := by
  rw [resume, DoubleInput.resume, hv, half]
  rfl

theorem resume_doubleInput_low {l : DoubleInput} (half : l.half = .low)
    (hv : read l.port = some v) : (doubleInput l).resume read =
      some ⟨doubleInput { l with fall := v, half := .high }, [], .level l.clk 1⟩ := by
  rw [resume, DoubleInput.resume, hv, half]
  rfl

theorem resume_doubleOutput_high {l : DoubleOutput} (half : l.half = .high)
    (hv : read l.o0 = some v) (hw : read l.o1 = some w) : (doubleOutput l).resume read =
      some ⟨doubleOutput { l with
          lane0 := (l.lane0.2, v)
          lane1 := (l.lane1.2, w)
          second := l.lane1.1
          half := .low },
        [(l.port, l.lane0.1 ^^^ l.mask)], .level l.clk 0⟩ := by
  rw [resume, DoubleOutput.resume, half, hv, hw]
  rfl

theorem resume_doubleOutput_low {l : DoubleOutput} (half : l.half = .low) :
    (doubleOutput l).resume read = some ⟨doubleOutput { l with half := .high },
      [(l.port, l.second ^^^ l.mask)], .level l.clk 1⟩ := by
  rw [resume, DoubleOutput.resume, half]
  rfl

/-- A resumed process has its clock and its sinks still, writes to all of its sinks or to
none of them, and waits as its new state asks for. -/
theorem resume_keeps {q : PinProcess} {r : Resumption PinProcess} (h : q.resume read = some r) :
    r.process.watched = q.watched ∧ r.process.sinks = q.sinks ∧ r.wait = r.process.wait ∧
      (Table.keys r.writes = q.sinks ∨ r.writes = []) := by
  cases q with
  | follow source sink mask =>
    obtain ⟨v, hv, -⟩ := Option.bind_eq_some_iff.mp (show (read source).bind _ = some r from h)
    obtain rfl := Option.some.inj ((resume_follow hv).symm.trans h)
    exact ⟨rfl, rfl, rfl, .inl rfl⟩
  | register clk source sink mask =>
    obtain ⟨v, hv, -⟩ := Option.bind_eq_some_iff.mp (show (read source).bind _ = some r from h)
    obtain rfl := Option.some.inj ((resume_register hv).symm.trans h)
    exact ⟨rfl, rfl, rfl, .inl rfl⟩
  | doubleInput l =>
    obtain ⟨r', hr', -⟩ := Option.map_eq_some_iff.mp h
    obtain ⟨v, hv, -⟩ := Option.bind_eq_some_iff.mp (show (read l.port).bind _ = some r' from hr')
    cases half : l.half with
    | high =>
      obtain rfl := Option.some.inj ((resume_doubleInput_high half hv).symm.trans h)
      exact ⟨rfl, rfl, rfl, .inl rfl⟩
    | low =>
      obtain rfl := Option.some.inj ((resume_doubleInput_low half hv).symm.trans h)
      exact ⟨rfl, rfl, rfl, .inr rfl⟩
  | doubleOutput l =>
    cases half : l.half with
    | high =>
      obtain ⟨r', hr', -⟩ := Option.map_eq_some_iff.mp h
      rw [DoubleOutput.resume, half] at hr'
      obtain ⟨v, hv, hr'⟩ := Option.bind_eq_some_iff.mp hr'
      obtain ⟨w, hw, -⟩ := Option.bind_eq_some_iff.mp hr'
      obtain rfl := Option.some.inj ((resume_doubleOutput_high half hv hw).symm.trans h)
      exact ⟨rfl, rfl, rfl, .inl rfl⟩
    | low =>
      obtain rfl := Option.some.inj ((resume_doubleOutput_low half).symm.trans h)
      exact ⟨rfl, rfl, rfl, .inl rfl⟩

theorem resume_sinks {q : PinProcess} {r : Resumption PinProcess} (h : q.resume read = some r) :
    (∀ w ∈ r.writes, w.1 ∈ q.sinks) ∧ r.process.sinks = q.sinks := by
  obtain ⟨-, sinks, -, keys⟩ := resume_keeps h
  refine ⟨fun w hw => ?_, sinks⟩
  rcases keys with keys | none
  · rw [← keys]
    exact List.mem_map_of_mem hw
  · rw [none] at hw
    cases hw

end Resuming

/-- A wait can only be over if the watched signal has changed. -/
theorem watched_of_fires {signals : Arena Signal} {changed : Table SignalId Word} {q : PinProcess}
    (h : Simulator.fires signals changed q.wait = true) : Table.contains changed q.watched = true := by
  cases q with
  | follow => exact h
  | register => exact (Bool.and_eq_true_iff.mp h).1
  | doubleInput => exact (Bool.and_eq_true_iff.mp h).1
  | doubleOutput => exact (Bool.and_eq_true_iff.mp h).1

end PinProcess

variable {ρ : Type}

/-- The process is one of a pin and never writes the signal. -/
def Spares (x : SignalId) : PinProcess ⊕ ρ → Prop
  | .inl p => x ∉ p.sinks
  | .inr _ => False

theorem Spares.resume [Coroutine ρ] {x : SignalId} {p : PinProcess ⊕ ρ} {read : SignalId → Option Word}
    {r : Resumption (PinProcess ⊕ ρ)} (h : Spares x p) (hr : Coroutine.resume p read = some r) :
    (∀ w ∈ r.writes, w.1 ≠ x) ∧ Spares x r.process := by
  cases p with
  | inr _ => exact h.elim
  | inl p =>
    obtain ⟨r', hr', rfl⟩ := Option.map_eq_some_iff.mp hr
    obtain ⟨writes, stays⟩ := PinProcess.resume_sinks hr'
    refine ⟨fun w hw same => h (same ▸ writes w hw), ?_⟩
    rw [Resumption.map, Spares, stays]
    exact h

/-- No slot writes the signal. -/
def Unwritten (x : SignalId) (slots : List (Slot (PinProcess ⊕ ρ))) : Prop :=
  ∀ slot ∈ slots, Spares x slot.process

section Waking

variable {signals : Arena Signal} {changed pending pending' : Table SignalId Word}
  {slot slot' : Slot (PinProcess ⊕ ρ)} {slots slots' : List (Slot (PinProcess ⊕ ρ))}
  {writes : List (SignalId × Word)} {x : SignalId} [Coroutine ρ]

/-- The process of a pin sleeps, or goes on. -/
theorem woken_pin (h : Woken signals changed slot writes slot') {q : PinProcess}
    (hq : slot.process = .inl q) :
    (fires signals changed slot.wait = false ∧ writes = [] ∧ slot' = slot) ∨
      ∃ r, fires signals changed slot.wait = true ∧ q.resume (value? signals) = some r ∧
        writes = r.writes ∧ slot' = ⟨.inl r.process, r.wait⟩ := by
  cases h with
  | asleep quiet => exact .inl ⟨quiet, rfl, rfl⟩
  | awake fired resumed =>
    rw [hq] at resumed
    obtain ⟨r, hr, rfl⟩ := Option.map_eq_some_iff.mp resumed
    exact .inr ⟨r, fired, hr, rfl, rfl⟩

/-- It was one of a pin before. -/
theorem pin_of_woken (h : Woken signals changed slot writes slot') {q' : PinProcess}
    (hq' : slot'.process = .inl q') : ∃ q, slot.process = .inl q := by
  cases h with
  | asleep => exact ⟨q', hq'⟩
  | awake _ resumed =>
    cases hp : slot.process with
    | inl q => exact ⟨q, rfl⟩
    | inr other =>
      rw [hp] at resumed
      obtain ⟨r, -, rfl⟩ := Option.map_eq_some_iff.mp resumed
      cases hq'

theorem woken_spares (h : Woken signals changed slot writes slot')
    (spared : Spares x slot.process) :
    (∀ w ∈ writes, w.1 ≠ x) ∧ Spares x slot'.process := by
  cases h with
  | asleep => exact ⟨by simp, spared⟩
  | awake _ hr => exact spared.resume hr

/-- Nothing is queued for a signal that no slot writes. -/
theorem wake_unwritten (h : wake signals changed pending slots = some (pending', slots'))
    (unwritten : Unwritten x slots) :
    Table.get? pending' x = Table.get? pending x ∧ Unwritten x slots' := by
  refine ⟨wake_quiet (fun slot hslot writes slot' woken hx => ?_) h,
    wake_forall (fun _ _ _ spared woken => (woken_spares woken spared).2) h unwritten⟩
  obtain ⟨w, hw, rfl⟩ := List.mem_map.mp hx
  exact (woken_spares woken (unwritten slot hslot)).1 w hw rfl

variable {source sink : SignalId} {mask : Word}

/-- One slot follows the source into the sink, and no other slot writes the sink. -/
inductive Linked (source sink : SignalId) (mask : Word) :
    List (Slot (PinProcess ⊕ ρ)) → Prop
  | here {rest : List (Slot (PinProcess ⊕ ρ))} : Unwritten sink rest →
    Linked source sink mask (⟨.inl (.follow source sink mask), .change source⟩ :: rest)
  | later {slot : Slot (PinProcess ⊕ ρ)} {rest : List (Slot (PinProcess ⊕ ρ))} :
    Spares sink slot.process → Linked source sink mask rest →
    Linked source sink mask (slot :: rest)

omit [Coroutine ρ] in
theorem Linked.prepend (h : Linked source sink mask slots) (spared : Unwritten sink slots') :
    Linked source sink mask (slots' ++ slots) := by
  induction slots' with
  | nil => exact h
  | cons slot rest ih =>
    obtain ⟨first, others⟩ := List.forall_mem_cons.mp spared
    exact .later first (ih others)

omit [Coroutine ρ] in
theorem Linked.append (h : Linked source sink mask slots) (spared : Unwritten sink slots') :
    Linked source sink mask (slots ++ slots') := by
  induction h with
  | here unwritten => exact .here (List.forall_mem_append.mpr ⟨unwritten, spared⟩)
  | later first _ ih => exact .later first ih

/-- The follower writes if its source has changed, and is ready for the next change. -/
theorem woken_follow (h : Woken signals changed
      (⟨.inl (.follow source sink mask), .change source⟩ : Slot (PinProcess ⊕ ρ)) writes slot') :
    slot' = ⟨.inl (.follow source sink mask), .change source⟩ ∧
      ((Table.contains changed source = false ∧ writes = []) ∨
        (Table.contains changed source = true ∧
          ∃ v, value? signals source = some v ∧ writes = [(sink, v ^^^ mask)])) := by
  cases h with
  | asleep quiet => exact ⟨rfl, .inl ⟨quiet, rfl⟩⟩
  | awake fired resumed =>
    obtain ⟨r, hr, rfl⟩ := Option.map_eq_some_iff.mp resumed
    obtain ⟨v, hv, heq⟩ := Option.bind_eq_some_iff.mp
      (show (value? signals source).bind _ = some r from hr)
    obtain rfl := Option.some.inj heq
    exact ⟨rfl, .inr ⟨fired, v, hv, rfl⟩⟩

/-- The sink gets a write if the source has changed, and none otherwise. -/
theorem wake_linked (h : wake signals changed pending slots = some (pending', slots'))
    (linked : Linked source sink mask slots) :
    Linked source sink mask slots' ∧
      ((Table.contains changed source = false ∧
          Table.get? pending' sink = Table.get? pending sink) ∨
        (Table.contains changed source = true ∧
          ∃ v s, value? signals source = some v ∧ signals.get? sink = some s ∧
            Table.get? pending' sink = some ((v ^^^ mask) &&& s.mask))) := by
  induction linked generalizing pending slots' with
  | here unwritten =>
    obtain ⟨writes, slot', queued, rest', woken, hq, hrest, rfl⟩ := wake_cons h
    obtain ⟨same, stays⟩ := wake_unwritten hrest unwritten
    obtain ⟨rfl, cases⟩ := woken_follow woken
    refine ⟨.here stays, ?_⟩
    rcases cases with ⟨quiet, rfl⟩ | ⟨fired, v, hv, rfl⟩
    · obtain rfl := Option.some.inj hq
      exact .inl ⟨quiet, same⟩
    · simp only [queue, Option.bind_eq_bind, Option.bind_eq_some_iff, Option.some.injEq] at hq
      obtain ⟨s, hs, rfl⟩ := hq
      refine .inr ⟨fired, v, s, hv, hs, ?_⟩
      rw [same, Table.get?_set, if_pos rfl]
  | later spared _ ih =>
    obtain ⟨writes, slot', queued, rest', woken, hq, hrest, rfl⟩ := wake_cons h
    obtain ⟨writesSpare, stays⟩ := woken_spares woken spared
    obtain ⟨linked, cases⟩ := ih hrest
    refine ⟨.later stays linked, ?_⟩
    rwa [queue_spares hq writesSpare] at cases

end Waking

end NetBridge.Simulation
