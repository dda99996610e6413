import NetBridge.Proofs.Simulation.Tracing

/-! # Clock cycles

The delta cycles in which a clock changes cut a session into clock cycles. A clocked process
of a pin has nothing else to wait for: it takes a sample in the very delta cycle that brings
its edge, and what it writes then waits for the next one. -/
namespace NetBridge.Simulation

open Simulator (Regular changes commit contains_changes delta? delta?_eq_some fires next
  next_of_notMem value?)

namespace Simulator

variable {π : Type} {s : Simulator π} {id : SignalId} {v w : Word}

/-- The delta cycle that begins changes the signal to the value. -/
def turnsTo (id : SignalId) (v : Word) (s : Simulator π) : Bool :=
  value? s.signals id != some v && next s id == some v

theorem turnsTo_iff : turnsTo id v s = true ↔ value? s.signals id ≠ some v ∧ next s id = some v := by
  simp [turnsTo]

theorem turnsTo_ne (h : turnsTo id v s = true) (different : v ≠ w) : turnsTo id w s = false := by
  rw [← Bool.not_eq_true, turnsTo_iff, (turnsTo_iff.mp h).2]
  rintro ⟨-, same⟩
  exact different (Option.some.inj same)

/-- To wait for a level is to wait for a change to it. -/
theorem fires_level (nodup : s.pending.keys.Nodup) (id : SignalId) (v : Word) :
    fires (commit s.signals s.pending) (changes s.signals s.pending) (.level id v) = turnsTo id v s := by
  rw [Bool.eq_iff_iff, turnsTo_iff, fires, Bool.and_eq_true, contains_changes nodup,
    value?_commit s nodup, beq_iff_eq, and_congr_left_iff]
  intro hv
  obtain ⟨x, hx, hnext⟩ := Option.map_eq_some_iff.mp hv
  constructor
  · rintro ⟨w, hw, changed⟩
    rw [hw, Option.getD_some] at hnext
    exact hnext ▸ changed
  · intro changed
    cases hw : Table.get? s.pending id with
    | none =>
      rw [hw, Option.getD_none] at hnext
      rw [value?, hx, Option.map_some, hnext] at changed
      exact absurd rfl changed
    | some w =>
      rw [hw, Option.getD_some] at hnext
      exact ⟨w, rfl, hnext ▸ changed⟩

end Simulator

open Simulator (fires_level turnsTo turnsTo_iff turnsTo_ne)

/-- A cycle of a clock, by the delta cycle in which it rises and the one in which it falls,
if it has. -/
structure ClockCycle (π : Type) where
  rise : Simulator π
  fall? : Option (Simulator π) := none

namespace ClockCycle

variable {π : Type} {clk : SignalId} {s r : Simulator π} {cycles older : List (ClockCycle π)}

/-- Completes the newest cycle, which comes first. -/
def complete (s : Simulator π) : List (ClockCycle π) → List (ClockCycle π)
  | ⟨rise, none⟩ :: older => ⟨rise, some s⟩ :: older
  | cycles => cycles

/-- A rising clock begins a cycle and a falling one completes it. -/
def advance (clk : SignalId) (cycles : List (ClockCycle π)) (s : Simulator π) :
    List (ClockCycle π) :=
  if s.turnsTo clk 1 then ⟨s, none⟩ :: cycles
  else if s.turnsTo clk 0 then complete s cycles
  else cycles

/-- No cycle is left to complete. -/
def Completed (cycles : List (ClockCycle π)) : Prop := ∀ c ∈ cycles.head?, c.fall?.isSome = true

theorem advance_rise (h : s.turnsTo clk 1 = true) : advance clk cycles s = ⟨s, none⟩ :: cycles := by
  rw [advance, if_pos h]

theorem advance_fall (h : s.turnsTo clk 0 = true) :
    advance clk (⟨r, none⟩ :: older) s = ⟨r, some s⟩ :: older := by
  rw [advance, if_neg (Bool.not_eq_true _ ▸ turnsTo_ne h (by decide)), if_pos h, complete]

theorem advance_completed (noRise : s.turnsTo clk 1 = false) (h : Completed cycles) :
    advance clk cycles s = cycles := by
  have same : complete s cycles = cycles := by
    unfold complete
    split
    · exact absurd (h _ rfl) Bool.false_ne_true
    · rfl
  rw [advance, noRise, if_neg Bool.false_ne_true, same, ite_self]

theorem advance_quiet (noRise : s.turnsTo clk 1 = false) (noFall : s.turnsTo clk 0 = false) :
    advance clk cycles s = cycles := by
  rw [advance, noRise, noFall, if_neg Bool.false_ne_true, if_neg Bool.false_ne_true]

end ClockCycle

/-- The cycles of a clock in the delta cycles of a session, the newest one first. -/
def clockCycles {π : Type} (clk : SignalId) (commits : List (Simulator π)) : List (ClockCycle π) :=
  commits.foldl (ClockCycle.advance clk) []

theorem clockCycles_concat {π : Type} (clk : SignalId) (commits : List (Simulator π))
    (s : Simulator π) : clockCycles clk (commits ++ [s]) =
      ClockCycle.advance clk (clockCycles clk commits) s := by
  rw [clockCycles, List.foldl_append]
  rfl

variable {ρ : Type} {s s' : Simulator (PinProcess ⊕ ρ)} {x : SignalId} {v : Word} {width : Nat}

/-- A signal keeps its width. -/
theorem Traced.sized [Coroutine ρ] {q₀ q : PinProcess} {s₀ : Simulator (PinProcess ⊕ ρ)}
    {cs : List (Simulator (PinProcess ⊕ ρ))} (h : Traced q₀ s₀ cs q s)
    (sized : Sized s₀.signals x width) : Sized s.signals x width := by
  induction h with
  | start => exact sized
  | idle _ steady ih =>
    obtain ⟨y, hy, hwidth⟩ := ih
    exact ⟨y, steady.grown hy, hwidth⟩
  | turn _ regular hd _ ih =>
    obtain ⟨y, hy, hwidth⟩ := ih
    obtain ⟨pending, slots, -, rfl⟩ := delta?_eq_some hd
    obtain ⟨v, hv⟩ := retains_commit regular x y hy
    exact ⟨_, hv, hwidth⟩

/-- The value that the delta cycle which begins gives to the signal, which fits the width. -/
def Captured (x : SignalId) (width : Nat) (s : Simulator (PinProcess ⊕ ρ)) (v : Word) : Prop :=
  next s x = some v ∧ v &&& Word.ones width = v

theorem Sized.captured (h : Sized s.signals x width) (regular : Regular s.signals s.pending)
    (hv : next s x = some v) : Captured x width s v := by
  refine ⟨hv, ?_⟩
  obtain ⟨y, hy, rfl⟩ := h
  rw [next, hy, Option.map_some, Option.some.injEq] at hv
  cases hw : Table.get? s.pending x with
  | none =>
    rw [hw, Option.getD_none] at hv
    exact hv ▸ regular.fits x y hy
  | some w =>
    obtain ⟨z, hz, fits⟩ := regular.queued x w hw
    obtain rfl := Option.some.inj (hz.symm.trans hy)
    rw [hw, Option.getD_some] at hv
    exact hv ▸ fits

/-- A clock is high or low. -/
theorem Sized.level (h : Sized s.signals x 1) (regular : Regular s.signals s.pending) :
    next s x = some 0 ∨ next s x = some 1 := by
  obtain ⟨y, hy, -⟩ := id h
  have hv : next s x = some ((Table.get? s.pending x).getD y.value) := by rw [next, hy, Option.map_some]
  have fits := (h.captured regular hv).2
  rw [hv]
  generalize (Table.get? s.pending x).getD y.value = v at fits
  have bit : v.toNat % 2 = v.toNat := by
    have := congrArg BitVec.toNat fits
    rwa [BitVec.toNat_and, show (Word.ones 1).toNat = 1 from rfl, Nat.and_one_is_mod] at this
  rcases Nat.mod_two_eq_zero_or_one v.toNat with low | high
  · exact .inl (congrArg some (BitVec.eq_of_toNat_eq (bit.symm.trans low)))
  · exact .inr (congrArg some (BitVec.eq_of_toNat_eq (bit.symm.trans high)))

/-- A signal that gets no write keeps the value that the delta cycle gave it. -/
theorem next_of_quiet [Coroutine ρ] (regular : Regular s.signals s.pending) (hd : delta? s = some s')
    (h : x ∉ s'.pending.keys) : next s' x = next s x :=
  (next_of_notMem h).trans (next_of_delta regular hd x)

theorem Steady.next {q : PinProcess} (h : Steady q s s') (hx : x ∈ q.sinks)
    (sized : Sized s.signals x width) : next s' x = next s x := by
  obtain ⟨y, hy, -⟩ := sized
  rw [Simulator.next, Simulator.next, h.sinks x hx, h.grown hy, hy]

theorem Steady.value {q : PinProcess} (h : Steady q s s') (hv : value? s.signals x = some v) :
    value? s'.signals x = some v := by
  obtain ⟨y, hy, hvalue⟩ := Option.map_eq_some_iff.mp hv
  rw [value?, h.grown hy, Option.map_some, hvalue]

/-- What a pin writes across its port fits the sink. -/
theorem Queued.next {p : Pin} (h : Queued s x (v ^^^ p.crossing width))
    (sized : Sized s.signals x width) (fits : v &&& Word.ones width = v) :
    next s x = some (Word.crossed p.invert width v) := by
  obtain ⟨y, hy, hv⟩ := h
  obtain ⟨z, hz, rfl⟩ := sized
  obtain rfl := Option.some.inj (hy.symm.trans hz)
  have crossing : p.crossing y.width &&& Word.ones y.width = p.crossing y.width := by
    rw [Pin.crossing]
    split
    · exact BitVec.and_self
    · exact BitVec.zero_and
  rw [Simulator.next, hy, Option.map_some, hv, Option.getD_some, Signal.mask,
    Word.fits_xor fits crossing]
  exact congrArg some (Word.xor_eq_crossed p.invert fits)

section Turns

variable {q' : PinProcess} {clk source sink : SignalId} {mask : Word}

/-- A register sleeps or takes a sample. -/
theorem Turn.register (turn : Turn (.register clk source sink mask) s s' q')
    (nodup : s.pending.keys.Nodup) : q' = .register clk source sink mask ∧
      (s.turnsTo clk 1 = false ∧ sink ∉ s'.pending.keys ∨
        s.turnsTo clk 1 = true ∧ ∃ v, next s source = some v ∧ Queued s' sink (v ^^^ mask)) := by
  cases turn with
  | asleep quiet none =>
    exact ⟨rfl, .inl ⟨(fires_level nodup clk 1).symm.trans quiet, none _ List.mem_cons_self⟩⟩
  | awake fired resumed queued =>
    obtain ⟨v, hv, -⟩ := Option.bind_eq_some_iff.mp (show (next s source).bind _ = _ from resumed)
    obtain rfl := Option.some.inj ((PinProcess.resume_register hv).symm.trans resumed)
    exact ⟨rfl, .inr ⟨(fires_level nodup clk 1).symm.trans fired, v, hv, queued _ List.mem_cons_self⟩⟩

/-- What becomes of a double-rate input in a delta cycle. -/
inductive InputTurn (l : DoubleInput) (s s' : Simulator (PinProcess ⊕ ρ)) : DoubleInput → Prop
  | waits : s.turnsTo l.clk l.half.level = false → l.i0 ∉ s'.pending.keys →
    l.i1 ∉ s'.pending.keys → InputTurn l s s' l
  | rises {v : Word} : l.half = .high → s.turnsTo l.clk 1 = true → next s l.port = some v →
    Queued s' l.i0 (l.rise ^^^ l.mask) → Queued s' l.i1 (l.fall ^^^ l.mask) →
    InputTurn l s s' { l with rise := v, half := .low }
  | falls {v : Word} : l.half = .low → s.turnsTo l.clk 0 = true → next s l.port = some v →
    l.i0 ∉ s'.pending.keys → l.i1 ∉ s'.pending.keys →
    InputTurn l s s' { l with fall := v, half := .high }

theorem Turn.doubleInput {l : DoubleInput} (turn : Turn (.doubleInput l) s s' q')
    (nodup : s.pending.keys.Nodup) : ∃ l', q' = .doubleInput l' ∧ InputTurn l s s' l' := by
  cases turn with
  | asleep quiet none =>
    exact ⟨l, rfl, .waits ((fires_level nodup _ _).symm.trans quiet) (none _ List.mem_cons_self)
      (none _ (List.mem_cons_of_mem _ List.mem_cons_self))⟩
  | awake fired resumed queued none =>
    replace fired := (fires_level nodup l.clk l.half.level).symm.trans fired
    obtain ⟨r, hr, -⟩ := Option.map_eq_some_iff.mp resumed
    obtain ⟨v, hv, -⟩ := Option.bind_eq_some_iff.mp (show (next s l.port).bind _ = some r from hr)
    cases half : l.half with
    | high =>
      rw [half] at fired
      obtain rfl := Option.some.inj ((PinProcess.resume_doubleInput_high half hv).symm.trans resumed)
      obtain ⟨first, rest⟩ := List.forall_mem_cons.mp queued
      exact ⟨_, rfl, .rises half fired hv first (rest _ List.mem_cons_self)⟩
    | low =>
      rw [half] at fired
      obtain rfl := Option.some.inj ((PinProcess.resume_doubleInput_low half hv).symm.trans resumed)
      exact ⟨_, rfl, .falls half fired hv (none _ (by simp [PinProcess.sinks]) (by simp [Table.keys]))
        (none _ (by simp [PinProcess.sinks]) (by simp [Table.keys]))⟩

/-- What becomes of a double-rate output in a delta cycle. -/
inductive OutputTurn (l : DoubleOutput) (s s' : Simulator (PinProcess ⊕ ρ)) : DoubleOutput → Prop
  | waits : s.turnsTo l.clk l.half.level = false → l.port ∉ s'.pending.keys → OutputTurn l s s' l
  | rises {v w : Word} : l.half = .high → s.turnsTo l.clk 1 = true → next s l.o0 = some v →
    next s l.o1 = some w → Queued s' l.port (l.lane0.1 ^^^ l.mask) →
    OutputTurn l s s' { l with
      lane0 := (l.lane0.2, v)
      lane1 := (l.lane1.2, w)
      second := l.lane1.1
      half := .low }
  | falls : l.half = .low → s.turnsTo l.clk 0 = true → Queued s' l.port (l.second ^^^ l.mask) →
    OutputTurn l s s' { l with half := .high }

theorem Turn.doubleOutput {l : DoubleOutput} (turn : Turn (.doubleOutput l) s s' q')
    (nodup : s.pending.keys.Nodup) : ∃ l', q' = .doubleOutput l' ∧ OutputTurn l s s' l' := by
  cases turn with
  | asleep quiet none =>
    exact ⟨l, rfl, .waits ((fires_level nodup _ _).symm.trans quiet) (none _ List.mem_cons_self)⟩
  | awake fired resumed queued =>
    replace fired := (fires_level nodup l.clk l.half.level).symm.trans fired
    cases half : l.half with
    | high =>
      rw [half] at fired
      obtain ⟨r, hr, -⟩ := Option.map_eq_some_iff.mp resumed
      rw [DoubleOutput.resume, half] at hr
      obtain ⟨v, hv, hr⟩ := Option.bind_eq_some_iff.mp hr
      obtain ⟨w, hw, -⟩ := Option.bind_eq_some_iff.mp hr
      obtain rfl := Option.some.inj ((PinProcess.resume_doubleOutput_high half hv hw).symm.trans resumed)
      exact ⟨_, rfl, .rises half fired hv hw (queued _ List.mem_cons_self)⟩
    | low =>
      rw [half] at fired
      obtain rfl := Option.some.inj ((PinProcess.resume_doubleOutput_low half).symm.trans resumed)
      exact ⟨_, rfl, .falls half fired (queued _ List.mem_cons_self)⟩

end Turns

end NetBridge.Simulation
