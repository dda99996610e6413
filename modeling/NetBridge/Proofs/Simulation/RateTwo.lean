import NetBridge.Proofs.Simulation.Clocking

/-! # Pins that are clocked on both edges

At rate 2 a pin moves a pair of samples in every cycle of its clock. An input shows in each
cycle the pair of the cycle before it, an output drives in each cycle the pair that it took
two cycles before: one half while the clock is high, the other one while it is low. -/
namespace NetBridge.Simulation

open ClockCycle (Completed advance_completed advance_fall advance_quiet advance_rise)
open Simulator (Regular delta? next next_of_idle turnsTo turnsTo_iff turnsTo_ne value?)

variable {ρ : Type} {p : Pin} {width : Nat}

section Level

variable [Coroutine ρ] {s s' : Simulator (PinProcess ⊕ ρ)} {clk : SignalId}

/-- A clock that is high and does not fall stays high, and does not rise either. -/
theorem stays_high (sized : Sized s.signals clk 1) (regular : Regular s.signals s.pending)
    (hd : delta? s = some s') (high : value? s.signals clk = some 1) (noFall : s.turnsTo clk 0 = false) :
    s.turnsTo clk 1 = false ∧ value? s'.signals clk = some 1 := by
  refine ⟨?_, (next_of_delta regular hd clk).trans ((sized.level regular).resolve_left fun low => ?_)⟩
  · rw [← Bool.not_eq_true, turnsTo_iff, high]
    exact fun rises => rises.1 rfl
  · rw [← Bool.not_eq_true, turnsTo_iff, high] at noFall
    exact noFall ⟨by decide, low⟩

end Level

/-- The samples of the newest cycle, taken at its two edges, and zeros if there is none. -/
def Paired (port : SignalId) (width : Nat) (v w : Word) : List (ClockCycle (PinProcess ⊕ ρ)) → Prop
  | [] => v = 0 ∧ w = 0
  | c :: _ => Captured port width c.rise v ∧ ∃ fall, c.fall? = some fall ∧ Captured port width fall w

section Inputs

variable {i0 i1 : SignalId} {v w : Word} {s s' : Simulator (PinProcess ⊕ ρ)}
  {cycles older : List (ClockCycle (PinProcess ⊕ ρ))}

theorem Paired.completed {port : SignalId} (h : Paired port width v w cycles) : Completed cycles := by
  cases cycles with
  | nil => simp [Completed]
  | cons c older =>
    obtain ⟨-, fall, hfall, -⟩ := h
    simp [Completed, hfall]

theorem Paired.fits {port : SignalId} (h : Paired port width v w cycles) :
    v &&& Word.ones width = v ∧ w &&& Word.ones width = w := by
  cases cycles with
  | nil =>
    obtain ⟨rfl, rfl⟩ := h
    exact ⟨BitVec.zero_and, BitVec.zero_and⟩
  | cons c older =>
    obtain ⟨rise, fall, -, captured⟩ := h
    exact ⟨rise.2, captured.2⟩

/-- The lanes are about to show the samples of the newest of these cycles. -/
def Presented (p : Pin) (width : Nat) (i0 i1 : SignalId) (older : List (ClockCycle (PinProcess ⊕ ρ)))
    (s : Simulator (PinProcess ⊕ ρ)) : Prop :=
  ∃ v w, Paired p.port width v w older ∧ next s i0 = some (Word.crossed p.invert width v) ∧
    next s i1 = some (Word.crossed p.invert width w)

theorem Presented.kept (h : Presented p width i0 i1 older s) (same0 : next s' i0 = next s i0)
    (same1 : next s' i1 = next s i1) : Presented p width i0 i1 older s' := by
  rwa [Presented, same0, same1]

/-- Where a double-rate input stands after these cycles. Until the clock rises it holds both
samples of the newest one; then it has the first sample of the new cycle already, and still
the second one of the cycle before. -/
inductive Sampling (p : Pin) (width : Nat) (l : DoubleInput) (s : Simulator (PinProcess ⊕ ρ)) :
    List (ClockCycle (PinProcess ⊕ ρ)) → Prop
  | high {cycles : List (ClockCycle (PinProcess ⊕ ρ))} : l.half = .high →
    Paired p.port width l.rise l.fall cycles →
    (∀ c older, cycles = c :: older → Presented p width l.i0 l.i1 older s) → Sampling p width l s cycles
  | low {r : Simulator (PinProcess ⊕ ρ)} {older : List (ClockCycle (PinProcess ⊕ ρ))} {v : Word} :
    l.half = .low → value? s.signals l.clk = some 1 → Captured p.port width r l.rise →
    Paired p.port width v l.fall older → Presented p width l.i0 l.i1 older s →
    Sampling p width l s (⟨r, none⟩ :: older)

variable [Coroutine ρ] {l l₀ l' : DoubleInput}

theorem Sampling.turn (h : Sampling p width l s cycles) (turn : InputTurn l s s' l')
    (regular : Regular s.signals s.pending) (hd : delta? s = some s')
    (hclk : Sized s.signals l.clk 1) (hport : Sized s.signals p.port width)
    (hi0 : Sized s'.signals l.i0 width) (hi1 : Sized s'.signals l.i1 width) (port : l.port = p.port)
    (mask : l.mask = p.crossing width) :
    Sampling p width l' s' (ClockCycle.advance l.clk cycles s) := by
  have quiet : ∀ {x}, x ∉ s'.pending.keys → next s' x = next s x := fun none =>
    next_of_quiet regular hd none
  -- The half says which edge the process waits for, so that one turn is impossible in each case.
  -- In one that sleeps the history must not move either: a completed cycle ignores the falling
  -- clock, and a clock that is high cannot rise.
  cases h with
  | high half paired presented =>
    cases turn with
    | waits still none0 none1 =>
      rw [half] at still
      rw [advance_completed still paired.completed]
      exact .high half paired fun c older hc => (presented c older hc).kept (quiet none0) (quiet none1)
    | @rises v _ rises hv queued0 queued1 =>
      rw [port] at hv
      rw [mask] at queued0 queued1
      rw [advance_rise rises]
      refine .low rfl ((next_of_delta regular hd l.clk).trans (turnsTo_iff.mp rises).2)
        (hport.captured regular hv) paired ⟨l.rise, l.fall, paired, ?_, ?_⟩
      · exact queued0.next hi0 paired.fits.1
      · exact queued1.next hi1 paired.fits.2
    | falls low =>
      rw [half] at low
      cases low
  | low half high captured paired presented =>
    cases turn with
    | waits still none0 none1 =>
      rw [half] at still
      obtain ⟨noRise, high⟩ := stays_high hclk regular hd high still
      rw [advance_quiet noRise still]
      exact .low half high captured paired (presented.kept (quiet none0) (quiet none1))
    | rises low =>
      rw [half] at low
      cases low
    | @falls v _ falls hv none0 none1 =>
      rw [port] at hv
      rw [advance_fall falls]
      refine .high rfl ⟨captured, s, rfl, hport.captured regular hv⟩ fun c older hc => ?_
      obtain ⟨-, rfl⟩ := List.cons.inj hc
      exact presented.kept (quiet none0) (quiet none1)

omit [Coroutine ρ] in
theorem Sampling.steady (h : Sampling p width l s cycles) (steady : Steady (.doubleInput l) s s')
    (hi0 : Sized s.signals l.i0 width) (hi1 : Sized s.signals l.i1 width) :
    Sampling p width l s' cycles := by
  have same0 : next s' l.i0 = next s l.i0 := steady.next (by simp [PinProcess.sinks]) hi0
  have same1 : next s' l.i1 = next s l.i1 := steady.next (by simp [PinProcess.sinks]) hi1
  cases h with
  | high half paired presented =>
    exact .high half paired fun c older hc => (presented c older hc).kept same0 same1
  | low half high captured paired presented =>
    exact .low half (steady.value high) captured paired (presented.kept same0 same1)

omit [Coroutine ρ] in
/-- Nothing but the samples and the half changes in a turn. -/
theorem InputTurn.wires (h : InputTurn l s s' l') : ∃ rise fall half,
    l' = { l with rise, fall, half } := by
  cases h <;> exact ⟨_, _, _, rfl⟩

/-- A double-rate input goes on sampling, through everything that happens. -/
theorem Traced.sampling {q : PinProcess} {s₀ : Simulator (PinProcess ⊕ ρ)}
    {cs : List (Simulator (PinProcess ⊕ ρ))} (h : Traced (.doubleInput l₀) s₀ cs q s)
    (fresh : l₀.half = .high ∧ l₀.rise = 0 ∧ l₀.fall = 0) (port : l₀.port = p.port)
    (mask : l₀.mask = p.crossing width) (hclk : Sized s₀.signals l₀.clk 1)
    (hport : Sized s₀.signals p.port width) (hi0 : Sized s₀.signals l₀.i0 width)
    (hi1 : Sized s₀.signals l₀.i1 width) : ∃ rise fall half,
      q = .doubleInput { l₀ with rise, fall, half } ∧
      Sampling p width { l₀ with rise, fall, half } s (clockCycles l₀.clk cs) := by
  induction h with
  | start => exact ⟨l₀.rise, l₀.fall, l₀.half, rfl, .high fresh.1 fresh.2 (by simp [clockCycles])⟩
  | idle h steady ih =>
    obtain ⟨rise, fall, half, rfl, sampling⟩ := ih
    exact ⟨rise, fall, half, rfl, sampling.steady steady (h.sized hi0) (h.sized hi1)⟩
  | turn h regular hd turn ih =>
    obtain ⟨rise, fall, half, rfl, sampling⟩ := ih
    have after := h.turn regular hd turn
    obtain ⟨l', rfl, turn'⟩ := turn.doubleInput regular.nodup
    obtain ⟨rise', fall', half', rfl⟩ := turn'.wires
    rw [clockCycles_concat]
    exact ⟨rise', fall', half', rfl, sampling.turn turn' regular hd (h.sized hclk) (h.sized hport)
      (after.sized hi0) (after.sized hi1) port mask⟩

end Inputs

/-- The sample that the lane gave up at the rising edge of the `n`-th newest cycle, counted
from 0; zero if there are not so many. -/
def Taken (lane : SignalId) (width n : Nat) (v : Word)
    (cycles : List (ClockCycle (PinProcess ⊕ ρ))) : Prop :=
  match cycles[n]? with
  | none => v = 0
  | some c => Captured lane width c.rise v

section Outputs

variable {lane o0 o1 : SignalId} {n : Nat} {v : Word} {s s' r : Simulator (PinProcess ⊕ ρ)}
  {cycles older : List (ClockCycle (PinProcess ⊕ ρ))}

theorem Taken.fits (h : Taken lane width n v cycles) : v &&& Word.ones width = v := by
  rw [Taken] at h
  split at h
  · rw [h]
    exact BitVec.zero_and
  · exact h.2

/-- One cycle later it is one cycle older. -/
theorem Taken.aged (h : Taken lane width n v cycles) (c : ClockCycle (PinProcess ⊕ ρ)) :
    Taken lane width (n + 1) v (c :: cycles) := h

/-- The falling edge takes no samples. -/
theorem Taken.complete (h : Taken lane width n v (⟨r, none⟩ :: older)) :
    Taken lane width n v (⟨r, some s⟩ :: older) := by
  cases n <;> exact h

/-- The queues of a double-rate output hold the samples of its last two cycles. -/
structure Queues (width : Nat) (l : DoubleOutput) (cycles : List (ClockCycle (PinProcess ⊕ ρ))) :
    Prop where
  older0 : Taken l.o0 width 1 l.lane0.1 cycles
  newer0 : Taken l.o0 width 0 l.lane0.2 cycles
  older1 : Taken l.o1 width 1 l.lane1.1 cycles
  newer1 : Taken l.o1 width 0 l.lane1.2 cycles

/-- The port is about to carry the sample that the lane gave up two cycles ago. -/
def Drives (p : Pin) (width : Nat) (lane : SignalId) (s : Simulator (PinProcess ⊕ ρ))
    (cycles : List (ClockCycle (PinProcess ⊕ ρ))) : Prop :=
  ∃ v, Taken lane width 2 v cycles ∧ next s p.port = some (Word.crossed p.invert width v)

/-- Where a double-rate output stands after these cycles. While the clock is high the port has
the first sample of the pair that came out of the queues, and the second one is kept. -/
inductive Driving (p : Pin) (width : Nat) (l : DoubleOutput) (s : Simulator (PinProcess ⊕ ρ)) :
    List (ClockCycle (PinProcess ⊕ ρ)) → Prop
  | high {cycles : List (ClockCycle (PinProcess ⊕ ρ))} : l.half = .high → Completed cycles →
    Queues width l cycles → (cycles ≠ [] → Drives p width l.o1 s cycles) → Driving p width l s cycles
  | low {r : Simulator (PinProcess ⊕ ρ)} {older : List (ClockCycle (PinProcess ⊕ ρ))} :
    l.half = .low → value? s.signals l.clk = some 1 → Queues width l (⟨r, none⟩ :: older) →
    Taken l.o1 width 2 l.second (⟨r, none⟩ :: older) →
    Drives p width l.o0 s (⟨r, none⟩ :: older) → Driving p width l s (⟨r, none⟩ :: older)

variable [Coroutine ρ] {l l₀ l' : DoubleOutput}

/-- The next sample goes into each queue and the oldest one out of it. -/
theorem Driving.rise (queues : Queues width l cycles) (regular : Regular s.signals s.pending)
    (hd : delta? s = some s') (rises : s.turnsTo l.clk 1 = true) {v w : Word}
    (hv : Captured l.o0 width s v) (hw : Captured l.o1 width s w)
    (queued : Queued s' p.port (l.lane0.1 ^^^ p.crossing width))
    (hport : Sized s'.signals p.port width) :
    Driving p width
      { l with lane0 := (l.lane0.2, v), lane1 := (l.lane1.2, w), second := l.lane1.1, half := .low } s'
      (⟨s, none⟩ :: cycles) := by
  refine .low rfl ((next_of_delta regular hd l.clk).trans (turnsTo_iff.mp rises).2) ?_
    (queues.older1.aged _) ⟨l.lane0.1, queues.older0.aged _, queued.next hport queues.older0.fits⟩
  exact ⟨queues.newer0.aged _, hv, queues.newer1.aged _, hw⟩

theorem Driving.turn (h : Driving p width l s cycles) (turn : OutputTurn l s s' l')
    (regular : Regular s.signals s.pending) (hd : delta? s = some s')
    (hclk : Sized s.signals l.clk 1) (ho0 : Sized s.signals l.o0 width)
    (ho1 : Sized s.signals l.o1 width) (hport : Sized s'.signals p.port width)
    (port : l.port = p.port) (mask : l.mask = p.crossing width) :
    Driving p width l' s' (ClockCycle.advance l.clk cycles s) := by
  have kept : ∀ {lane cycles}, p.port ∉ s'.pending.keys → Drives p width lane s cycles →
      Drives p width lane s' cycles := by
    intro lane cycles none h
    rwa [Drives, next_of_quiet regular hd none]
  cases h with
  | high half completed queues drives =>
    cases turn with
    | waits still none =>
      rw [half] at still
      rw [port] at none
      rw [advance_completed still completed]
      exact .high half completed queues fun begun => kept none (drives begun)
    | rises _ rises hv hw queued =>
      rw [port, mask] at queued
      rw [advance_rise rises]
      exact .rise queues regular hd rises (ho0.captured regular hv) (ho1.captured regular hw) queued
        hport
    | falls low =>
      rw [half] at low
      cases low
  | low half high queues second drives =>
    cases turn with
    | waits still none =>
      rw [half] at still
      rw [port] at none
      obtain ⟨noRise, high⟩ := stays_high hclk regular hd high still
      rw [advance_quiet noRise still]
      exact .low half high queues second (kept none drives)
    | rises low =>
      rw [half] at low
      cases low
    | falls _ falls queued =>
      rw [port, mask] at queued
      rw [advance_fall falls]
      refine .high rfl (by simp [Completed]) ?_ fun _ =>
        ⟨l.second, second.complete, queued.next hport second.fits⟩
      exact ⟨queues.older0.complete, queues.newer0.complete, queues.older1.complete,
        queues.newer1.complete⟩

omit [Coroutine ρ] in
theorem Driving.steady (h : Driving p width l s cycles) (steady : Steady (.doubleOutput l) s s')
    (port : l.port = p.port) (hport : Sized s.signals p.port width) : Driving p width l s' cycles := by
  have same : next s' p.port = next s p.port := steady.next (by simp [PinProcess.sinks, port]) hport
  have kept : ∀ {lane cycles}, Drives p width lane s cycles → Drives p width lane s' cycles := by
    intro lane cycles h
    rwa [Drives, same]
  cases h with
  | high half completed queues drives =>
    exact .high half completed queues fun begun => kept (drives begun)
  | low half high queues second drives =>
    exact .low half (steady.value high) queues second (kept drives)

omit [Coroutine ρ] in
theorem OutputTurn.wires (h : OutputTurn l s s' l') : ∃ lane0 lane1 second half,
    l' = { l with lane0, lane1, second, half } := by
  cases h <;> exact ⟨_, _, _, _, rfl⟩

/-- A double-rate output goes on driving, through everything that happens. -/
theorem Traced.driving {q : PinProcess} {s₀ : Simulator (PinProcess ⊕ ρ)}
    {cs : List (Simulator (PinProcess ⊕ ρ))} (h : Traced (.doubleOutput l₀) s₀ cs q s)
    (fresh : l₀.half = .high ∧ l₀.lane0 = (0, 0) ∧ l₀.lane1 = (0, 0)) (port : l₀.port = p.port)
    (mask : l₀.mask = p.crossing width) (hclk : Sized s₀.signals l₀.clk 1)
    (ho0 : Sized s₀.signals l₀.o0 width) (ho1 : Sized s₀.signals l₀.o1 width)
    (hport : Sized s₀.signals p.port width) : ∃ lane0 lane1 second half,
      q = .doubleOutput { l₀ with lane0, lane1, second, half } ∧
      Driving p width { l₀ with lane0, lane1, second, half } s (clockCycles l₀.clk cs) := by
  induction h with
  | start =>
    obtain ⟨half, zero0, zero1⟩ := fresh
    refine ⟨l₀.lane0, l₀.lane1, l₀.second, l₀.half, rfl,
      .high half (by simp [Completed, clockCycles]) ⟨?_, ?_, ?_, ?_⟩ (absurd rfl)⟩
    · exact congrArg Prod.fst zero0
    · exact congrArg Prod.snd zero0
    · exact congrArg Prod.fst zero1
    · exact congrArg Prod.snd zero1
  | idle h steady ih =>
    obtain ⟨lane0, lane1, second, half, rfl, driving⟩ := ih
    exact ⟨lane0, lane1, second, half, rfl, driving.steady steady port (h.sized hport)⟩
  | turn h regular hd turn ih =>
    obtain ⟨lane0, lane1, second, half, rfl, driving⟩ := ih
    have after := h.turn regular hd turn
    obtain ⟨l', rfl, turn'⟩ := turn.doubleOutput regular.nodup
    obtain ⟨lane0', lane1', second', half', rfl⟩ := turn'.wires
    rw [clockCycles_concat]
    exact ⟨lane0', lane1', second', half', rfl, driving.turn turn' regular hd (h.sized hclk)
      (h.sized ho0) (h.sized ho1) (after.sized hport) port mask⟩

end Outputs

namespace Bench

variable [Coroutine ρ]

/-- After its first rising clock, whenever no write waits, a double-rate input shows the
samples of the cycle before the newest one, or zeros if that is the first, whatever else
happens between the edges. -/
theorem double_rate_input_shows_the_cycle_before (board : Board) (events : List (Event ρ))
    (spawned : Spawns board events p) (direction : p.direction = .input) (hrate : p.rate = 2)
    (later : List (Event ρ)) :
    let prepared := play events ({ board } : Bench ρ)
    let now := (play later prepared).simulator
    ∃ port width clk i0 i1, Minted prepared.simulator.signals port width p ∧ p.ids.Nodup ∧
      p.signal? .iClk = some clk ∧ p.signal? .i0 = some i0 ∧ p.signal? .i1 = some i1 ∧
      (LeftAlone [i0, i1] later prepared → now.pending = [] →
        ∀ newest older, clockCycles clk (log later prepared) = newest :: older →
          ∃ v w, Paired p.port width v w older ∧
            value? now.signals i0 = some (Word.crossed p.invert width v) ∧
            value? now.signals i1 = some (Word.crossed p.invert width w)) := by
  intro prepared now
  obtain ⟨port, width, qs, minted, nodup, made, traced⟩ := spawned.traced
  have samples : p.direction.samples = true := by
    rw [direction]
    rfl
  rcases Pin.inputProcess_cases minted samples (p.crossing width) with
    ⟨zero, -⟩ | ⟨one, -⟩ | ⟨-, clk, i0, i1, hclk, hi0, hi1, process⟩
  · omega
  · omega
  refine ⟨port, width, clk, i0, i1, minted, nodup, hclk, hi0, hi1,
    fun alone idle newest older hcycles => ?_⟩
  obtain ⟨q, h⟩ := traced _ ((Pin.mem_processes made).mpr (.inl ⟨samples, process⟩)) alone
  obtain ⟨rise, fall, half, -, sampling⟩ := h.sampling (p := p) ⟨rfl, rfl, rfl⟩ rfl rfl
    (minted.sized hclk) minted.sized_port (minted.sized hi0) (minted.sized hi1)
  have presented : Presented p width i0 i1 older now := by
    rw [hcycles] at sampling
    cases sampling with
    | high _ _ presented => exact presented newest older rfl
    | low _ _ _ _ presented => exact presented
  obtain ⟨v, w, paired, hv, hw⟩ := presented
  rw [next_of_idle idle] at hv hw
  exact ⟨v, w, paired, hv, hw⟩

/-- An active-low lane pair that is sampled. -/
def samplerPin : Pin where
  name := "pad_lane"
  port := ⟨0⟩
  direction := .input
  rate := 2
  invert := true
  signals := [(.iClk, ⟨3⟩), (.i0, ⟨1⟩), (.i1, ⟨2⟩)]

def samplerBoard : Board where
  resources := [⟨"lane", none, .mk (some 8) true []⟩]

def samplerEvents : List (Event PinProcess) :=
  [.arrange (.request "lane" none (some (.leaf .input)) (some (.leaf 2))), .arrange .prepare]

/-- A 3 at the rising clock and a 7 at the falling one, and then one more rising clock. -/
def samplerRounds : List (Event PinProcess) :=
  [.write ⟨0⟩ 3, .write ⟨3⟩ 1, .settle, .write ⟨0⟩ 7, .write ⟨3⟩ 0, .settle,
    .write ⟨0⟩ 9, .settle, .write ⟨3⟩ 1, .settle]

theorem sampler_spawned : Spawns samplerBoard samplerEvents samplerPin :=
  ⟨[], "lane", none, some (.leaf .input), some (.leaf 2), .leaf samplerPin, _, [], rfl, rfl,
    List.mem_singleton_self _, by simp⟩

theorem sampler_shows_three_and_seven :
    Spawns samplerBoard samplerEvents samplerPin ∧ samplerPin.direction = .input ∧
    samplerPin.rate = 2 ∧
    let prepared := play samplerEvents { board := samplerBoard }
    let now := (play samplerRounds prepared).simulator
    LeftAlone [⟨1⟩, ⟨2⟩] samplerRounds prepared ∧ now.pending = [] ∧
      value? now.signals ⟨1⟩ = some 0xfc ∧ value? now.signals ⟨2⟩ = some 0xf8 ∧
      ∃ newest before v w, clockCycles ⟨3⟩ (log samplerRounds prepared) = [newest, before] ∧
        Paired ⟨0⟩ 8 v w [before] ∧ value? now.signals ⟨1⟩ = some (Word.crossed true 8 v) ∧
        value? now.signals ⟨2⟩ = some (Word.crossed true 8 w) := by
  have alone : LeftAlone [⟨1⟩, ⟨2⟩] samplerRounds (play samplerEvents { board := samplerBoard }) :=
    .of_noneJoins (by simp [samplerEvents, samplerRounds]) (by simp [samplerRounds])
  have idle : (play samplerRounds (play samplerEvents { board := samplerBoard })).simulator.pending =
      [] := by decide +kernel
  obtain ⟨newest, before, cycles⟩ : ∃ newest before, clockCycles ⟨3⟩ (log samplerRounds
      (play samplerEvents { board := samplerBoard })) = [newest, before] :=
    List.length_eq_two.mp (by decide +kernel)
  obtain ⟨port, width, clk, i0, i1, minted, -, hclk, hi0, hi1, shows⟩ :=
    double_rate_input_shows_the_cycle_before samplerBoard samplerEvents sampler_spawned rfl rfl
      samplerRounds
  obtain rfl : 8 = width := minted.width_eq rfl
  obtain rfl : ⟨3⟩ = clk := Option.some.inj hclk
  obtain rfl : ⟨1⟩ = i0 := Option.some.inj hi0
  obtain rfl : ⟨2⟩ = i1 := Option.some.inj hi1
  obtain ⟨v, w, paired, hv, hw⟩ := shows alone idle newest [before] cycles
  exact ⟨sampler_spawned, rfl, rfl, alone, idle, by decide +kernel, by decide +kernel, newest, before,
    v, w, cycles, paired, hv, hw⟩

/-- After its first rising clock, whenever no write waits, a double-rate output drives the
samples of two cycles before the newest one, the first while the clock is high and the second
when it has fallen, or zeros while there are none. -/
theorem double_rate_output_drives_two_cycles_later (board : Board) (events : List (Event ρ))
    (spawned : Spawns board events p) (direction : p.direction = .output) (hrate : p.rate = 2)
    (later : List (Event ρ)) :
    let prepared := play events ({ board } : Bench ρ)
    let now := (play later prepared).simulator
    ∃ port width clk o0 o1, Minted prepared.simulator.signals port width p ∧ p.ids.Nodup ∧
      p.signal? .oClk = some clk ∧ p.signal? .o0 = some o0 ∧ p.signal? .o1 = some o1 ∧
      (LeftAlone [p.port] later prepared → now.pending = [] →
        ∀ newest older, clockCycles clk (log later prepared) = newest :: older →
          ∃ v, Taken (if newest.fall?.isSome then o1 else o0) width 2 v (newest :: older) ∧
            value? now.signals p.port = some (Word.crossed p.invert width v)) := by
  intro prepared now
  obtain ⟨port, width, qs, minted, nodup, made, traced⟩ := spawned.traced
  have drives : p.direction.drives = true := by
    rw [direction]
    rfl
  rcases Pin.outputProcess_cases minted drives (p.crossing width) with
    ⟨zero, -⟩ | ⟨one, -⟩ | ⟨-, clk, o0, o1, hclk, ho0, ho1, process⟩
  · omega
  · omega
  refine ⟨port, width, clk, o0, o1, minted, nodup, hclk, ho0, ho1,
    fun alone idle newest older hcycles => ?_⟩
  obtain ⟨q, h⟩ := traced _ ((Pin.mem_processes made).mpr (.inr ⟨drives, process⟩)) alone
  obtain ⟨lane0, lane1, second, half, -, driving⟩ := h.driving (p := p) ⟨rfl, rfl, rfl⟩ rfl rfl
    (minted.sized hclk) (minted.sized ho0) (minted.sized ho1) minted.sized_port
  have driven : Drives p width (if newest.fall?.isSome then o1 else o0) now (newest :: older) := by
    rw [hcycles] at driving
    cases driving with
    | high _ completed _ drives =>
      rw [if_pos (completed newest rfl)]
      exact drives (List.cons_ne_nil _ _)
    | low _ _ _ _ drives => exact drives
  obtain ⟨v, taken, hv⟩ := driven
  rw [next_of_idle idle] at hv
  exact ⟨v, taken, hv⟩

def driverPin : Pin where
  name := "pad_lane"
  port := ⟨0⟩
  direction := .output
  rate := 2
  invert := false
  signals := [(.oClk, ⟨3⟩), (.o0, ⟨1⟩), (.o1, ⟨2⟩)]

def driverBoard : Board where
  resources := [⟨"lane", none, .mk (some 8) false []⟩]

def driverEvents : List (Event PinProcess) :=
  [.arrange (.request "lane" none (some (.leaf .output)) (some (.leaf 2))), .arrange .prepare]

/-- Three cycles with a new pair in each. -/
def driverRounds : List (Event PinProcess) :=
  [.write ⟨1⟩ 1, .write ⟨2⟩ 2, .write ⟨3⟩ 1, .settle, .write ⟨3⟩ 0, .settle,
    .write ⟨1⟩ 3, .write ⟨2⟩ 4, .write ⟨3⟩ 1, .settle, .write ⟨3⟩ 0, .settle,
    .write ⟨1⟩ 5, .write ⟨2⟩ 6, .write ⟨3⟩ 1, .settle, .write ⟨3⟩ 0, .settle]

theorem driver_spawned : Spawns driverBoard driverEvents driverPin :=
  ⟨[], "lane", none, some (.leaf .output), some (.leaf 2), .leaf driverPin, _, [], rfl, rfl,
    List.mem_singleton_self _, by simp⟩

/-- In the low half of the third cycle the second sample of the first one is on the port. -/
theorem driver_drives_two :
    Spawns driverBoard driverEvents driverPin ∧ driverPin.direction = .output ∧
    driverPin.rate = 2 ∧
    let prepared := play driverEvents { board := driverBoard }
    let now := (play driverRounds prepared).simulator
    LeftAlone [⟨0⟩] driverRounds prepared ∧ now.pending = [] ∧ value? now.signals ⟨0⟩ = some 2 ∧
      ∃ third second first v, clockCycles ⟨3⟩ (log driverRounds prepared) = [third, second, first] ∧
        Taken (if third.fall?.isSome then ⟨2⟩ else ⟨1⟩) 8 2 v [third, second, first] ∧
        value? now.signals ⟨0⟩ = some (Word.crossed false 8 v) := by
  have alone : LeftAlone [⟨0⟩] driverRounds (play driverEvents { board := driverBoard }) :=
    .of_noneJoins (by simp [driverEvents, driverRounds]) (by simp [driverRounds])
  have idle : (play driverRounds (play driverEvents { board := driverBoard })).simulator.pending =
      [] := by decide +kernel
  obtain ⟨third, second, first, cycles⟩ : ∃ third second first, clockCycles ⟨3⟩ (log driverRounds
      (play driverEvents { board := driverBoard })) = [third, second, first] :=
    List.length_eq_three.mp (by decide +kernel)
  obtain ⟨port, width, clk, o0, o1, minted, -, hclk, ho0, ho1, drives⟩ :=
    double_rate_output_drives_two_cycles_later driverBoard driverEvents driver_spawned rfl rfl
      driverRounds
  obtain rfl : 8 = width := minted.width_eq rfl
  obtain rfl : ⟨3⟩ = clk := Option.some.inj hclk
  obtain rfl : ⟨1⟩ = o0 := Option.some.inj ho0
  obtain rfl : ⟨2⟩ = o1 := Option.some.inj ho1
  obtain ⟨v, taken, hv⟩ := drives alone idle third [second, first] cycles
  exact ⟨driver_spawned, rfl, rfl, alone, idle, by decide +kernel, third, second, first, v, cycles,
    taken, hv⟩

end Bench

end NetBridge.Simulation
