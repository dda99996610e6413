import NetBridge.Proofs.Simulation.Clocking

/-! # Pins that are clocked

A pin at rate 1 is a register in each of its directions: after every settling the sink shows
what the source had in the very delta cycle in which the clock rose last. When both clocks of
a pin rise together, what is sampled is the port as it was before the output got there. -/
namespace NetBridge.Simulation

open Simulator (Regular next next_of_notMem runDeltas_idle settle settle_of_ok turnsTo turnsTo_iff
  value?)

variable {ρ : Type}

/-- The last delta cycle of a session in which the clock rises. -/
def lastRise {π : Type} (clk : SignalId) (commits : List (Simulator π)) : Option (Simulator π) :=
  (commits.filter (turnsTo clk 1)).getLast?

theorem lastRise_concat {π : Type} (clk : SignalId) (commits : List (Simulator π)) (s : Simulator π) :
    lastRise clk (commits ++ [s]) = if s.turnsTo clk 1 then some s else lastRise clk commits := by
  rw [lastRise, lastRise, List.filter_append]
  by_cases h : s.turnsTo clk 1 = true
  · rw [List.filter_cons_of_pos h, List.filter_nil, List.getLast?_concat, if_pos h]
  · rw [List.filter_cons_of_neg h, List.filter_nil, List.append_nil, if_neg h]

theorem mem_of_lastRise {π : Type} {clk : SignalId} {commits : List (Simulator π)} {s : Simulator π}
    (h : lastRise clk commits = some s) : s ∈ commits :=
  (List.mem_filter.mp (List.mem_of_getLast? h)).1

/-- A register shows what its source got when its clock rose last, as it crosses the port, or
zero if the clock has not risen yet. -/
def Registered (p : Pin) (width : Nat) (clk source : SignalId) (shown : Option Word)
    (commits : List (Simulator (PinProcess ⊕ ρ))) : Prop :=
  match lastRise clk commits with
  | none => shown = some 0
  | some c => ∃ v, Captured source width c v ∧ shown = some (Word.crossed p.invert width v)

section Registers

variable [Coroutine ρ] {p : Pin} {width : Nat} {clk source sink : SignalId} {mask : Word}
  {q : PinProcess} {s₀ s : Simulator (PinProcess ⊕ ρ)} {cs : List (Simulator (PinProcess ⊕ ρ))}

/-- From its first delta cycle on, a register holds what it should. -/
theorem Traced.registered (h : Traced (.register clk source sink (p.crossing width)) s₀ cs q s)
    (hsource : Sized s₀.signals source width) (hsink : Sized s₀.signals sink width)
    (zero : next s₀ sink = some 0) : q = .register clk source sink (p.crossing width) ∧
      Registered p width clk source (next s sink) cs := by
  induction h with
  | start => exact ⟨rfl, zero⟩
  | idle h steady ih =>
    obtain ⟨rfl, held⟩ := ih
    rw [steady.next List.mem_cons_self (h.sized hsink)]
    exact ⟨rfl, held⟩
  | @turn cs q q' s s' h regular hd turn ih =>
    obtain ⟨rfl, held⟩ := ih
    obtain ⟨rfl, ⟨still, none⟩ | ⟨rises, v, hv, queued⟩⟩ := turn.register regular.nodup
    · rw [Registered, lastRise_concat, still, if_neg Bool.false_ne_true, next_of_quiet regular hd none]
      exact ⟨rfl, held⟩
    · have captured := (h.sized hsource).captured regular hv
      have sized := (h.turn regular hd turn).sized hsink
      rw [Registered, lastRise_concat, if_pos rises]
      exact ⟨rfl, v, captured, queued.next sized captured.2⟩

/-- The sink of a register has a write only while the clock is high, so that it has none in
the delta cycle in which the clock rises. -/
theorem Traced.settled_at_rise (h : Traced (.register clk source sink mask) s₀ cs q s)
    (idle : sink ∉ s₀.pending.keys) : q = .register clk source sink mask ∧
      (sink ∈ s.pending.keys → value? s.signals clk = some 1) ∧
      ∀ c ∈ cs, c.turnsTo clk 1 = true → next c sink = value? c.signals sink := by
  induction h with
  | start => exact ⟨rfl, fun hsink => absurd hsink idle, by simp⟩
  | idle _ steady ih =>
    obtain ⟨rfl, high, before⟩ := ih
    refine ⟨rfl, fun hsink => ?_, before⟩
    rw [← Table.get?_isSome_iff, steady.sinks _ List.mem_cons_self, Table.get?_isSome_iff] at hsink
    exact steady.value (high hsink)
  | @turn cs q q' s s' _ regular hd turn ih =>
    obtain ⟨rfl, high, before⟩ := ih
    have here : s.turnsTo clk 1 = true → next s sink = value? s.signals sink := fun rises =>
      next_of_notMem fun hsink => (turnsTo_iff.mp rises).1 (high hsink)
    obtain ⟨rfl, step⟩ := turn.register regular.nodup
    refine ⟨rfl, fun hsink => ?_,
      List.forall_mem_append.mpr ⟨before, List.forall_mem_singleton.mpr here⟩⟩
    rcases step with ⟨-, none⟩ | ⟨rises, -⟩
    · exact absurd hsink none
    · exact (next_of_delta regular hd clk).trans (turnsTo_iff.mp rises).2

end Registers

/-- Nothing has ever been written. -/
structure Quiet (s : Simulator (PinProcess ⊕ ρ)) : Prop where
  idle : s.pending = []
  zero : ∀ id x, s.signals.get? id = some x → x.value = 0

variable [Coroutine ρ]

theorem Quiet.settle {s : Simulator (PinProcess ⊕ ρ)} (h : Quiet s) :
    Quiet (stateAfter Simulator.settle s) := by
  rw [stateAfter_ok (settle_of_ok (runDeltas_idle 0 s.maxDeltas h.idle))]
  exact ⟨h.idle, h.zero⟩

omit [Coroutine ρ] in
theorem Quiet.next {s : Simulator (PinProcess ⊕ ρ)} (h : Quiet s) {x : SignalId} {width : Nat}
    (sized : Sized s.signals x width) : next s x = some 0 := by
  obtain ⟨y, hy, -⟩ := sized
  rw [Simulator.next_of_idle h.idle, value?, hy, Option.map_some, h.zero x y hy]

section Directions

variable {p : Pin} {port : String} {width : Nat} {qs : List PinProcess}
  {s₀ s : Simulator (PinProcess ⊕ ρ)} {commits : List (Simulator (PinProcess ⊕ ρ))}

/-- The input of a pin at rate 1 is a register. -/
theorem Minted.samples_registered (minted : Minted s₀.signals port width p) (quiet : Quiet s₀)
    (hrate : p.rate = 1) (made : p.processes (p.crossing width) = .ok qs)
    (traced : ∀ q ∈ qs, q.sinks ⊆ p.spared → ∃ q', Traced q s₀ commits q' s)
    (samples : p.direction.samples = true) : ∃ clk i, p.signal? .iClk = some clk ∧
      p.signal? .i = some i ∧ Registered p width clk p.port (next s i) commits := by
  rcases Pin.inputProcess_cases minted samples (p.crossing width) with
    ⟨zero, -⟩ | ⟨-, clk, i, hclk, hi, process⟩ | ⟨two, -⟩
  · omega
  · have sized : Sized s₀.signals i width := minted.sized hi
    obtain ⟨q, h⟩ := traced _ ((Pin.mem_processes made).mpr (.inl ⟨samples, process⟩))
      (by simp [PinProcess.sinks, Pin.spared, hi])
    exact ⟨clk, i, hclk, hi, (h.registered minted.sized_port sized (quiet.next sized)).2⟩
  · omega

/-- So is the output, and the port has no write when its clock rises. -/
theorem Minted.drives_registered (minted : Minted s₀.signals port width p) (quiet : Quiet s₀)
    (hrate : p.rate = 1) (made : p.processes (p.crossing width) = .ok qs)
    (traced : ∀ q ∈ qs, q.sinks ⊆ p.spared → ∃ q', Traced q s₀ commits q' s)
    (drives : p.direction.drives = true) : ∃ clk o, p.signal? .oClk = some clk ∧
      p.signal? .o = some o ∧ Registered p width clk o (next s p.port) commits ∧
      ∀ c ∈ commits, c.turnsTo clk 1 = true → next c p.port = value? c.signals p.port := by
  rcases Pin.outputProcess_cases minted drives (p.crossing width) with
    ⟨zero, -⟩ | ⟨-, clk, o, hclk, ho, process⟩ | ⟨two, -⟩
  · omega
  · have port := minted.sized_port
    obtain ⟨q, h⟩ := traced _ ((Pin.mem_processes made).mpr (.inr ⟨drives, process⟩))
      (by simp [PinProcess.sinks, Pin.spared, drives])
    have idle : p.port ∉ s₀.pending.keys := by simp [quiet.idle, Table.keys]
    exact ⟨clk, o, hclk, ho, (h.registered (minted.sized ho) port (quiet.next port)).2,
      (h.settled_at_rise idle).2.2⟩
  · omega

end Directions

namespace Bench

theorem Effect.quiet {b b' : Bench ρ} {e : Event ρ} (effect : Effect b e b')
    (notWritten : ∀ id v, e ≠ .write id v) (h : Quiet b.simulator) : Quiet b'.simulator := by
  cases effect with
  | grow _ _ added =>
    refine ⟨?_, fun id x hx => (added.zero id x hx).elim (h.zero id x) And.left⟩
    rw [added.only]
    exact h.idle
  | @queue id _ v => exact absurd rfl (notWritten id v)
  | settle => exact h.settle
  | _ => exact ⟨h.idle, h.zero⟩

/-- Each direction of a pin at rate 1 is a register: so it shows whenever no write waits, as
after every settling that succeeds, as long as nothing else writes what the pin writes. When
both clocks of the pin rise in one delta cycle, the sample is what the port shows at the
beginning of it. -/
theorem rate_one_pins_are_registers (board : Board) (events : List (Event ρ)) {p : Pin}
    (spawned : Spawns board events p) (unwritten : ∀ e ∈ events, ∀ id v, e ≠ .write id v)
    (hrate : p.rate = 1) (later : List (Event ρ)) :
    let prepared := play events ({ board } : Bench ρ)
    let commits := log later prepared
    let now := (play later prepared).simulator
    LeftAlone p.spared later prepared → now.pending = [] →
      ∃ port width, Minted prepared.simulator.signals port width p ∧
        (p.direction.samples = true → ∃ clk i, p.signal? .iClk = some clk ∧ p.signal? .i = some i ∧
          Registered p width clk p.port (value? now.signals i) commits) ∧
        (p.direction.drives = true → ∃ clk o, p.signal? .oClk = some clk ∧ p.signal? .o = some o ∧
          Registered p width clk o (value? now.signals p.port) commits) ∧
        ∀ iClk oClk i, p.direction = .inout → p.signal? .iClk = some iClk →
          p.signal? .oClk = some oClk → p.signal? .i = some i → ∀ c, lastRise iClk commits = some c →
          c.turnsTo oClk 1 = true → ∃ v, value? c.signals p.port = some v ∧
            value? now.signals i = some (Word.crossed p.invert width v) := by
  intro prepared commits now alone idle
  have quiet : Quiet prepared.simulator :=
    play_preserves (P := fun b => Quiet b.simulator) (fun _ _ _ effect first => effect.quiet first)
      (fitted_fresh board) ⟨rfl, fun id x h => by simp [Arena.get?] at h⟩ unwritten
  obtain ⟨port, width, qs, minted, -, made, traced⟩ := spawned.traced
  have follows : ∀ q ∈ qs, q.sinks ⊆ p.spared → ∃ q', Traced q prepared.simulator commits q' now :=
    fun q hq sub => traced q hq (alone.mono sub)
  have sampler := minted.samples_registered quiet hrate made follows
  have driver := minted.drives_registered quiet hrate made follows
  simp only [Simulator.next_of_idle idle] at sampler driver
  refine ⟨port, width, minted, sampler, fun drives => ?_, ?_⟩
  · obtain ⟨clk, o, hclk, ho, held, -⟩ := driver drives
    exact ⟨clk, o, hclk, ho, held⟩
  · intro iClk oClk i inout hiClk hoClk hi c last rises
    obtain ⟨_, _, hclk, hi', held⟩ := sampler (by rw [inout]; rfl)
    obtain rfl := Option.some.inj (hiClk.symm.trans hclk)
    obtain rfl := Option.some.inj (hi.symm.trans hi')
    obtain ⟨_, o, hclk, -, -, before⟩ := driver (by rw [inout]; rfl)
    obtain rfl := Option.some.inj (hoClk.symm.trans hclk)
    rw [Registered, last] at held
    obtain ⟨v, captured, sample⟩ := held
    exact ⟨v, (before c (mem_of_lastRise last) rises).symm.trans captured.1, sample⟩

/-- An active-low bus in both directions. -/
def relayPin : Pin where
  name := "pad_bus"
  port := ⟨0⟩
  direction := .inout
  rate := 1
  invert := true
  signals := [(.i, ⟨1⟩), (.o, ⟨2⟩), (.oe, ⟨3⟩), (.iClk, ⟨4⟩), (.oClk, ⟨5⟩)]

def relayBoard : Board where
  resources := [⟨"bus", none, .mk (some 8) true []⟩]

def relayEvents : List (Event PinProcess) :=
  [.arrange (.request "bus" none (some (.leaf .inout)) (some (.leaf 1))), .arrange .prepare]

/-- The output is clocked alone with a 5, and then with a 9 together with the input. -/
def relayRounds : List (Event PinProcess) :=
  [.write ⟨2⟩ 5, .write ⟨5⟩ 1, .settle, .write ⟨5⟩ 0, .settle,
    .write ⟨2⟩ 9, .write ⟨4⟩ 1, .write ⟨5⟩ 1, .settle]

theorem relay_spawned : Spawns relayBoard relayEvents relayPin :=
  ⟨[], "bus", none, some (.leaf .inout), some (.leaf 1), .leaf relayPin, _, [], rfl, rfl,
    List.mem_singleton_self _, by simp⟩

/-- The sample is the 5 that was on the bus, not the 9 that gets there. -/
theorem relay_samples_the_port_before :
    Spawns relayBoard relayEvents relayPin ∧ (∀ e ∈ relayEvents, ∀ id v, e ≠ .write id v) ∧
    relayPin.rate = 1 ∧
    let prepared := play relayEvents { board := relayBoard }
    let commits := log relayRounds prepared
    let now := (play relayRounds prepared).simulator
    LeftAlone relayPin.spared relayRounds prepared ∧ now.pending = [] ∧
      value? now.signals ⟨0⟩ = some 0xf6 ∧
      (∃ clk o, relayPin.signal? .oClk = some clk ∧ relayPin.signal? .o = some o ∧
        Registered relayPin 8 clk o (value? now.signals ⟨0⟩) commits) ∧
      ∃ c, lastRise ⟨4⟩ commits = some c ∧ c.turnsTo ⟨5⟩ 1 = true ∧
        value? c.signals ⟨0⟩ = some 0xfa ∧
        value? now.signals ⟨1⟩ = some (Word.crossed true 8 0xfa) := by
  have unwritten : ∀ e ∈ relayEvents, ∀ id v, e ≠ .write id v := by simp [relayEvents]
  have alone : LeftAlone relayPin.spared relayRounds (play relayEvents { board := relayBoard }) :=
    .of_noneJoins (by simp [relayEvents, relayRounds])
      (by simp [relayRounds, relayPin, Pin.spared, Pin.signal?, Table.get?, Direction.drives])
  have idle : (play relayRounds (play relayEvents { board := relayBoard })).simulator.pending = [] := by
    decide +kernel
  obtain ⟨port, width, minted, sampled, driven, together⟩ :=
    rate_one_pins_are_registers relayBoard relayEvents relay_spawned unwritten rfl relayRounds alone idle
  obtain rfl : 8 = width := minted.width_eq rfl
  obtain ⟨c, last, facts⟩ : ∃ c, lastRise ⟨4⟩ (log relayRounds
      (play relayEvents { board := relayBoard })) = some c ∧
      (c.turnsTo ⟨5⟩ 1 && value? c.signals ⟨0⟩ == some 0xfa) = true :=
    (Option.any_eq_true _ _).mp (by decide +kernel)
  obtain ⟨rises, before⟩ := Bool.and_eq_true_iff.mp facts
  obtain ⟨v, hv, sample⟩ := together ⟨4⟩ ⟨5⟩ ⟨1⟩ rfl rfl rfl rfl c last rises
  obtain rfl := Option.some.inj (hv.symm.trans (beq_iff_eq.mp before))
  exact ⟨relay_spawned, unwritten, rfl, alone, idle, by decide +kernel, driven rfl, c, last, rises, hv,
    sample⟩

end Bench

end NetBridge.Simulation
