import NetBridge.Proofs.Simulation.Registration
import NetBridge.Proofs.Simulation.Session

/-! # Layers

The signals of pins lie in three layers: what the logic drives, clocks among it, then the
ports, then what the pins sample into. A process writes above the signal that wakes it, so
that the writes of a delta cycle lie above those of the cycle before it and the third cycle
is the last one. -/
namespace NetBridge.Simulation

open Simulator (Woken changes commit contains_changes delta? delta?_eq_some fires runDeltas
  runDeltas_cycle runDeltas_idle settle settle_of_ok value? wake_quiet wake_succeeds)

/-- The signals that a pin samples into. -/
def Pin.samples (p : Pin) : List SignalId :=
  (Role.all.filter fun r => r.flow = .outward).filterMap p.signal?

def layer (pins : List Pin) (x : SignalId) : Nat :=
  if x ∈ pins.flatMap Pin.samples then 2 else if x ∈ pins.map Pin.port then 1 else 0

theorem layer_lt (pins : List Pin) (x : SignalId) : layer pins x < 3 := by
  rw [layer]
  split
  · decide
  · split <;> decide

namespace Pin

variable {p p' : Pin} {pins : List Pin} {r : Role} {x : SignalId}

theorem mem_samples : x ∈ p.samples ↔ ∃ r : Role, r.flow = .outward ∧ p.signal? r = some x := by
  simp [samples, List.mem_filterMap, Role.mem_all]

theorem layer_sample (hp : p ∈ pins) (hr : r.flow = .outward) (h : p.signal? r = some x) :
    layer pins x = 2 :=
  if_pos (List.mem_flatMap.mpr ⟨p, hp, mem_samples.mpr ⟨r, hr, h⟩⟩)

theorem layer_port (apart : (pins.flatMap ids).Nodup) (hp : p ∈ pins) : layer pins p.port = 1 := by
  rw [layer, if_neg, if_pos (List.mem_map_of_mem hp)]
  intro sampled
  obtain ⟨p', hp', h⟩ := List.mem_flatMap.mp sampled
  obtain ⟨r, -, hr⟩ := mem_samples.mp h
  obtain rfl := eq_of_mem_ids apart hp' hp (mem_ids hr) p.port_mem_ids
  exact (ids_distinct (nodup_ids apart hp)).1 hr rfl

theorem layer_logic (apart : (pins.flatMap ids).Nodup) (hp : p ∈ pins) (hr : r.flow = .inward)
    (h : p.signal? r = some x) : layer pins x = 0 := by
  rw [layer, if_neg, if_neg]
  · intro port
    obtain ⟨p', hp', rfl⟩ := List.mem_map.mp port
    obtain rfl := eq_of_mem_ids apart hp hp' (mem_ids h) p'.port_mem_ids
    exact (ids_distinct (nodup_ids apart hp)).1 h rfl
  · intro sampled
    obtain ⟨p', hp', h'⟩ := List.mem_flatMap.mp sampled
    obtain ⟨r', hr', h'⟩ := mem_samples.mp h'
    obtain rfl := eq_of_mem_ids apart hp hp' (mem_ids h) (mem_ids h')
    have different : r ≠ r' := fun same => by
      rw [same, hr'] at hr
      cases hr
    exact (ids_distinct (nodup_ids apart hp)).2 h h' different rfl

/-- A process writes above the signal that wakes it. -/
theorem Runs.climbs (apart : (pins.flatMap ids).Nodup) (hp : p ∈ pins) {q : PinProcess}
    (h : p.Runs q) : ∀ x ∈ q.sinks, layer pins q.watched < layer pins x := by
  have port := layer_port apart hp
  cases h with
  | followPort hi =>
    have sample := layer_sample hp rfl hi
    simp [PinProcess.sinks, PinProcess.watched, port, sample]
  | followSignal ho =>
    have logic := layer_logic apart hp rfl ho
    simp [PinProcess.sinks, PinProcess.watched, port, logic]
  | registerPort hclk hi =>
    have logic := layer_logic apart hp rfl hclk
    have sample := layer_sample hp rfl hi
    simp [PinProcess.sinks, PinProcess.watched, logic, sample]
  | registerSignal hclk =>
    have logic := layer_logic apart hp rfl hclk
    simp [PinProcess.sinks, PinProcess.watched, port, logic]
  | doubleInput hclk hi0 hi1 =>
    have logic := layer_logic apart hp rfl hclk
    have sample0 := layer_sample hp rfl hi0
    have sample1 := layer_sample hp rfl hi1
    simp [PinProcess.sinks, PinProcess.watched, logic, sample0, sample1]
  | doubleOutput hclk _ _ hport =>
    have logic := layer_logic apart hp rfl hclk
    simp [PinProcess.sinks, PinProcess.watched, hport, port, logic]

end Pin

variable {ρ : Type} {s s' : Simulator (PinProcess ⊕ ρ)} {attached waiting : List Pin}

variable [Coroutine ρ]

/-- The writes that wait are to signals of the layers from `k` on. -/
def Above (k : Nat) (attached : List Pin) (s : Simulator (PinProcess ⊕ ρ)) : Prop :=
  ∀ x ∈ s.pending.keys, k ≤ layer attached x

namespace Fitted

/-- The process of a pin is woken or not, and writes to signals that are there. -/
theorem exists_woken (h : Fitted s attached waiting) {slot : Slot (PinProcess ⊕ ρ)}
    (hslot : slot ∈ s.slots) (alone : ∃ q, slot.process = .inl q) : ∃ writes slot',
      Woken (commit s.signals s.pending) (changes s.signals s.pending) slot writes slot' ∧
      ∀ w ∈ writes, (commit s.signals s.pending).contains w.1 = true := by
  obtain ⟨q, hq⟩ := alone
  obtain ⟨-, p, hp, runs⟩ := h.owned slot hslot q hq
  obtain ⟨port, width, minted⟩ := h.minted p (List.mem_append_left _ hp)
  have reads := (minted.retained (retains_commit h.regular)).reads
  cases fired : fires (commit s.signals s.pending) (changes s.signals s.pending) slot.wait with
  | false => exact ⟨[], slot, .asleep fired, by simp⟩
  | true =>
    obtain ⟨r, hr, -⟩ := runs.resume reads
    have resumed : Coroutine.resume slot.process (value? (commit s.signals s.pending)) =
        some (r.map Sum.inl) := by
      rw [hq]
      exact congrArg (Option.map _) hr
    refine ⟨_, _, .awake fired resumed, fun w hw => ?_⟩
    obtain ⟨v, hv⟩ := reads w.1 (runs.sinks _ ((PinProcess.resume_sinks hr).1 w hw))
    obtain ⟨x, hx, -⟩ := Option.map_eq_some_iff.mp hv
    exact Arena.contains_of_get? hx

/-- If it writes, the signal that it watches had a write before, and lies lower. -/
theorem woken_above (h : Fitted s attached waiting) {k : Nat} (above : Above k attached s)
    {slot slot' : Slot (PinProcess ⊕ ρ)} {writes : List (SignalId × Word)} (hslot : slot ∈ s.slots)
    (alone : ∃ q, slot.process = .inl q)
    (woken : Woken (commit s.signals s.pending) (changes s.signals s.pending) slot writes slot') :
    ∀ x ∈ Table.keys writes, k + 1 ≤ layer attached x := by
  intro x hx
  obtain ⟨q, hq⟩ := alone
  obtain ⟨hwait, p, hp, runs⟩ := h.owned slot hslot q hq
  rcases woken_pin woken hq with ⟨-, rfl, -⟩ | ⟨r, fired, hr, rfl, -⟩
  · cases hx
  · rw [hwait] at fired
    obtain ⟨w, hw, rfl⟩ := List.mem_map.mp hx
    obtain ⟨v, hv, -⟩ := (contains_changes h.regular.nodup _).mp (PinProcess.watched_of_fires fired)
    have low := above q.watched (Table.mem_keys_of_get? hv)
    have climbs := runs.climbs h.attached_apart hp _ ((PinProcess.resume_sinks hr).1 w hw)
    omega

/-- A delta cycle is carried out, and takes the writes up by a layer. -/
theorem climb (h : Fitted s attached waiting) (alone : Alone s.slots) {k : Nat}
    (above : Above k attached s) : ∃ s', delta? s = some s' ∧ Above (k + 1) attached s' := by
  obtain ⟨⟨pending, slots⟩, hw⟩ := wake_succeeds []
    fun slot hslot => h.exists_woken hslot (alone slot hslot)
  refine ⟨{ s with signals := commit s.signals s.pending, pending, slots }, ?_, fun x hx => ?_⟩
  · rw [Simulator.delta?_eq, hw]
    rfl
  · -- Otherwise the signal would have got a write from a slot that a lower write has woken.
    by_contra low
    have none := wake_quiet (x := x) (fun slot hslot writes slot' woken hx =>
      low (h.woken_above above hslot (alone slot hslot) woken x hx)) hw
    exact Table.get?_eq_none_iff.mp none hx

end Fitted

/-- Delta cycles that use up a bound come to an end within it. -/
theorem runDeltas_within {P : Nat → Simulator (PinProcess ⊕ ρ) → Prop}
    (step : ∀ k s, P (k + 1) s → ∃ s', delta? s = some s' ∧ P k s')
    (done : ∀ s, P 0 s → s.pending = []) (budget count : Nat) {k : Nat} (h : P k s)
    (enough : k ≤ budget) :
    ∃ n s', runDeltas budget count s = .ok n s' ∧ n ≤ count + k ∧ s'.pending = [] := by
  induction k generalizing budget count s with
  | zero =>
    exact ⟨count, s, runDeltas_idle count budget (done s h), Nat.le_refl _, done s h⟩
  | succ k ih =>
    obtain ⟨budget, rfl⟩ := Nat.exists_eq_add_of_lt enough
    by_cases busy : s.pending = []
    · exact ⟨count, s, runDeltas_idle count _ busy, Nat.le_add_right _ _, busy⟩
    · obtain ⟨t, ht, hP⟩ := step k s h
      obtain ⟨n, s', hrun, hn, hs'⟩ := ih (k + budget) (count + 1) hP (Nat.le_add_right _ _)
      exact ⟨n, s', (runDeltas_cycle count busy ht).trans hrun, by omega, hs'⟩

theorem Fitted.settle_within (h : Fitted s attached waiting) (alone : Alone s.slots)
    (limit : 3 ≤ s.maxDeltas) :
    ∃ n s', Simulator.settle s = .ok n s' ∧ n ≤ 3 ∧ s'.pending = [] := by
  obtain ⟨n, s', hrun, hn, idle⟩ := runDeltas_within
    (P := fun k s => Fitted s attached waiting ∧ Alone s.slots ∧ Above (3 - k) attached s)
    (fun k s ⟨h, alone, above⟩ => by
      obtain ⟨s', hd, above⟩ := h.climb alone above
      refine ⟨s', hd, h.delta hd, alone.delta hd, fun x hx => ?_⟩
      have := above x hx
      omega)
    (fun s ⟨_, _, above⟩ => by
      refine List.eq_nil_iff_forall_not_mem.mpr fun w hw => ?_
      have top := above w.1 (List.mem_map_of_mem hw)
      have below := layer_lt attached w.1
      omega)
    s.maxDeltas 0 ⟨h, alone, fun x _ => Nat.zero_le _⟩ limit
  exact ⟨n, _, settle_of_ok hrun, by omega, idle⟩

namespace Bench

/-- Whatever is requested of a bench and prepared, in whatever modes, and whatever a testbench
writes, the pins never form a loop: every settling that may take three delta cycles succeeds
within three, and leaves no write waiting. -/
theorem pins_settle_within_three_deltas (board : Board) (events : List (Event ρ))
    (noneJoins : ∀ e ∈ events, ∀ r, e ≠ .join r) :
    let b := play events ({ board } : Bench ρ)
    3 ≤ b.simulator.maxDeltas →
      ∃ n s, Simulator.settle b.simulator = .ok n s ∧ n ≤ 3 ∧ s.pending = [] := by
  intro b limit
  obtain ⟨attached, fitted⟩ := fitted_play (fitted_fresh board) events
  exact fitted.settle_within (alone_play board noneJoins) limit

def busBoard : Board where
  resources := [⟨"bus", none, .mk (some 8) false []⟩]

/-- An eight-bit bus is requested in both directions and driven. -/
def busSession (maxDeltas : Nat) : List (Event PinProcess) :=
  [.arrange (.request "bus" none (some (.leaf .inout)) (some (.leaf 0))), .arrange .prepare,
    .limit maxDeltas, .write ⟨2⟩ 5]

/-- What drives the bus gets to its port and from there to its sample, in three cycles. -/
theorem bus_settles_within_three_deltas :
    (∀ e ∈ busSession 3, ∀ r, e ≠ .join r) ∧
    let b := play (busSession 3) ({ board := busBoard } : Bench PinProcess)
    3 ≤ b.simulator.maxDeltas ∧ b.simulator.pending = [(⟨2⟩, 5)] ∧
      ∃ n s, Simulator.settle b.simulator = .ok n s ∧ n ≤ 3 ∧ s.pending = [] := by
  have noneJoins : ∀ e ∈ busSession 3, ∀ r, e ≠ .join r := by simp [busSession]
  refine ⟨noneJoins, Nat.le_refl 3, rfl, ?_⟩
  exact pins_settle_within_three_deltas busBoard (busSession 3) noneJoins (Nat.le_refl 3)

/-- Two cycles are not enough. -/
example : ∃ s, Simulator.settle (play (busSession 2) { board := busBoard }).simulator =
    .error (.deltaLimit 2) s := ⟨_, rfl⟩

end Bench

end NetBridge.Simulation
