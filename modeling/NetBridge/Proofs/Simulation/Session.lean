import Mathlib.Data.List.Pairwise
import NetBridge.Proofs.Simulation.Ownership
import NetBridge.Proofs.Simulation.Reordering

/-! # Sessions

In a session anything may happen to a bench, in any order: resources are requested, the
bench is prepared, other processes join, the testbench writes and settles. Whatever
happens, no two pins get a signal in common, and the processes that were added for pins
go on being those of the pins. -/
namespace NetBridge.Simulation

namespace Simulator

variable {π : Type} [Coroutine π]

/-- The states from which the delta cycles of a settling are carried out, in their order. -/
def commits : Nat → Simulator π → List (Simulator π)
  | 0, _ => []
  | budget + 1, s =>
    if s.pending.isEmpty then []
    else match s.delta? with
      | none => []
      | some t => s :: commits budget t

/-- What every delta cycle preserves, together with the cycles so far, holds when the
settling is over, failed or not. -/
theorem runDeltas_traced {P : List (Simulator π) → Simulator π → Prop} {A : Simulator π → Prop}
    (step : ∀ cs s t, P cs s → A s → delta? s = some t → P (cs ++ [s]) t) (budget count : Nat)
    (cs : List (Simulator π)) {s : Simulator π} (h : P cs s) (hall : ∀ t ∈ commits budget s, A t) :
    P (cs ++ commits budget s) (stateAfter (runDeltas budget count) s) := by
  induction budget generalizing count cs s with
  | zero =>
    rw [commits, List.append_nil]
    by_cases busy : s.pending = []
    · rwa [stateAfter_ok (runDeltas_idle count 0 busy)]
    · rwa [stateAfter_error (runDeltas_exhausted count busy)]
  | succ budget ih =>
    rw [commits] at hall ⊢
    by_cases busy : s.pending = []
    · rwa [stateAfter_ok (runDeltas_idle count _ busy), if_pos (List.isEmpty_iff.mpr busy),
        List.append_nil]
    · rw [if_neg (mt List.isEmpty_iff.mp busy)] at hall ⊢
      cases hd : delta? s with
      | none =>
        rw [stateAfter_error (runDeltas_stuck count busy hd)]
        simpa using h
      | some t =>
        rw [hd] at hall
        obtain ⟨now, later⟩ := List.forall_mem_cons.mp hall
        have rest := ih (count + 1) (cs ++ [s]) (step cs s t h now hd) later
        rw [stateAfter, runDeltas_cycle count busy hd]
        rw [List.append_assoc] at rest
        exact rest

/-- So does what does not depend on how many delta cycles there have been. -/
theorem settle_traced {P : List (Simulator π) → Simulator π → Prop} {A : Simulator π → Prop}
    (step : ∀ cs s t, P cs s → A s → delta? s = some t → P (cs ++ [s]) t)
    (counted : ∀ cs s n, P cs s → P cs { s with totalDeltas := n }) (cs : List (Simulator π))
    {s : Simulator π} (h : P cs s) (hall : ∀ t ∈ commits s.maxDeltas s, A t) :
    P (cs ++ commits s.maxDeltas s) (stateAfter settle s) := by
  have deltas := runDeltas_traced step s.maxDeltas 0 cs h hall
  rw [stateAfter] at deltas ⊢
  rw [settle_eq]
  cases hrun : runDeltas s.maxDeltas 0 s <;> rw [hrun] at deltas
  · exact counted _ _ _ deltas
  · exact deltas

theorem commits_subset (budget : Nat) (s : Simulator π) : commits budget s ⊆ cycles budget s := by
  induction budget generalizing s with
  | zero => exact List.Subset.refl _
  | succ budget ih =>
    rw [commits, cycles]
    split
    · exact List.Subset.refl _
    · cases delta? s with
      | none => exact List.nil_subset _
      | some t => exact List.cons_subset_cons s (ih t)

/-- What a delta cycle preserves of the processes a settling preserves. -/
theorem settle_preserves {P : List (Slot π) → Prop}
    (step : ∀ s s' : Simulator π, P s.slots → delta? s = some s' → P s'.slots) {s : Simulator π}
    (h : P s.slots) : P (stateAfter settle s).slots := by
  exact settle_traced (P := fun _ s => P s.slots) (A := fun _ => True)
    (fun _ s t h _ hd => step s t h hd) (fun _ _ _ h => h) [] h fun _ _ => trivial

/-- All processes can be woken if each of them can. -/
theorem wake_succeeds {signals : Arena Signal} {changed : Table SignalId Word}
    (pending : Table SignalId Word) {slots : List (Slot π)} (h : ∀ slot ∈ slots, ∃ writes slot',
      Woken signals changed slot writes slot' ∧ ∀ w ∈ writes, signals.contains w.1 = true) :
    ∃ r, wake signals changed pending slots = some r := by
  induction slots generalizing pending with
  | nil => exact ⟨_, rfl⟩
  | cons slot rest ih =>
    obtain ⟨⟨writes, slot', woken, there⟩, others⟩ := List.forall_mem_cons.mp h
    rw [wake_step, advance_eq_some.mpr woken, Option.bind_some, queue_ok there, Option.bind_some]
    obtain ⟨r, hr⟩ := ih _ others
    rw [hr]
    exact ⟨_, rfl⟩

end Simulator

open Simulator (Regular Woken delta? delta?_eq_some get?_commit value? wake_regular)

theorem Minted.reads {signals : Arena Signal} {port : String} {width : Nat} {p : Pin}
    (minted : Minted signals port width p) : ∀ x ∈ p.ids, ∃ v, value? signals x = some v := by
  have reads : ∀ {x y}, signals.get? x = some y → ∃ v, value? signals x = some v := fun h =>
    ⟨_, by rw [value?, h, Option.map_some]⟩
  refine List.forall_mem_cons.mpr ⟨?_, fun x hx => ?_⟩
  · obtain ⟨v, hv⟩ := minted.port
    exact reads hv
  · obtain ⟨q, hq, rfl⟩ := List.mem_map.mp hx
    obtain ⟨v, hv⟩ := minted.signals q hq
    exact reads hv

namespace Pin

variable {pins : List Pin} {p p' : Pin} {x : SignalId}

/-- A signal belongs to one pin. -/
theorem eq_of_mem_ids (apart : (pins.flatMap ids).Nodup) (hp : p ∈ pins) (hp' : p' ∈ pins)
    (h : x ∈ p.ids) (h' : x ∈ p'.ids) : p = p' := by
  by_contra different
  obtain ⟨-, disjoint⟩ := List.nodup_flatMap.mp apart
  have symm : Std.Symm (Function.onFun List.Disjoint ids) := ⟨fun _ _ d _ h h' => d h' h⟩
  exact disjoint.forall hp hp' different h h'

theorem nodup_ids (apart : (pins.flatMap ids).Nodup) (hp : p ∈ pins) : p.ids.Nodup :=
  (List.nodup_flatMap.mp apart).1 p hp

end Pin

variable {ρ : Type}

/-- Values fit, no two pins have a signal in common, and every process that was added for
a pin is one of an attached pin and waits as it should. -/
structure Fitted (s : Simulator (PinProcess ⊕ ρ)) (attached waiting : List Pin) : Prop where
  regular : Regular s.signals s.pending
  minted : ∀ p ∈ attached ++ waiting, ∃ port width, Minted s.signals port width p
  apart : ((attached ++ waiting).flatMap Pin.ids).Nodup
  owned : ∀ slot ∈ s.slots, ∀ q, slot.process = .inl q →
    slot.wait = q.wait ∧ ∃ p ∈ attached, p.Runs q

theorem Simulator.Regular.added {s s' : Simulator (PinProcess ⊕ ρ)} {ids : List SignalId}
    (h : Regular s.signals s.pending) (added : Added s s' ids) : Regular s'.signals s'.pending := by
  rw [added.only]
  exact {
    nodup := h.nodup
    fits := fun id x hx => (added.zero id x hx).elim (h.fits id x) fun new => by
      rw [new.1]
      exact BitVec.zero_and
    queued := fun id v hv => by
      obtain ⟨x, hx, fits⟩ := h.queued id v hv
      exact ⟨x, added.adds.grown hx, fits⟩ }

/-- Signals keep their names and widths in a delta cycle. -/
theorem retains_commit {s : Simulator (PinProcess ⊕ ρ)} (h : Regular s.signals s.pending) :
    Retains s.signals (Simulator.commit s.signals s.pending) := fun id x hx => by
  rw [get?_commit s.signals h.nodup, hx]
  exact ⟨_, rfl⟩

namespace Fitted

variable {s s' : Simulator (PinProcess ⊕ ρ)} {attached waiting pins : List Pin}

theorem attached_apart (h : Fitted s attached waiting) : (attached.flatMap Pin.ids).Nodup := by
  have apart := h.apart
  rw [List.flatMap_append] at apart
  exact (List.nodup_append.mp apart).1

/-- A waking process of a pin gets to another state of it. -/
theorem owned_woken [Coroutine ρ] {signals : Arena Signal} {changed : Table SignalId Word}
    (minted : ∀ p ∈ attached, ∃ port width, Minted signals port width p)
    {slot slot' : Slot (PinProcess ⊕ ρ)} {writes : List (SignalId × Word)}
    (woken : Woken signals changed slot writes slot')
    (h : ∀ q, slot.process = .inl q → slot.wait = q.wait ∧ ∃ p ∈ attached, p.Runs q) :
    ∀ q, slot'.process = .inl q → slot'.wait = q.wait ∧ ∃ p ∈ attached, p.Runs q := by
  intro q' hq'
  obtain ⟨q, hq⟩ := pin_of_woken woken hq'
  rcases woken_pin woken hq with ⟨-, -, rfl⟩ | ⟨r, -, hr, -, rfl⟩
  · exact h q' hq'
  · obtain rfl := Sum.inl.inj hq'
    obtain ⟨-, p, hp, runs⟩ := h q hq
    obtain ⟨port, width, minted⟩ := minted p hp
    obtain ⟨r', hr', stays⟩ := runs.resume minted.reads
    obtain rfl := Option.some.inj (hr'.symm.trans hr)
    obtain ⟨-, -, hwait, -⟩ := PinProcess.resume_keeps hr
    exact ⟨hwait, p, hp, stays⟩

theorem delta [Coroutine ρ] (h : Fitted s attached waiting) (hd : delta? s = some s') :
    Fitted s' attached waiting := by
  obtain ⟨pending, slots, hw, rfl⟩ := delta?_eq_some hd
  have minted : ∀ p ∈ attached ++ waiting, ∃ port width,
      Minted (Simulator.commit s.signals s.pending) port width p := fun p hp => by
    obtain ⟨port, width, minted⟩ := h.minted p hp
    exact ⟨port, width, minted.retained (retains_commit h.regular)⟩
  refine ⟨wake_regular h.regular.commit hw, minted, h.apart, ?_⟩
  exact Simulator.wake_forall
    (fun slot writes slot' owned woken =>
      owned_woken (fun p hp => minted p (List.mem_append_left _ hp)) woken owned) hw h.owned

theorem settle [Coroutine ρ] (h : Fitted s attached waiting) :
    Fitted (stateAfter Simulator.settle s) attached waiting :=
  Simulator.settle_traced (P := fun _ s => Fitted s attached waiting) (A := fun _ => True)
    (fun _ _ _ h _ hd => h.delta hd) (fun _ _ _ h => ⟨h.regular, h.minted, h.apart, h.owned⟩) [] h
    fun _ _ => trivial

/-- New signals, and new pins that wait, if the signals are theirs. -/
theorem grow (h : Fitted s attached waiting) (added : Added s s' (pins.flatMap Pin.ids))
    (minted : ∀ p ∈ pins, ∃ port width, Minted s'.signals port width p) :
    Fitted s' attached (waiting ++ pins) where
  regular := h.regular.added added
  minted := by
    rw [← List.append_assoc]
    refine List.forall_mem_append.mpr ⟨fun p hp => ?_, minted⟩
    obtain ⟨port, width, minted⟩ := h.minted p hp
    exact ⟨port, width, minted.extends added.adds.grown⟩
  apart := by
    have held : s.signals.Holds ((attached ++ waiting).flatMap Pin.ids) := by
      refine ⟨fun id hid => ?_, h.apart⟩
      obtain ⟨p, hp, hid⟩ := List.mem_flatMap.mp hid
      obtain ⟨port, width, minted⟩ := h.minted p hp
      obtain ⟨v, hv⟩ := minted.reads id hid
      obtain ⟨x, hx, -⟩ := Option.map_eq_some_iff.mp hv
      exact Arena.contains_of_get? hx
    rw [← List.append_assoc, List.flatMap_append]
    exact (held.adds added.adds).nodup
  owned := by
    rw [added.only]
    exact h.owned

/-- The pins that wait get their processes. -/
theorem attach (h : Fitted s attached waiting) {added : List (Pin × List PinProcess)}
    (pins : added.map Prod.fst = waiting) (animated : ∀ a ∈ added, Animated s.signals a) :
    Fitted { s with slots := s.slots ++ slotsOf added } (attached ++ waiting) [] where
  regular := h.regular
  minted := by simpa using h.minted
  apart := by simpa using h.apart
  owned := by
    refine List.forall_mem_append.mpr ⟨fun slot hslot q hq => ?_, fun slot hslot q hq => ?_⟩
    · obtain ⟨hwait, p, hp, runs⟩ := h.owned slot hslot q hq
      exact ⟨hwait, p, List.mem_append_left _ hp, runs⟩
    · obtain ⟨a, ha, hslot⟩ := List.mem_flatMap.mp hslot
      obtain ⟨q', hq', rfl⟩ := List.mem_map.mp hslot
      obtain rfl := Sum.inl.inj hq
      obtain ⟨port, width, minted, made⟩ := animated a ha
      obtain ⟨runs, starts⟩ := Pin.runs_of_mem minted made hq'
      exact ⟨starts, a.1, List.mem_append_right _ (pins ▸ List.mem_map_of_mem ha), runs⟩

theorem join [Coroutine ρ] (h : Fitted s attached waiting) (r : ρ) :
    Fitted { s with slots := s.slots ++ [⟨.inr r, Coroutine.start r⟩] } attached waiting where
  regular := h.regular
  minted := h.minted
  apart := h.apart
  owned := List.forall_mem_append.mpr ⟨h.owned, List.forall_mem_singleton.mpr fun q hq => by cases hq⟩

theorem queue (h : Fitted s attached waiting) {id : SignalId} {x : Signal} {v : Word}
    (hx : s.signals.get? id = some x) (fits : v &&& x.mask = v) :
    Fitted { s with pending := Table.set s.pending id v } attached waiting :=
  ⟨h.regular.set hx fits, h.minted, h.apart, h.owned⟩

end Fitted

namespace Bench

/-- What may happen to a bench. -/
inductive Event (ρ : Type) where
  /-- A request, a preparation, or a signal of the testbench. -/
  | arrange (action : Action)
  /-- A process that is no pin's is added. -/
  | join (process : ρ)
  | write (id : SignalId) (value : Word)
  | settle
  /-- From now on a settling takes at most so many delta cycles. -/
  | limit (maxDeltas : Nat)

variable [Coroutine ρ]

def Event.apply : Event ρ → Bench ρ → Bench ρ
  | arrange action => action.apply
  | join process => stateAfter (onSimulator (Simulator.addProcess (.inr process)))
  | write id value => stateAfter (onSimulator (Simulator.set id value))
  | settle => stateAfter (onSimulator Simulator.settle)
  | limit maxDeltas => fun b => { b with simulator := { b.simulator with maxDeltas } }

/-- The delta cycles of an event, each by the state in which it begins. -/
def Event.log : Event ρ → Bench ρ → List (Simulator (PinProcess ⊕ ρ))
  | settle, b => b.simulator.commits b.simulator.maxDeltas
  | _, _ => []

def play (events : List (Event ρ)) (b : Bench ρ) : Bench ρ := events.foldl (fun b e => e.apply b) b

/-- The delta cycles of a session. -/
def log : List (Event ρ) → Bench ρ → List (Simulator (PinProcess ⊕ ρ))
  | [], _ => []
  | e :: rest, b => e.log b ++ log rest (e.apply b)

/-- What an event does to a bench. -/
inductive Effect (b : Bench ρ) : Event ρ → Bench ρ → Prop
  | grow {a : Action} {b' : Bench ρ} (pins : List Pin) : a ≠ .prepare →
    Added b.simulator b'.simulator (pins.flatMap Pin.ids) →
    (∀ p ∈ pins, ∃ port width, Minted b'.simulator.signals port width p) →
    b'.waiting = b.waiting ++ pins → Effect b (.arrange a) b'
  | attach (added : List (Pin × List PinProcess)) : added.map Prod.fst = b.waiting →
    (∀ a ∈ added, Animated b.simulator.signals a) →
    Effect b (.arrange .prepare) { b with
      simulator := { b.simulator with slots := b.simulator.slots ++ slotsOf added }
      waiting := [] }
  | join (r : ρ) : Effect b (.join r) { b with
      simulator := { b.simulator with
        slots := b.simulator.slots ++ [⟨.inr r, Coroutine.start r⟩] } }
  | queue {id : SignalId} {x : Signal} {v : Word} : b.simulator.signals.get? id = some x →
    v &&& x.mask = v → Effect b (.write id v) { b with
      simulator := { b.simulator with pending := Table.set b.simulator.pending id v } }
  | refuse (id : SignalId) (v : Word) : Effect b (.write id v) b
  | settle : Effect b .settle { b with simulator := stateAfter Simulator.settle b.simulator }
  | limit (n : Nat) : Effect b (.limit n) { b with simulator := { b.simulator with maxDeltas := n } }

omit [Coroutine ρ] in
theorem stateAfter_onSimulator {α : Type} (x : SimM (PinProcess ⊕ ρ) α) (b : Bench ρ) :
    stateAfter (onSimulator x) b = { b with simulator := stateAfter x b.simulator } := by
  rw [stateAfter, stateAfter, onSimulator]
  cases x b.simulator <;> rfl

theorem effect_of_action {b : Bench ρ}
    (minted : ∀ p ∈ b.waiting, ∃ port width, Minted b.simulator.signals port width p) (a : Action) :
    Effect b (.arrange a) (a.apply b) := by
  cases a with
  | request name index direction rate =>
    have outcome := request_outcome name index direction rate b
    rw [Action.apply]
    cases hr : Bench.request name index direction rate b with
    | ok tree b' =>
      rw [hr] at outcome
      obtain ⟨added, made, hb'⟩ := outcome
      rw [stateAfter_ok hr]
      exact .grow tree.leaves (by simp) added made (by rw [hb'])
    | error e b' =>
      rw [hr] at outcome
      obtain ⟨⟨ids, added⟩, hb'⟩ := outcome
      rw [stateAfter_error hr]
      refine .grow [] (by simp) ⟨added.only, ?_, added.zero⟩ (by simp) (by rw [hb', List.append_nil])
      exact ⟨added.adds.grown, by simp, by simp, List.nodup_nil⟩
  | prepare =>
    obtain ⟨n, added, hpins, animated, hrun⟩ := prepare_ok minted
    rw [Action.apply, stateAfter_ok hrun]
    exact .attach added hpins animated
  | addSignal name width =>
    have hadd := Simulator.addSignal_run name width b.simulator
    rw [Action.apply, stateAfter_onSimulator]
    split at hadd
    · rw [stateAfter_error hadd]
      exact .grow [] (by simp) (.refl _) (by simp) (by simp)
    · rename_i valid
      obtain ⟨pos, le⟩ : 0 < width ∧ width ≤ 64 := by omega
      have added := Simulator.added_push b.simulator name pos le
      rw [stateAfter_ok hadd]
      refine .grow [] (by simp) ⟨added.only, ?_, added.zero⟩ (by simp) (by simp)
      exact ⟨added.adds.grown, by simp, by simp, List.nodup_nil⟩

theorem effect {b : Bench ρ}
    (minted : ∀ p ∈ b.waiting, ∃ port width, Minted b.simulator.signals port width p) (e : Event ρ) :
    Effect b e (e.apply b) := by
  cases e with
  | arrange a => exact effect_of_action minted a
  | join r =>
    rw [Event.apply, stateAfter_onSimulator]
    exact .join r
  | write id v =>
    rw [Event.apply, stateAfter_onSimulator]
    rcases Simulator.write_eq b.simulator id v with same | ⟨x, hx, fits, done⟩
    · rw [show stateAfter (Simulator.set id v) b.simulator = b.simulator from same]
      exact .refuse id v
    · rw [show stateAfter (Simulator.set id v) b.simulator = _ from done]
      exact .queue hx fits
  | settle =>
    rw [Event.apply, stateAfter_onSimulator]
    exact .settle
  | limit n => exact .limit n

/-- Nothing that happens to a bench makes two pins share a signal, or takes a process away
from its pin. -/
theorem Effect.fitted {b b' : Bench ρ} {e : Event ρ} (effect : Effect b e b') {attached : List Pin}
    (h : Fitted b.simulator attached b.waiting) :
    ∃ more, Fitted b'.simulator (attached ++ more) b'.waiting := by
  cases effect with
  | grow pins _ added minted waiting =>
    refine ⟨[], ?_⟩
    rw [List.append_nil, waiting]
    exact h.grow added minted
  | attach added pins animated => exact ⟨b.waiting, h.attach pins animated⟩
  | join r => exact ⟨[], by simpa using h.join r⟩
  | queue hx fits => exact ⟨[], by simpa using h.queue hx fits⟩
  | refuse => exact ⟨[], by simpa using h⟩
  | settle => exact ⟨[], by simpa using h.settle⟩
  | limit =>
    rw [← List.append_nil attached] at h
    exact ⟨[], ⟨h.regular, h.minted, h.apart, h.owned⟩⟩

omit [Coroutine ρ] in
theorem fitted_fresh (board : Board) : Fitted ({ board } : Bench ρ).simulator [] [] where
  regular := ⟨List.nodup_nil, fun id x h => by simp [Arena.get?] at h, fun id v h => by cases h⟩
  minted := by simp
  apart := List.nodup_nil
  owned := by simp

theorem fitted_play {b : Bench ρ} {attached : List Pin} (h : Fitted b.simulator attached b.waiting)
    (events : List (Event ρ)) :
    ∃ more, Fitted (play events b).simulator (attached ++ more) (play events b).waiting := by
  induction events generalizing b attached with
  | nil => exact ⟨[], by simpa [play] using h⟩
  | cons e rest ih =>
    have minted : ∀ p ∈ b.waiting, ∃ port width, Minted b.simulator.signals port width p :=
      fun p hp => h.minted p (List.mem_append_right _ hp)
    obtain ⟨more, h₁⟩ := (effect minted e).fitted h
    obtain ⟨others, h₂⟩ := ih h₁
    rw [List.append_assoc] at h₂
    exact ⟨more ++ others, h₂⟩

/-- What each of the events preserves that may happen holds after all of them. -/
theorem play_preserves {P : Bench ρ → Prop} {allowed : Event ρ → Prop}
    (step : ∀ b b' e, Effect b e b' → allowed e → P b → P b') {b : Bench ρ} {attached : List Pin}
    (fitted : Fitted b.simulator attached b.waiting) (h : P b) {events : List (Event ρ)}
    (all : ∀ e ∈ events, allowed e) : P (play events b) := by
  induction events generalizing b attached with
  | nil => exact h
  | cons e rest ih =>
    obtain ⟨first, others⟩ := List.forall_mem_cons.mp all
    have effect := effect (fun p hp => fitted.minted p (List.mem_append_right _ hp)) e
    obtain ⟨more, fitted⟩ := effect.fitted fitted
    exact ih fitted (step b _ e effect first h) others

end Bench

/-- Only pins have processes. -/
def Alone (slots : List (Slot (PinProcess ⊕ ρ))) : Prop := ∀ slot ∈ slots, ∃ q, slot.process = .inl q

theorem Alone.delta [Coroutine ρ] {s s' : Simulator (PinProcess ⊕ ρ)} (h : Alone s.slots)
    (hd : delta? s = some s') : Alone s'.slots := by
  obtain ⟨pending, slots, hw, rfl⟩ := delta?_eq_some hd
  refine Simulator.wake_forall (fun slot writes slot' ⟨q, hq⟩ woken => ?_) hw h
  rcases woken_pin woken hq with ⟨-, -, rfl⟩ | ⟨r, -, -, -, rfl⟩
  · exact ⟨q, hq⟩
  · exact ⟨r.process, rfl⟩

namespace Bench

variable [Coroutine ρ]

theorem Effect.alone {b b' : Bench ρ} {e : Event ρ} (effect : Effect b e b')
    (noneJoins : ∀ r, e ≠ .join r) (h : Alone b.simulator.slots) : Alone b'.simulator.slots := by
  cases effect with
  | grow _ _ added =>
    rw [added.only]
    exact h
  | attach added =>
    refine List.forall_mem_append.mpr ⟨h, fun slot hslot => ?_⟩
    obtain ⟨a, -, hslot⟩ := List.mem_flatMap.mp hslot
    obtain ⟨q, -, rfl⟩ := List.mem_map.mp hslot
    exact ⟨q, rfl⟩
  | join r => exact absurd rfl (noneJoins r)
  | queue => exact h
  | refuse => exact h
  | settle => exact Simulator.settle_preserves (P := Alone) (fun _ _ alone hd => alone.delta hd) h
  | limit => exact h

theorem alone_play (board : Board) {events : List (Event ρ)}
    (noneJoins : ∀ e ∈ events, ∀ r, e ≠ .join r) :
    Alone (play events ({ board } : Bench ρ)).simulator.slots :=
  play_preserves (P := fun b => Alone b.simulator.slots) (fun _ _ _ effect first => effect.alone first)
    (fitted_fresh board) (by simp [Alone]) noneJoins

end Bench

end NetBridge.Simulation
