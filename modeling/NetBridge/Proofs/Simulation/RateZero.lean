import NetBridge.Proofs.Simulation.Following
import NetBridge.Proofs.Simulation.Setup

/-! # Pins without a clock

At rate 0 an input follows the port into its signal and an output follows its signal
into the port. On a prepared bench no other process writes these two signals. -/
namespace NetBridge.Simulation

open Simulator (value?)

variable {ρ : Type}

/-- Of all slots only those of the given processes write the given signals. -/
def Isolated (ids : List SignalId) (qs : List PinProcess)
    (slots : List (Slot (PinProcess ⊕ ρ))) : Prop :=
  ∃ before after, slots = before ++ qs.map freshSlot ++ after ∧
    ∀ x ∈ ids, Unwritten x before ∧ Unwritten x after

section Isolated

variable {ids : List SignalId} {qs rest : List PinProcess}
  {slots : List (Slot (PinProcess ⊕ ρ))} {x source sink : SignalId} {mask : Word}

theorem unwritten_fresh (h : ∀ q ∈ qs, x ∉ q.sinks) :
    Unwritten x (qs.map freshSlot : List (Slot (PinProcess ⊕ ρ))) := by
  intro slot hslot
  obtain ⟨q, hq, rfl⟩ := List.mem_map.mp hslot
  exact h q hq

theorem Isolated.unwritten (h : Isolated ids qs slots) (hx : x ∈ ids)
    (spare : ∀ q ∈ qs, x ∉ q.sinks) : Unwritten x slots := by
  obtain ⟨before, after, rfl, apart⟩ := h
  obtain ⟨left, right⟩ := apart x hx
  exact List.forall_mem_append.mpr ⟨List.forall_mem_append.mpr ⟨left, unwritten_fresh spare⟩, right⟩

theorem Isolated.linked (h : Isolated ids (qs ++ .follow source sink mask :: rest) slots)
    (hsink : sink ∈ ids) (left : ∀ q ∈ qs, sink ∉ q.sinks) (right : ∀ q ∈ rest, sink ∉ q.sinks) :
    Linked source sink mask slots := by
  obtain ⟨before, after, rfl, apart⟩ := h
  obtain ⟨first, last⟩ := apart sink hsink
  rw [List.map_append, List.map_cons]
  have here : Linked source sink mask (freshSlot (.follow source sink mask) ::
      rest.map freshSlot : List (Slot (PinProcess ⊕ ρ))) := .here (unwritten_fresh right)
  exact ((here.prepend (unwritten_fresh left)).prepend first).append last

end Isolated

theorem unwritten_slotsOf {attached : List (Pin × List PinProcess)} {x : SignalId}
    (h : ∀ a ∈ attached, ∀ q ∈ a.2, x ∉ q.sinks) :
    Unwritten x (slotsOf attached : List (Slot (PinProcess ⊕ ρ))) := by
  intro slot hslot
  obtain ⟨a, ha, hslot⟩ := List.mem_flatMap.mp hslot
  exact unwritten_fresh (h a ha) slot hslot

/-- The processes of a pin write signals of that pin. -/
theorem Animated.sinks {signals : Arena Signal} {a : Pin × List PinProcess}
    (h : Animated signals a) : ∀ q ∈ a.2, ∀ x ∈ q.sinks, x ∈ a.1.ids := by
  obtain ⟨port, width, minted, hprocesses⟩ := h
  obtain ⟨ins, outs, hqs, sinks, -⟩ := Pin.processes_ok minted (a.1.crossing width)
  rwa [← Except.ok.inj (hqs.symm.trans hprocesses)]

/-- On a bench on which nothing has run, an attached pin has its signals to itself. -/
theorem Bench.Plugged.isolated {b : Bench ρ} {attached : List (Pin × List PinProcess)}
    (h : Plugged b attached) {p : Pin} (hp : p ∈ attached.map Prod.fst) :
    ∃ port width qs, Minted b.simulator.signals port width p ∧
      p.processes (p.crossing width) = .ok qs ∧ p.ids.Nodup ∧
      Isolated p.ids qs b.simulator.slots := by
  obtain ⟨⟨p, qs⟩, ha, rfl⟩ := List.mem_map.mp hp
  obtain ⟨port, width, minted, hprocesses⟩ := h.animated _ ha
  obtain ⟨xs, ys, rfl⟩ := List.mem_iff_append.mp ha
  have nodup := h.apart
  simp only [List.map_append, List.map_cons, List.flatMap_append, List.flatMap_cons,
    List.nodup_append, List.mem_append] at nodup
  obtain ⟨⟨-, ⟨own, -, right⟩, left⟩, -⟩ := nodup
  have owned : ∀ a ∈ xs ++ (p, qs) :: ys, ∀ q ∈ a.2, ∀ x ∈ q.sinks, x ∈ a.1.ids :=
    fun a ha => (h.animated a ha).sinks
  have listed : ∀ {zs : List (Pin × List PinProcess)} {a x}, a ∈ zs → x ∈ a.1.ids →
      x ∈ (zs.map Prod.fst).flatMap Pin.ids := fun ha hx =>
    List.mem_flatMap.mpr ⟨_, List.mem_map_of_mem ha, hx⟩
  refine ⟨port, width, qs, minted, hprocesses, own, slotsOf xs, slotsOf ys, ?_,
    fun x hx => ⟨?_, ?_⟩⟩
  · rw [h.slots, slotsOf_append]
    simp [slotsOf]
  · refine unwritten_slotsOf fun a ha q hq hsink => ?_
    exact left x (listed ha (owned a (by simp [ha]) q hq x hsink)) x (.inl hx) rfl
  · refine unwritten_slotsOf fun a ha q hq hsink => ?_
    exact right x hx x (listed ha (owned a (by simp [ha]) q hq x hsink)) rfl

namespace Pin

variable {p : Pin}

/-- Two roles have two signals, and neither is the port. -/
theorem ids_distinct (nodup : p.ids.Nodup) :
    (∀ {r id}, p.signal? r = some id → id ≠ p.port) ∧
      ∀ {r r' id id'}, p.signal? r = some id → p.signal? r' = some id' → r ≠ r' → id ≠ id' := by
  obtain ⟨hport, hvalues⟩ := List.nodup_cons.mp nodup
  refine ⟨fun h same => hport (same ▸ mem_values h), fun h h' hne same => hne ?_⟩
  exact congrArg Prod.fst
    (List.inj_on_of_nodup_map hvalues (Table.mem_of_get? h) (Table.mem_of_get? h') same)

end Pin

/-- The signals of a pin that a testbench leaves to it: what it samples into, and the
port if the pin drives it. -/
def Pin.spared (p : Pin) : List SignalId :=
  (p.signal? .i).toList ++ if p.direction.drives then [p.port] else []

namespace Bench.Plugged

variable {b : Bench ρ} {attached : List (Pin × List PinProcess)}

/-- A link on a bench on which nothing has run. -/
theorem poised (h : Plugged b attached) {l : Link}
    (linked : Linked l.source l.sink l.mask b.simulator.slots)
    (fed : Fed l.source b.simulator.slots l.feed)
    (source : ∃ x, b.simulator.signals.get? l.source = some x ∧ x.width = l.width)
    (sink : ∃ x, b.simulator.signals.get? l.sink = some x ∧ x.width = l.width) :
    l.Poised (value? b.simulator.signals l.source ≠ some 0) b.simulator := by
  have zero : ∀ {id}, (∃ x, b.simulator.signals.get? id = some x ∧ x.width = l.width) →
      value? b.simulator.signals id = some 0 := by
    rintro id ⟨x, hx, -⟩
    rw [value?, hx, Option.map_some, h.zero id x hx]
  have idle : ∀ id, id ∉ b.simulator.pending.keys := by simp [h.idle, Table.keys]
  refine ⟨⟨⟨?_, fun id x hx => ?_, ?_⟩, linked, fed, source, sink⟩, fun _ => idle _,
    .still (fun nonzero => nonzero (zero source)) (zero source) ?_⟩
  · simp [h.idle, Table.keys]
  · rw [h.zero id x hx]
    exact BitVec.zero_and
  · simp [h.idle, Table.get?]
  · rw [Simulator.next_of_notMem (idle _), zero sink]

/-- The links of a prepared pin at rate 0: from its port to its sample, where the port may
follow the pin in turn, and from what it drives to its port. -/
theorem links (h : Plugged b attached) {p : Pin} (hp : p ∈ attached.map Prod.fst)
    (hrate : p.rate = 0) : ∃ port width, Minted b.simulator.signals port width p ∧
      (p.direction.samples = true → ∃ i feed, p.signal? .i = some i ∧
        feed.isSome = p.direction.drives ∧
        (⟨p.port, i, width, p.invert, feed⟩ : Link).Poised
          (value? b.simulator.signals p.port ≠ some 0) b.simulator) ∧
      (p.direction.drives = true → ∃ o, p.signal? .o = some o ∧
        (⟨o, p.port, width, p.invert, none⟩ : Link).Poised
          (value? b.simulator.signals o ≠ some 0) b.simulator) := by
  obtain ⟨port, width, qs, minted, hprocesses, nodup, isolated⟩ := h.isolated hp
  obtain ⟨ins, outs, hqs, -, followers⟩ := Pin.processes_ok minted (p.crossing width)
  obtain ⟨hins, houts⟩ := followers hrate
  obtain rfl := Except.ok.inj (hqs.symm.trans hprocesses)
  obtain ⟨notPort, apart⟩ := Pin.ids_distinct nodup
  have portSized : Sized b.simulator.signals p.port width := minted.sized_port
  have sized : ∀ {r id}, p.signal? r = some id → r.isData = true →
      Sized b.simulator.signals id width := by
    intro r id hr data
    have sized := minted.sized hr
    rwa [Role.width, if_pos data] at sized
  refine ⟨port, width, minted, fun samples => ?_, fun drives => ?_⟩
  · rw [if_pos samples] at hins
    obtain ⟨i, hi, rfl⟩ := hins
    have linked : ∀ q ∈ outs, i ∉ q.sinks := by
      split at houts
      · obtain ⟨o, -, rfl⟩ := houts
        simpa [PinProcess.sinks] using notPort hi
      · simp [houts]
    have first : Isolated p.ids ([] ++ .follow p.port i (p.crossing width) :: outs)
        b.simulator.slots := isolated
    have follower := first.linked (Pin.mem_ids hi) (by simp) linked
    cases drives : p.direction.drives with
    | false =>
      rw [drives, if_neg Bool.false_ne_true] at houts
      subst houts
      have alone := isolated.unwritten p.port_mem_ids
        (by simpa [PinProcess.sinks] using (notPort hi).symm)
      exact ⟨i, none, hi, rfl, h.poised follower (.free alone) portSized (sized hi rfl)⟩
    | true =>
      rw [drives, if_pos rfl] at houts
      obtain ⟨o, ho, rfl⟩ := houts
      have driver := isolated.linked p.port_mem_ids
        (by simpa [PinProcess.sinks] using (notPort hi).symm) (by simp)
      have alone := isolated.unwritten (Pin.mem_ids ho) (by
        simpa [PinProcess.sinks] using ⟨apart ho hi (by decide), notPort ho⟩)
      exact ⟨i, some o, hi, rfl, h.poised follower (.follows driver alone) portSized (sized hi rfl)⟩
  · rw [if_pos drives] at houts
    obtain ⟨o, ho, rfl⟩ := houts
    have others : ∀ q ∈ ins, p.port ∉ q.sinks ∧ o ∉ q.sinks := by
      split at hins
      · obtain ⟨i, hi, rfl⟩ := hins
        simpa [PinProcess.sinks] using ⟨(notPort hi).symm, apart ho hi (by decide)⟩
      · simp [hins]
    have driver := isolated.linked p.port_mem_ids (fun q hq => (others q hq).1)
      (by simp)
    have alone := isolated.unwritten (Pin.mem_ids ho) (List.forall_mem_append.mpr
      ⟨fun q hq => (others q hq).2, by simpa [PinProcess.sinks] using notPort ho⟩)
    exact ⟨o, ho, h.poised driver (.free alone) (sized ho rfl) portSized⟩

end Bench.Plugged

end NetBridge.Simulation
