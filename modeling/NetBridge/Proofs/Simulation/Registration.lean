import Mathlib.Data.List.FinRange
import NetBridge.Proofs.Simulation.RateZero
import NetBridge.Proofs.Simulation.Session

/-! # The order of registration

Processes that share no signal to write may be registered in any order. The processes of
pins that a bench prepares are such: each pin has its signals to itself, and samples into
other signals than it drives. -/
namespace NetBridge.Simulation

namespace Simulator

variable {π : Type} [Coroutine π] {n : Nat} {s s' : Simulator π}

/-- Adds processes one after the other. -/
def register (s : Simulator π) (ps : List π) : Simulator π :=
  ps.foldl (fun s p => stateAfter (addProcess p) s) s

theorem register_eq (s : Simulator π) (ps : List π) : register s ps =
    { s with slots := s.slots ++ ps.map fun p => ⟨p, Coroutine.start p⟩ } := by
  induction ps generalizing s with
  | nil => simp [register]
  | cons p rest ih =>
    have added : stateAfter (addProcess p) s =
        { s with slots := s.slots ++ [⟨p, Coroutine.start p⟩] } := rfl
    rw [register, List.foldl_cons, added]
    refine (ih _).trans ?_
    simp

theorem register_twin {ι : Type} (s : Simulator π) (p : ι → π) (order order' : List ι) :
    Twin s.slots.length order order' (register s (order.map p)) (register s (order'.map p)) := by
  rw [register_eq, register_eq]
  exact ⟨rfl, .refl _, ⟨s.slots, fun i => ⟨p i, Coroutine.start (p i)⟩, rfl, by simp, by simp⟩, rfl,
    rfl⟩

/-- What a process spares it never writes, and it goes on sparing it. -/
def Confined (spares : SignalId → π → Prop) : Prop :=
  ∀ {id p read r}, spares id p → Coroutine.resume p read = some r →
    (∀ w ∈ r.writes, w.1 ≠ id) ∧ spares id r.process

/-- Of two slots one spares each signal. -/
def Apart (spares : SignalId → π → Prop) (slots : List (Slot π)) : Prop :=
  slots.Pairwise fun a b => ∀ id, spares id a.process ∨ spares id b.process

variable {spares : SignalId → π → Prop}

theorem Confined.woken (confined : Confined spares) {signals : Arena Signal}
    {changed : Table SignalId Word} {slot slot' : Slot π} {writes : List (SignalId × Word)}
    {id : SignalId} (h : Woken signals changed slot writes slot') (spared : spares id slot.process) :
    id ∉ Table.keys writes ∧ spares id slot'.process := by
  cases h with
  | asleep => exact ⟨List.not_mem_nil, spared⟩
  | awake _ hr =>
    obtain ⟨other, stays⟩ := confined spared hr
    refine ⟨fun hid => ?_, stays⟩
    obtain ⟨w, hw, rfl⟩ := List.mem_map.mp hid
    exact other w hw rfl

theorem Apart.singleWriters (confined : Confined spares) (apart : Apart spares (s.slots.drop n)) :
    s.SingleWriters n := by
  refine List.Pairwise.imp ?_ apart
  rintro a b apart id ⟨_, _, woken, hid⟩ ⟨_, _, woken', hid'⟩
  rcases apart id with spared | spared
  · exact (confined.woken woken spared).1 hid
  · exact (confined.woken woken' spared).1 hid'

/-- Every slot has its own successor. -/
theorem slots_of_delta (h : delta? s = some s') : ∃ g, s'.slots = s.slots.map g ∧
    ∀ slot ∈ s.slots, ∃ writes,
      Woken (commit s.signals s.pending) (changes s.signals s.pending) slot writes (g slot) := by
  rw [delta?_eq, wake_eq] at h
  rcases mapM_perm (List.Perm.refl s.slots)
      (advance (commit s.signals s.pending) (changes s.signals s.pending)) (fun slot => ([], slot)) with
    ⟨fails, -⟩ | ⟨g, advances, steps, -⟩
  · rw [fails] at h
    cases h
  · rw [steps, Option.bind_some, Option.map_map, Option.map_eq_some_iff] at h
    obtain ⟨q, -, rfl⟩ := h
    exact ⟨Prod.snd ∘ g, by simp, fun slot hslot => ⟨_, advance_eq_some.mp (advances slot hslot)⟩⟩

theorem Apart.delta (confined : Confined spares) (apart : Apart spares (s.slots.drop n))
    (h : delta? s = some s') : Apart spares (s'.slots.drop n) := by
  obtain ⟨g, hg, woken⟩ := slots_of_delta h
  rw [hg, ← List.map_drop, Apart, List.pairwise_map]
  refine apart.imp_of_mem fun {a b} ha hb apart id => ?_
  obtain ⟨_, wokenA⟩ := woken a (List.mem_of_mem_drop ha)
  obtain ⟨_, wokenB⟩ := woken b (List.mem_of_mem_drop hb)
  exact (apart id).imp (fun h => (confined.woken wokenA h).2) fun h => (confined.woken wokenB h).2

section Throughout

variable {P : List (Slot π) → Prop}

/-- What a delta cycle preserves of the processes holds whenever one begins. -/
theorem cycles_preserve (step : ∀ s s' : Simulator π, P s.slots → delta? s = some s' → P s'.slots)
    {budget : Nat} (h : P s.slots) : ∀ t ∈ cycles budget s, P t.slots := by
  induction budget generalizing s with
  | zero => simp [cycles]
  | succ budget ih =>
    rw [cycles]
    split
    · simp
    · refine List.forall_mem_cons.mpr ⟨h, ?_⟩
      cases hd : delta? s with
      | none => simp
      | some t => exact ih (step s t h hd)

theorem begun_preserve
    (step : ∀ s s' : Simulator π, P s.slots → delta? s = some s' → P s'.slots)
    {rounds : List (List (SignalId × Word))} (h : P s.slots) : ∀ t ∈ begun s rounds, P t.slots := by
  induction rounds generalizing s with
  | nil => simp [begun]
  | cons ws rest ih =>
    have written : P (ws.foldl write s).slots := by rwa [writes_eq]
    exact List.forall_mem_append.mpr
      ⟨cycles_preserve step written, ih (settle_preserves step written)⟩

end Throughout

/-- Processes that keep to signals of their own never write to one signal. -/
theorem Confined.singleWriters (confined : Confined spares) (apart : Apart spares (s.slots.drop n))
    (rounds : List (List (SignalId × Word))) : ∀ t ∈ begun s rounds, t.SingleWriters n :=
  fun t ht => Apart.singleWriters confined <|
    begun_preserve (P := fun slots => Apart spares (slots.drop n))
      (fun _ _ apart hd => apart.delta confined hd) apart t ht

end Simulator

/-- Of two processes of pins one does not write a given signal. -/
def Separate (q q' : PinProcess) : Prop := ∀ id, id ∉ q.sinks ∨ id ∉ q'.sinks

/-- An input writes signals of roles and an output the port. -/
theorem Pin.processes_separate {p : Pin} {signals : Arena Signal} {port : String} {width : Nat}
    (minted : Minted signals port width p) (nodup : p.ids.Nodup) {mask : Word}
    {qs : List PinProcess} (h : p.processes mask = .ok qs) : qs.Pairwise Separate := by
  have inputs : ∃ ins, (if p.direction.samples then ∃ q, p.inputProcess mask = .ok q ∧ ins = [q]
      else ins = []) ∧ ins.Pairwise Separate ∧ ∀ q ∈ ins, ∀ x ∈ q.sinks, x ∈ p.signals.values := by
    split
    · rename_i samples
      obtain ⟨q, hq, sinks, -⟩ := inputProcess_ok minted samples mask
      exact ⟨[q], ⟨q, hq, rfl⟩, List.pairwise_singleton _ _, List.forall_mem_singleton.mpr sinks⟩
    · exact ⟨[], rfl, .nil, by simp⟩
  have outputs : ∃ outs, (if p.direction.drives then ∃ q, p.outputProcess mask = .ok q ∧ outs = [q]
      else outs = []) ∧ outs.Pairwise Separate ∧ ∀ q ∈ outs, q.sinks = [p.port] := by
    split
    · rename_i drives
      obtain ⟨q, hq, sinks, -⟩ := outputProcess_ok minted drives mask
      exact ⟨[q], ⟨q, hq, rfl⟩, List.pairwise_singleton _ _, List.forall_mem_singleton.mpr sinks⟩
    · exact ⟨[], rfl, .nil, by simp⟩
  obtain ⟨ins, hins, insApart, sampled⟩ := inputs
  obtain ⟨outs, houts, outsApart, driven⟩ := outputs
  obtain rfl := Except.ok.inj ((processes_eq hins houts).symm.trans h)
  refine List.pairwise_append.mpr ⟨insApart, outsApart, fun q hq q' hq' id => ?_⟩
  by_cases port : id = p.port
  · exact .inl fun hid => (List.nodup_cons.mp nodup).1 (port ▸ sampled q hq id hid)
  · exact .inr (by simpa [driven q' hq'] using port)

/-- Two pins that have no signal in common have processes that write different signals. -/
theorem separate_of_animated {signals : Arena Signal} {attached : List (Pin × List PinProcess)}
    (animated : ∀ a ∈ attached, Animated signals a)
    (nodup : ((attached.map Prod.fst).flatMap Pin.ids).Nodup) :
    (attached.flatMap Prod.snd).Pairwise Separate := by
  rw [List.nodup_flatMap, List.pairwise_map] at nodup
  obtain ⟨own, disjoint⟩ := nodup
  refine List.pairwise_flatMap.mpr ⟨fun a ha => ?_, disjoint.imp_of_mem ?_⟩
  · obtain ⟨port, width, minted, hprocesses⟩ := animated a ha
    exact a.1.processes_separate minted (own _ (List.mem_map_of_mem ha)) hprocesses
  · intro a a' ha ha' disjoint q hq q' hq' id
    by_cases hid : id ∈ q.sinks
    · exact .inr fun hid' => disjoint ((animated a ha).sinks q hq id hid)
        ((animated a' ha').sinks q' hq' id hid')
    · exact .inl hid

variable {ρ : Type}

variable [Coroutine ρ]

theorem Spares.confined : Simulator.Confined (Spares (ρ := ρ)) := fun spared hr => spared.resume hr

/-- A preparation registers processes that write different signals. -/
theorem Bench.Plugged.prepare_registers {b : Bench ρ} {attached : List (Pin × List PinProcess)}
    (h : Plugged b attached) {s : Simulator (PinProcess ⊕ ρ)}
    (retains : Retains b.simulator.signals s.signals) :
    ∃ (n : Nat) (qs : List PinProcess), qs.Pairwise Separate ∧
      Bench.prepare { b with simulator := s } =
        .ok n { b with simulator := s.register (qs.map .inl), waiting := [] } := by
  have minted : ∀ p ∈ b.waiting, ∃ port width, Minted s.signals port width p := by
    intro p hp
    obtain ⟨port, width, minted⟩ := h.waiting p hp
    exact ⟨port, width, minted.retained retains⟩
  obtain ⟨n, added, hpins, animated, hrun⟩ := Bench.prepare_ok (b := { b with simulator := s }) minted
  have registered : s.register ((added.flatMap Prod.snd).map Sum.inl) =
      { s with slots := s.slots ++ slotsOf added } := by
    rw [Simulator.register_eq, slotsOf, List.map_map, List.map_flatMap]
    rfl
  refine ⟨n, added.flatMap Prod.snd, separate_of_animated animated ?_, ?_⟩
  · rw [hpins]
    have apart := h.apart
    rw [List.flatMap_append, List.nodup_append] at apart
    exact apart.2.1
  · rw [registered]
    exact hrun

namespace Simulator

/-- Slots of processes that write different signals. -/
theorem apart_of_separate {qs : List PinProcess} (h : qs.Pairwise Separate)
    (s : Simulator (PinProcess ⊕ ρ)) :
    Apart Spares ((s.register (qs.map .inl)).slots.drop s.slots.length) := by
  rw [register_eq, List.drop_left, Apart, List.pairwise_map, List.pairwise_map]
  exact h

/-- With the processes registered in either of the orders, every settling of a run comes to
the same. -/
def RunsAlike {ι π : Type} [Coroutine π] (s : Simulator π) (p : ι → π) (order order' : List ι)
    (rounds rounds' : List (List (SignalId × Word))) : Prop :=
  List.Forall₂ (Settled s.slots.length order order') (settlings (s.register (order.map p)) rounds)
    (settlings (s.register (order'.map p)) rounds')

/-- The order in which processes are registered, and the order in which a testbench writes to
different signals before a settling, cannot be told from what the settlings of a run come to,
unless two of the processes write to one signal in one of its delta cycles. Whatever pins a
bench prepares, their processes never do. -/
theorem registration_order_is_invisible :
    (∀ {ι π : Type} [Coroutine π] (s : Simulator π) (p : ι → π) {order order' : List ι}
      {rounds rounds' : List (List (SignalId × Word))},
      order.Perm order' → List.Forall₂ Shuffled rounds rounds' →
      (∀ t ∈ begun (s.register (order.map p)) rounds, t.SingleWriters s.slots.length) →
      RunsAlike s p order order' rounds rounds') ∧
    ∀ {ρ : Type} [Coroutine ρ] (board : Board) (maxDeltas : Nat) (actions : List Bench.Action)
      (s : Simulator (PinProcess ⊕ ρ)),
      let b := Bench.run actions ({ board, simulator := { maxDeltas } } : Bench ρ)
      Retains b.simulator.signals s.signals →
      ∃ (n : Nat) (qs : List PinProcess), Bench.prepare { b with simulator := s } =
          .ok n { b with simulator := s.register (qs.map .inl), waiting := [] } ∧
        ∀ {ι : Type} (p : ι → PinProcess ⊕ ρ) {order order' : List ι}
          {rounds rounds' : List (List (SignalId × Word))},
          order.map p = qs.map .inl → order.Perm order' → List.Forall₂ Shuffled rounds rounds' →
          RunsAlike s p order order' rounds rounds' := by
  constructor
  · intro ι π _ s p order order' rounds rounds' perm shuffled single
    exact (register_twin s p order order').settlings perm shuffled single
  · intro ρ _ board maxDeltas actions s b retains
    obtain ⟨attached, plugged, -⟩ := (Bench.Plugged.fresh (ρ := ρ) board maxDeltas).run actions
    obtain ⟨n, qs, separate, prepared⟩ := plugged.prepare_registers retains
    refine ⟨n, qs, prepared, ?_⟩
    intro ι p order order' rounds rounds' names perm shuffled
    refine (register_twin s p order order').settlings perm shuffled ?_
    rw [names]
    exact Spares.confined.singleWriters (apart_of_separate separate s) rounds

/-- Two sources and two sinks. -/
def fourSignals : Simulator (PinProcess ⊕ PinProcess) where
  signals := ⟨#[⟨"a", 8, 0⟩, ⟨"b", 8, 0⟩, ⟨"c", 8, 0⟩, ⟨"d", 8, 0⟩]⟩

/-- One follows `a` into `c`, the other one `b` into `d`. -/
def twoFollowers : Bool → PinProcess ⊕ PinProcess
  | false => .inl (.follow ⟨0⟩ ⟨2⟩ 0)
  | true => .inl (.follow ⟨1⟩ ⟨3⟩ 0)

def pmodBench : Bench PinProcess where
  board := { resources := [⟨"pmod", none, .mk (some 1) true []⟩] }

theorem two_followers_in_either_order :
    ([false, true].Perm [true, false] ∧
      List.Forall₂ Shuffled [[(⟨0⟩, 5), (⟨1⟩, 7)]] [[(⟨1⟩, 7), (⟨0⟩, 5)]] ∧
      (∀ t ∈ begun (fourSignals.register ([false, true].map twoFollowers)) [[(⟨0⟩, 5), (⟨1⟩, 7)]],
        t.SingleWriters 0) ∧
      RunsAlike fourSignals twoFollowers [false, true] [true, false]
        [[(⟨0⟩, 5), (⟨1⟩, 7)]] [[(⟨1⟩, 7), (⟨0⟩, 5)]]) ∧
    let b := Bench.run [.request "pmod" none none none] pmodBench
    b.waiting.length = 1 ∧ Retains b.simulator.signals b.simulator.signals ∧
      ∃ (n : Nat) (qs : List PinProcess), Bench.prepare b =
          .ok n { b with simulator := b.simulator.register (qs.map .inl), waiting := [] } ∧
        RunsAlike b.simulator (Sum.inl ∘ qs.get) (List.finRange qs.length)
          (List.finRange qs.length).reverse [[(⟨0⟩, 1)]] [[(⟨0⟩, 1)]] := by
  have separate : [PinProcess.follow ⟨0⟩ ⟨2⟩ 0, .follow ⟨1⟩ ⟨3⟩ 0].Pairwise Separate := by
    refine List.pairwise_pair.mpr fun id => ?_
    by_cases h : id = ⟨2⟩
    · exact .inr (by simp [PinProcess.sinks, h])
    · exact .inl (by simp [PinProcess.sinks, h])
  have perm : [false, true].Perm [true, false] := .swap true false []
  have shuffled : List.Forall₂ Shuffled [[(⟨0⟩, 5), (⟨1⟩, 7)]] [[(⟨1⟩, 7), (⟨0⟩, 5)]] :=
    .cons ⟨.swap _ _ [], by decide⟩ .nil
  have single := Spares.confined.singleWriters (apart_of_separate separate fourSignals)
    [[(⟨0⟩, 5), (⟨1⟩, 7)]]
  refine ⟨⟨perm, shuffled, single, ?_⟩, ?_⟩
  · exact registration_order_is_invisible.1 fourSignals twoFollowers perm shuffled single
  · have retains : Retains (Bench.run [.request "pmod" none none none] pmodBench).simulator.signals
        (Bench.run [.request "pmod" none none none] pmodBench).simulator.signals :=
      fun _ x h => ⟨x.value, h⟩
    obtain ⟨n, qs, prepared, alike⟩ := registration_order_is_invisible.2 pmodBench.board 1000
      [.request "pmod" none none none] _ retains
    have named : (List.finRange qs.length).map (Sum.inl ∘ qs.get) =
        qs.map (Sum.inl : _ → PinProcess ⊕ PinProcess) := by
      rw [← List.map_map, List.map_get_finRange]
    exact ⟨by decide, retains, n, qs, prepared, alike (Sum.inl ∘ qs.get) named
      (List.reverse_perm _).symm (.cons ⟨.refl _, by decide⟩ .nil)⟩

/-- Two followers of different signals into `c`: the last one that writes wins. -/
example :
    let left : PinProcess ⊕ PinProcess := .inl (.follow ⟨0⟩ ⟨2⟩ 0)
    let right : PinProcess ⊕ PinProcess := .inl (.follow ⟨1⟩ ⟨2⟩ 0)
    let shown := fun ps => value? (stateAfter settle
      ([(⟨0⟩, 5), (⟨1⟩, 7)].foldl write (fourSignals.register ps))).signals ⟨2⟩
    shown [left, right] = some 7 ∧ shown [right, left] = some 5 := by
  decide +kernel

end Simulator

end NetBridge.Simulation
