import NetBridge.Proofs.Simulation.Registration
import NetBridge.Proofs.Simulation.Session

/-! # One process through a session

A process that a preparation adds is followed from there on. In a delta cycle it wakes or
it does not, and then its writes wait; whatever else happens to the bench leaves it as it is
and its signals too, unless the testbench or a process from outside writes them. -/
namespace NetBridge.Simulation

open Simulator (Regular Woken changes commit delta? delta?_eq_some fires next next_of_notMem queue
  queue_spares value? value?_commit wake wake_cons wake_quiet)

variable {ρ : Type}

/-- A write of the value waits, cut to the width of the signal. -/
def Queued (s : Simulator (PinProcess ⊕ ρ)) (id : SignalId) (v : Word) : Prop :=
  ∃ x, s.signals.get? id = some x ∧ Table.get? s.pending id = some (v &&& x.mask)

/-- A delta cycle as one process of a pin sees it. -/
inductive Turn (q : PinProcess) (s s' : Simulator (PinProcess ⊕ ρ)) : PinProcess → Prop
  | asleep : fires (commit s.signals s.pending) (changes s.signals s.pending) q.wait = false →
    (∀ x ∈ q.sinks, x ∉ s'.pending.keys) → Turn q s s' q
  | awake {r : Resumption PinProcess} :
    fires (commit s.signals s.pending) (changes s.signals s.pending) q.wait = true →
    q.resume (next s) = some r →
    (∀ w ∈ r.writes, Queued s' w.1 w.2) →
    (∀ x ∈ q.sinks, x ∉ Table.keys r.writes → x ∉ s'.pending.keys) → Turn q s s' r.process

/-- The signals are still there, and what waits for the sinks of the process is the same. -/
structure Steady (q : PinProcess) (s s' : Simulator (PinProcess ⊕ ρ)) : Prop where
  grown : s.signals.Extends s'.signals
  sinks : ∀ x ∈ q.sinks, Table.get? s'.pending x = Table.get? s.pending x

/-- No process of a pin writes the signal. -/
def Unclaimed (x : SignalId) (slots : List (Slot (PinProcess ⊕ ρ))) : Prop :=
  ∀ slot ∈ slots, ∀ q, slot.process = .inl q → x ∉ q.sinks

/-- The process has a slot, and no other process of a pin writes its sinks. -/
def Seated (q : PinProcess) (slots : List (Slot (PinProcess ⊕ ρ))) : Prop :=
  ∃ before after, slots = before ++ ⟨.inl q, q.wait⟩ :: after ∧
    ∀ x ∈ q.sinks, Unclaimed x before ∧ Unclaimed x after

theorem Seated.append {q : PinProcess} {slots more : List (Slot (PinProcess ⊕ ρ))}
    (h : Seated q slots) (unclaimed : ∀ x ∈ q.sinks, Unclaimed x more) : Seated q (slots ++ more) := by
  obtain ⟨before, after, rfl, apart⟩ := h
  refine ⟨before, after ++ more, by simp, fun x hx => ?_⟩
  obtain ⟨left, right⟩ := apart x hx
  exact ⟨left, List.forall_mem_append.mpr ⟨right, unclaimed x hx⟩⟩

namespace Simulator

/-- Writes to different signals all wait, each cut to the width of its signal. -/
theorem queue_each {signals : Arena Signal} {pending pending' : Table SignalId Word}
    {writes : List (SignalId × Word)} (nodup : (Table.keys writes).Nodup)
    (h : queue signals pending writes = some pending') : ∀ w ∈ writes, ∃ x,
      signals.get? w.1 = some x ∧ Table.get? pending' w.1 = some (w.2 &&& x.mask) := by
  induction writes generalizing pending with
  | nil => simp
  | cons w rest ih =>
    obtain ⟨absent, nodup⟩ := List.nodup_cons.mp nodup
    rw [queue, Option.bind_eq_bind, Option.bind_eq_some_iff] at h
    obtain ⟨x, hx, h⟩ := h
    refine List.forall_mem_cons.mpr ⟨⟨x, hx, ?_⟩, ih nodup h⟩
    rw [queue_spares h fun w' hw' same => absent (List.mem_map.mpr ⟨w', hw', same⟩),
      Table.get?_set, if_pos rfl]

variable {π : Type} [Coroutine π]

/-- Waking some processes and then others. -/
theorem wake_append {signals : Arena Signal} {changed pending pending' : Table SignalId Word}
    {xs ys slots : List (Slot π)}
    (h : wake signals changed pending (xs ++ ys) = some (pending', slots)) :
    ∃ queued xs' ys', wake signals changed pending xs = some (queued, xs') ∧
      wake signals changed queued ys = some (pending', ys') ∧ slots = xs' ++ ys' := by
  induction xs generalizing pending slots with
  | nil => exact ⟨pending, [], slots, rfl, h, rfl⟩
  | cons slot rest ih =>
    obtain ⟨writes, slot', queued, rest', woken, hq, hrest, rfl⟩ := wake_cons h
    obtain ⟨queued', xs', ys', hxs, hys, rfl⟩ := ih hrest
    refine ⟨queued', slot' :: xs', ys', ?_, hys, rfl⟩
    rw [wake_step, advance_eq_some.mpr woken, Option.bind_some, hq, Option.bind_some, hxs]
    rfl

variable [Coroutine ρ]

/-- In the delta cycle that begins no process from outside writes the signals. -/
def SparedOutside (ids : List SignalId) (s : Simulator (PinProcess ⊕ ρ)) : Prop :=
  ∀ slot ∈ s.slots, ∀ r, slot.process = .inr r → ∀ id ∈ ids, ¬ WritesTo s slot id

end Simulator

open Simulator (SparedOutside WritesTo queue_each wake_append)

variable {s s' : Simulator (PinProcess ⊕ ρ)} {q q' : PinProcess} {x : SignalId}

theorem next_of_delta [Coroutine ρ] (regular : Regular s.signals s.pending) (hd : delta? s = some s')
    (x : SignalId) : value? s'.signals x = next s x := by
  obtain ⟨pending, slots, -, rfl⟩ := delta?_eq_some hd
  exact value?_commit s regular.nodup x

namespace Unclaimed

variable [Coroutine ρ] {signals : Arena Signal} {changed pending pending' : Table SignalId Word}
  {slots slots' : List (Slot (PinProcess ⊕ ρ))}

theorem wake (h : Unclaimed x slots)
    (hw : wake signals changed pending slots = some (pending', slots')) : Unclaimed x slots' := by
  refine Simulator.wake_forall
    (Q := fun slot : Slot (PinProcess ⊕ ρ) => ∀ q, slot.process = .inl q → x ∉ q.sinks)
    (fun slot writes slot' unclaimed woken => ?_) hw h
  intro q' hq'
  obtain ⟨q, hq⟩ := pin_of_woken woken hq'
  rcases woken_pin woken hq with ⟨-, -, rfl⟩ | ⟨r, -, hr, -, rfl⟩
  · exact unclaimed q' hq'
  · obtain rfl := Sum.inl.inj hq'
    rw [(PinProcess.resume_sinks hr).2]
    exact unclaimed q hq

/-- A signal gets no write if no process of a pin claims it and those from outside spare it. -/
theorem quiet {ids : List SignalId} (spared : SparedOutside ids s) (hx : x ∈ ids)
    (h : Unclaimed x slots) (sub : slots ⊆ s.slots)
    (hw : Simulator.wake (commit s.signals s.pending) (changes s.signals s.pending) pending slots =
      some (pending', slots')) : Table.get? pending' x = Table.get? pending x := by
  refine wake_quiet (fun slot hslot writes slot' woken hmem => ?_) hw
  cases hp : slot.process with
  | inr r => exact spared slot (sub hslot) r hp x hx ⟨writes, slot', woken, hmem⟩
  | inl q =>
    rcases woken_pin woken hp with ⟨-, rfl, -⟩ | ⟨r, -, hr, rfl, -⟩
    · cases hmem
    · obtain ⟨w, hw, rfl⟩ := List.mem_map.mp hmem
      exact h slot hslot q hp ((PinProcess.resume_sinks hr).1 w hw)

end Unclaimed

/-- In a delta cycle a seated process has its turn and keeps its seat. -/
theorem Seated.delta [Coroutine ρ] (h : Seated q s.slots) (nodup : q.sinks.Nodup)
    (regular : Regular s.signals s.pending) (spared : SparedOutside q.sinks s)
    (hd : delta? s = some s') : ∃ q', Turn q s s' q' ∧ Seated q' s'.slots := by
  obtain ⟨before, after, hslots, apart⟩ := h
  obtain ⟨pending, slots, hw, rfl⟩ := delta?_eq_some hd
  rw [hslots] at hw
  obtain ⟨queued, before', slots', hbefore, hrest, rfl⟩ := wake_append hw
  obtain ⟨writes, slot, queued', after', woken, hq, hafter, rfl⟩ := wake_cons hrest
  -- What waits for the sinks in the end is what the process itself has queued, since the slots
  -- before it and after it leave them alone.
  have first : ∀ x ∈ q.sinks, Table.get? queued x = none := fun x hx =>
    ((apart x hx).1.quiet spared hx (by simp [hslots]) hbefore).trans rfl
  have last : ∀ x ∈ q.sinks, Table.get? pending x = Table.get? queued' x := fun x hx =>
    (apart x hx).2.quiet spared hx (by simp [hslots]) hafter
  have others : ∀ x ∈ q.sinks, Unclaimed x before' ∧ Unclaimed x after' := fun x hx =>
    ⟨(apart x hx).1.wake hbefore, (apart x hx).2.wake hafter⟩
  rcases woken_pin woken rfl with ⟨quiet, rfl, rfl⟩ | ⟨r, fired, hr, rfl, rfl⟩
  · obtain rfl := Option.some.inj hq
    refine ⟨q, .asleep quiet fun x hx => ?_, before', after', rfl, others⟩
    exact Table.get?_eq_none_iff.mp ((last x hx).trans (first x hx))
  · obtain ⟨-, sinks, hwait, keys⟩ := PinProcess.resume_keeps hr
    have writes : ∀ w ∈ r.writes, w.1 ∈ q.sinks := (PinProcess.resume_sinks hr).1
    have reads : value? (commit s.signals s.pending) = next s := funext (value?_commit s regular.nodup)
    rw [reads] at hr
    refine ⟨r.process, .awake fired hr (fun w hw => ?_) (fun x hx absent => ?_), before', after', ?_, ?_⟩
    · have each : (Table.keys r.writes).Nodup := by
        rcases keys with keys | keys <;> rw [keys]
        · exact nodup
        · exact List.nodup_nil
      obtain ⟨y, hy, queued⟩ := queue_each each hq w hw
      exact ⟨y, hy, (last w.1 (writes w hw)).trans queued⟩
    · refine Table.get?_eq_none_iff.mp ((last x hx).trans ?_)
      rw [queue_spares hq fun w hw same => absent (List.mem_map.mpr ⟨w, hw, same⟩)]
      exact first x hx
    · rw [← hwait]
    · rw [sinks]
      exact others

/-- What becomes of a process of a pin, with the delta cycles so far. -/
inductive Traced [Coroutine ρ] (q₀ : PinProcess) (s₀ : Simulator (PinProcess ⊕ ρ)) :
    List (Simulator (PinProcess ⊕ ρ)) → PinProcess → Simulator (PinProcess ⊕ ρ) → Prop
  | start : Traced q₀ s₀ [] q₀ s₀
  | idle {cs : List (Simulator (PinProcess ⊕ ρ))} {q : PinProcess} {s s' : Simulator (PinProcess ⊕ ρ)} :
    Traced q₀ s₀ cs q s → Steady q s s' → Traced q₀ s₀ cs q s'
  | turn {cs : List (Simulator (PinProcess ⊕ ρ))} {q q' : PinProcess}
    {s s' : Simulator (PinProcess ⊕ ρ)} : Traced q₀ s₀ cs q s → Regular s.signals s.pending →
    delta? s = some s' → Turn q s s' q' → Traced q₀ s₀ (cs ++ [s]) q' s'

section Tracing

variable [Coroutine ρ] {q₀ : PinProcess} {s₀ : Simulator (PinProcess ⊕ ρ)}
  {cs : List (Simulator (PinProcess ⊕ ρ))}

/-- A process of an attached pin, in its seat, and what has become of it so far. -/
structure Tracked (p : Pin) (q₀ : PinProcess) (s₀ : Simulator (PinProcess ⊕ ρ))
    (attached waiting : List Pin) (cs : List (Simulator (PinProcess ⊕ ρ))) (q : PinProcess)
    (s : Simulator (PinProcess ⊕ ρ)) : Prop where
  fitted : Fitted s attached waiting
  mem : p ∈ attached
  runs : p.Runs q
  seated : Seated q s.slots
  sinks : q.sinks = q₀.sinks
  traced : Traced q₀ s₀ cs q s

namespace Tracked

variable {p : Pin} {attached attached' waiting waiting' : List Pin}

omit [Coroutine ρ] in
theorem nodup_sinks (fitted : Fitted s attached waiting) (hp : p ∈ attached) (runs : p.Runs q) :
    q.sinks.Nodup := by
  obtain ⟨-, distinct⟩ := Pin.ids_distinct (Pin.nodup_ids fitted.attached_apart hp)
  cases runs with
  | doubleInput _ hi0 hi1 => simpa [PinProcess.sinks] using distinct hi0 hi1 (by decide)
  | _ => exact List.nodup_singleton _

theorem delta (h : Tracked p q₀ s₀ attached waiting cs q s) (spared : SparedOutside q₀.sinks s)
    (hd : delta? s = some s') : ∃ q', Tracked p q₀ s₀ attached waiting (cs ++ [s]) q' s' := by
  have regular := h.fitted.regular
  rw [← h.sinks] at spared
  obtain ⟨q', turn, seated⟩ := h.seated.delta (nodup_sinks h.fitted h.mem h.runs) regular spared hd
  have stays : p.Runs q' ∧ q'.sinks = q.sinks := by
    cases turn with
    | asleep => exact ⟨h.runs, rfl⟩
    | awake _ resumed =>
      obtain ⟨port, width, minted⟩ := h.fitted.minted p (List.mem_append_left _ h.mem)
      have reads := (minted.retained (retains_commit regular)).reads
      rw [funext (value?_commit s regular.nodup)] at reads
      obtain ⟨r, hr, stays⟩ := h.runs.resume reads
      obtain rfl := Option.some.inj (hr.symm.trans resumed)
      exact ⟨stays, (PinProcess.resume_keeps hr).2.1⟩
  exact ⟨q', h.fitted.delta hd, h.mem, stays.1, seated, stays.2.trans h.sinks,
    .turn h.traced regular hd turn⟩

theorem steady (h : Tracked p q₀ s₀ attached waiting cs q s) (fitted : Fitted s' attached' waiting')
    (hp : p ∈ attached') (seated : Seated q s'.slots) (steady : Steady q s s') :
    Tracked p q₀ s₀ attached' waiting' cs q s' :=
  ⟨fitted, hp, h.runs, seated, h.sinks, .idle h.traced steady⟩

/-- A settling is traced through all its delta cycles, whether it fails or not. -/
theorem settle (h : Tracked p q₀ s₀ attached waiting cs q s)
    (spared : ∀ t ∈ s.commits s.maxDeltas, SparedOutside q₀.sinks t) :
    ∃ q', Tracked p q₀ s₀ attached waiting (cs ++ s.commits s.maxDeltas) q'
      (stateAfter Simulator.settle s) := by
  refine Simulator.settle_traced (P := fun cs s => ∃ q, Tracked p q₀ s₀ attached waiting cs q s)
    (fun _ _ _ ⟨_, h⟩ spared hd => h.delta spared hd) (fun cs s n ⟨q, h⟩ => ?_) cs ⟨q, h⟩ spared
  obtain ⟨regular, minted, apart, owned⟩ := h.fitted
  exact ⟨q, h.steady ⟨regular, minted, apart, owned⟩ h.mem h.seated ⟨.refl _, fun _ _ => rfl⟩⟩

end Tracked

end Tracing

namespace Bench

variable [Coroutine ρ]

/-- Delta cycles are run by settlings only. -/
theorem Event.log_of_ne {e : Event ρ} {b : Bench ρ} (h : e ≠ .settle) : e.log b = [] := by
  cases e <;> first | rfl | exact absurd rfl h

/-- The testbench writes none of the signals while the events happen, and neither does a
process from outside. -/
structure LeftAlone (ids : List SignalId) (events : List (Event ρ)) (b : Bench ρ) : Prop where
  writes : ∀ id ∈ ids, ∀ v, ∀ e ∈ events, e ≠ .write id v
  processes : ∀ t ∈ log events b, SparedOutside ids t

theorem LeftAlone.mono {ids ids' : List SignalId} {events : List (Event ρ)} {b : Bench ρ}
    (h : LeftAlone ids events b) (sub : ids' ⊆ ids) : LeftAlone ids' events b where
  writes id hid := h.writes id (sub hid)
  processes t ht slot hslot r hr id hid := h.processes t ht slot hslot r hr id (sub hid)

theorem log_alone {b : Bench ρ} {attached : List Pin} (fitted : Fitted b.simulator attached b.waiting)
    (alone : Alone b.simulator.slots) {events : List (Event ρ)}
    (noneJoins : ∀ e ∈ events, ∀ r, e ≠ .join r) : ∀ t ∈ log events b, Alone t.slots := by
  induction events generalizing b attached with
  | nil => simp [log]
  | cons e rest ih =>
    obtain ⟨first, others⟩ := List.forall_mem_cons.mp noneJoins
    have effect := effect (fun p hp => fitted.minted p (List.mem_append_right _ hp)) e
    obtain ⟨more, fitted'⟩ := effect.fitted fitted
    refine List.forall_mem_append.mpr ⟨fun t ht => ?_, ih fitted' (effect.alone first alone) others⟩
    cases e with
    | settle =>
      exact Simulator.cycles_preserve (P := Alone) (fun _ _ alone hd => alone.delta hd) alone t
        (Simulator.commits_subset _ _ ht)
    | _ => cases ht

/-- Where no process joins, it is enough that the testbench does not write. -/
theorem LeftAlone.of_noneJoins {board : Board} {events later : List (Event ρ)} {ids : List SignalId}
    (noneJoins : ∀ e ∈ events ++ later, ∀ r, e ≠ .join r)
    (writes : ∀ id ∈ ids, ∀ v, ∀ e ∈ later, e ≠ .write id v) :
    LeftAlone ids later (play events { board }) where
  writes := writes
  processes t ht slot hslot r hr := by
    obtain ⟨before, after⟩ := List.forall_mem_append.mp noneJoins
    obtain ⟨attached, fitted⟩ := fitted_play (fitted_fresh board) events
    obtain ⟨q, hq⟩ := log_alone fitted (alone_play board before) after t ht slot hslot
    rw [hr] at hq
    cases hq

theorem Effect.tracked {p : Pin} {q₀ : PinProcess} {s₀ : Simulator (PinProcess ⊕ ρ)}
    {attached : List Pin} {cs : List (Simulator (PinProcess ⊕ ρ))} {b b' : Bench ρ} {e : Event ρ}
    (effect : Effect b e b') (h : Tracked p q₀ s₀ attached b.waiting cs q b.simulator)
    (writes : ∀ id ∈ q₀.sinks, ∀ v, e ≠ .write id v)
    (spared : ∀ t ∈ e.log b, SparedOutside q₀.sinks t) :
    ∃ attached' q', Tracked p q₀ s₀ attached' b'.waiting (cs ++ e.log b) q' b'.simulator := by
  obtain ⟨more, fitted⟩ := effect.fitted h.fitted
  have hp : p ∈ attached ++ more := List.mem_append_left _ h.mem
  have claims : ∀ x ∈ q.sinks, x ∈ attached.flatMap Pin.ids := fun x hx =>
    List.mem_flatMap.mpr ⟨p, h.mem, h.runs.sinks x hx⟩
  cases effect with
  | grow pins _ added =>
    have slots : Seated q b'.simulator.slots := by
      rw [added.only]
      exact h.seated
    have pending : b'.simulator.pending = b.simulator.pending := by rw [added.only]
    rw [Event.log_of_ne (by simp), List.append_nil]
    exact ⟨_, q, h.steady fitted hp slots ⟨added.adds.grown, fun x _ => by rw [pending]⟩⟩
  | attach added pins animated =>
    have unclaimed : ∀ x ∈ q.sinks, Unclaimed x (slotsOf added : List (Slot (PinProcess ⊕ ρ))) := by
      intro x hx slot hslot q' hq' hx'
      obtain ⟨a, ha, hslot⟩ := List.mem_flatMap.mp hslot
      obtain ⟨q'', hq'', rfl⟩ := List.mem_map.mp hslot
      obtain rfl := Sum.inl.inj hq'
      have apart := h.fitted.apart
      rw [List.flatMap_append, List.nodup_append] at apart
      refine apart.2.2 x (claims x hx) x (List.mem_flatMap.mpr ⟨a.1, ?_, ?_⟩) rfl
      · rw [← pins]
        exact List.mem_map_of_mem ha
      · exact (animated a ha).sinks _ hq'' x hx'
    rw [Event.log_of_ne (by simp), List.append_nil]
    exact ⟨_, q, h.steady fitted hp (h.seated.append unclaimed) ⟨.refl _, fun _ _ => rfl⟩⟩
  | join r =>
    have unclaimed : ∀ x ∈ q.sinks,
        Unclaimed x ([⟨.inr r, Coroutine.start r⟩] : List (Slot (PinProcess ⊕ ρ))) := fun x _ =>
      List.forall_mem_singleton.mpr fun q hq => by cases hq
    rw [Event.log_of_ne (by simp), List.append_nil]
    exact ⟨_, q, h.steady fitted hp (h.seated.append unclaimed) ⟨.refl _, fun _ _ => rfl⟩⟩
  | @queue id x v =>
    rw [Event.log_of_ne (by simp), List.append_nil]
    refine ⟨_, q, h.steady fitted hp h.seated ⟨.refl _, fun y hy => ?_⟩⟩
    rw [Table.get?_set, if_neg]
    rintro rfl
    exact writes id (h.sinks ▸ hy) v rfl
  | refuse =>
    rw [Event.log_of_ne (by simp), List.append_nil]
    exact ⟨_, q, h⟩
  | settle =>
    obtain ⟨q', h'⟩ := h.settle spared
    exact ⟨_, q', h'⟩
  | limit =>
    rw [Event.log_of_ne (by simp), List.append_nil]
    exact ⟨_, q, h.steady fitted hp h.seated ⟨.refl _, fun _ _ => rfl⟩⟩

/-- A process of a pin is traced through everything that happens to the bench. -/
theorem tracked_play {p : Pin} {q₀ : PinProcess} {s₀ : Simulator (PinProcess ⊕ ρ)}
    {attached : List Pin} {cs : List (Simulator (PinProcess ⊕ ρ))} {b : Bench ρ}
    (h : Tracked p q₀ s₀ attached b.waiting cs q b.simulator) {events : List (Event ρ)}
    (alone : LeftAlone q₀.sinks events b) : ∃ attached' q',
      Tracked p q₀ s₀ attached' (play events b).waiting (cs ++ log events b) q'
        (play events b).simulator := by
  induction events generalizing b attached cs q with
  | nil => exact ⟨attached, q, by simpa [play, log] using h⟩
  | cons e rest ih =>
    have effect := effect (fun p hp => h.fitted.minted p (List.mem_append_right _ hp)) e
    obtain ⟨now, later⟩ := List.forall_mem_append.mp alone.processes
    obtain ⟨attached', q', h'⟩ := effect.tracked h
      (fun id hid v => alone.writes id hid v e List.mem_cons_self) now
    obtain ⟨attached'', q'', h''⟩ := ih h'
      ⟨fun id hid v e he => alone.writes id hid v e (List.mem_cons_of_mem _ he), later⟩
    rw [List.append_assoc] at h''
    exact ⟨attached'', q'', h''⟩

theorem play_append (xs ys : List (Event ρ)) (b : Bench ρ) : play (xs ++ ys) b = play ys (play xs b) :=
  List.foldl_append

/-- The events grant the pin and end with the first preparation since. -/
def Spawns (board : Board) (events : List (Event ρ)) (p : Pin) : Prop :=
  ∃ before name index direction rate tree granted between,
    events = before ++ .arrange (.request name index direction rate) ::
      (between ++ [.arrange .prepare]) ∧
    request name index direction rate (play before { board }) = .ok tree granted ∧
    p ∈ tree.leaves ∧ ∀ e ∈ between, e ≠ .arrange .prepare

/-- A pin waits until the bench is prepared. -/
theorem Effect.waits {b b' : Bench ρ} {e : Event ρ} (effect : Effect b e b')
    (notPrepared : e ≠ .arrange .prepare) {p : Pin} (hp : p ∈ b.waiting) : p ∈ b'.waiting := by
  cases effect with
  | grow pins _ _ _ waiting =>
    rw [waiting]
    exact List.mem_append_left _ hp
  | attach => exact absurd rfl notPrepared
  | _ => exact hp

/-- A preparation seats the processes of a pin that waits. -/
theorem tracked_prepare {p : Pin} {attached : List Pin} {b : Bench ρ}
    (h : Fitted b.simulator attached b.waiting) (hp : p ∈ b.waiting) :
    let prepared : Bench ρ := Action.prepare.apply b
    ∃ port width qs, Minted prepared.simulator.signals port width p ∧
      p.processes (p.crossing width) = .ok qs ∧ ∀ q ∈ qs,
        Tracked p q prepared.simulator (attached ++ b.waiting) prepared.waiting [] q
          prepared.simulator := by
  obtain ⟨n, added, pins, animated, hrun⟩ :=
    prepare_ok fun p hp => h.minted p (List.mem_append_right _ hp)
  rw [Action.apply, stateAfter_ok hrun]
  have fitted := h.attach pins animated
  rw [← pins] at hp
  obtain ⟨a, ha, rfl⟩ := List.mem_map.mp hp
  obtain ⟨port, width, minted, made⟩ := animated a ha
  refine ⟨port, width, a.2, minted, made, fun q hq => ?_⟩
  obtain ⟨runs, starts⟩ := Pin.runs_of_mem minted made hq
  have apart := h.apart
  rw [List.flatMap_append, List.nodup_append, ← pins] at apart
  obtain ⟨-, new, disjoint⟩ := apart
  -- The slots that are new, those before and those after the one of the process.
  obtain ⟨us, vs, split⟩ := List.mem_iff_append.mp (List.mem_flatMap.mpr ⟨a, ha, hq⟩)
  have separate := separate_of_animated animated new
  rw [split, List.pairwise_append, List.pairwise_cons] at separate
  obtain ⟨-, ⟨right, -⟩, left⟩ := separate
  have slots : (slotsOf added : List (Slot (PinProcess ⊕ ρ))) =
      us.map freshSlot ++ ⟨.inl q, q.wait⟩ :: vs.map freshSlot := by
    rw [slotsOf, ← List.map_flatMap, split, List.map_append, List.map_cons, freshSlot, starts]
  have fresh : ∀ {ws : List PinProcess} {x}, (∀ w ∈ ws, x ∉ w.sinks) →
      Unclaimed x (ws.map freshSlot : List (Slot (PinProcess ⊕ ρ))) := by
    intro ws x spare slot hslot q' hq'
    obtain ⟨w, hw, rfl⟩ := List.mem_map.mp hslot
    obtain rfl := Sum.inl.inj hq'
    exact spare w hw
  refine ⟨fitted, List.mem_append_right _ (pins ▸ List.mem_map_of_mem ha), runs, ?_, rfl, .start⟩
  refine ⟨b.simulator.slots ++ us.map freshSlot, vs.map freshSlot, ?_, fun x hx => ⟨?_, ?_⟩⟩
  · rw [slots, List.append_assoc]
  · refine List.forall_mem_append.mpr ⟨fun slot hslot q' hq' hx' => ?_, fresh fun w hw => ?_⟩
    · obtain ⟨-, p', hp', runs'⟩ := h.owned slot hslot q' hq'
      exact disjoint x (List.mem_flatMap.mpr ⟨p', hp', runs'.sinks x hx'⟩) x
        (List.mem_flatMap.mpr ⟨a.1, List.mem_map_of_mem ha, runs.sinks x hx⟩) rfl
    · exact (left w hw q List.mem_cons_self x).resolve_right (not_not.mpr hx)
  · exact fresh fun w hw => (right w hw x).resolve_left (not_not.mpr hx)

/-- The processes of a pin that was granted are traced from the preparation on, for as long
as nothing else writes their sinks. -/
theorem Spawns.traced {board : Board} {events : List (Event ρ)} {p : Pin}
    (spawned : Spawns board events p) :
    let prepared := play events { board }
    ∃ port width qs, Minted prepared.simulator.signals port width p ∧ p.ids.Nodup ∧
      p.processes (p.crossing width) = .ok qs ∧ ∀ q ∈ qs, ∀ {later : List (Event ρ)},
        LeftAlone q.sinks later prepared → ∃ q',
          Traced q prepared.simulator (log later prepared) q' (play later prepared).simulator := by
  obtain ⟨before, name, index, direction, rate, tree, granted, between, rfl, hr, hp, once⟩ := spawned
  obtain ⟨attached, fitted⟩ := fitted_play (fitted_fresh board) before
  have requested : (Event.arrange (.request name index direction rate)).apply (play before { board })
      = granted := stateAfter_ok hr
  have waits : p ∈ granted.waiting := by
    have outcome := request_outcome name index direction rate (play before { board })
    rw [hr] at outcome
    obtain ⟨-, -, hgranted⟩ := outcome
    rw [hgranted]
    exact List.mem_append_right _ hp
  have minted := fun p hp => fitted.minted p (List.mem_append_right _ hp)
  obtain ⟨more, fitted⟩ :=
    (effect minted (.arrange (.request name index direction rate))).fitted fitted
  rw [requested] at fitted
  obtain ⟨others, fitted'⟩ := fitted_play fitted between
  have waits : p ∈ (play between granted).waiting :=
    play_preserves (P := fun b => p ∈ b.waiting) (fun _ _ _ effect first => effect.waits first) fitted
      waits once
  obtain ⟨port, width, qs, minted, made, tracked⟩ :=
    tracked_prepare fitted' waits
  have prepared : play (before ++ .arrange (.request name index direction rate) ::
      (between ++ [.arrange .prepare])) { board } = Action.prepare.apply (play between granted) := by
    rw [play_append, play, List.foldl_cons, requested, List.foldl_append]
    rfl
  rw [prepared]
  refine ⟨port, width, qs, minted, ?_, made, fun q hq later alone => ?_⟩
  · exact Pin.nodup_ids fitted'.apart (List.mem_append_right _ waits)
  · obtain ⟨_, q', h⟩ := tracked_play (tracked q hq) alone
    exact ⟨q', h.traced⟩

end Bench

end NetBridge.Simulation
