import NetBridge.Proofs.Simulation.Writers
import NetBridge.Proofs.Shape

/-! # Following a signal

A process that follows one signal into another runs when the source changes and at no
other time. So the sink is what it should be as soon as the source has changed once;
up to then both are at zero, which is the wrong value for a sink behind an inverter. -/
namespace NetBridge.Simulation

open Simulator (value? next wake delta? delta?_eq_some Regular settle settle_ok value?_commit
  get?_commit next_of_notMem next_of_unchanged contains_changes)

namespace Simulator

variable {π : Type}

/-- A write of the testbench. One that the simulator refuses changes nothing. -/
def write (s : Simulator π) (w : SignalId × Word) : Simulator π := stateAfter (set w.1 w.2) s

/-- The signal is there and the value fits it. -/
def accepts (signals : Arena Signal) (w : SignalId × Word) : Bool :=
  (signals.get? w.1).any fun x => w.2 &&& ~~~x.mask == 0

theorem set_run (id : SignalId) (v : Word) (s : Simulator π) : set id v s =
    match s.signals.get? id with
    | none => .error .unallocated s
    | some x => if v &&& ~~~x.mask = 0 then .ok () { s with pending := Table.set s.pending id v }
      else .error (.valueTooWide x.name v x.width) s := by
  rw [set]
  cases hx : s.signals.get? id with
  | none =>
    have absent : signal id s = .error .unallocated s := by
      rw [signal, bind_of_ok get_run, hx]
      rfl
    exact bind_of_error absent
  | some x =>
    have found : signal id s = .ok x s := by
      rw [signal, bind_of_ok get_run, hx]
      rfl
    rw [bind_of_ok found]
    by_cases fits : v &&& ~~~x.mask = 0
    · rw [if_neg (not_not.mpr fits)]
      exact (if_pos fits).symm
    · rw [if_pos fits]
      exact (if_neg fits).symm

/-- The testbench is refused, or queues a value that fits. -/
theorem set_cases (id : SignalId) (v : Word) (s : Simulator π) :
    (∃ e, set id v s = .error e s) ∨ ∃ x, s.signals.get? id = some x ∧ v &&& x.mask = v ∧
      set id v s = .ok () { s with pending := Table.set s.pending id v } := by
  rw [set_run]
  cases s.signals.get? id with
  | none => exact .inl ⟨_, rfl⟩
  | some x =>
    by_cases fits : v &&& ~~~x.mask = 0
    · exact .inr ⟨x, rfl, Word.fits_of_and_not_eq_zero fits, if_pos fits⟩
    · exact .inl ⟨_, if_neg fits⟩

theorem write_of_accepts (s : Simulator π) (w : SignalId × Word) : write s w =
    if accepts s.signals w then { s with pending := Table.set s.pending w.1 w.2 } else s := by
  rw [write, stateAfter, set_run, accepts]
  cases s.signals.get? w.1 with
  | none => rfl
  | some x =>
    by_cases fits : w.2 &&& ~~~x.mask = 0
    · simp only [Option.any_some, beq_iff_eq, if_pos fits]
    · simp only [Option.any_some, beq_iff_eq, if_neg fits]

theorem write_eq (s : Simulator π) (id : SignalId) (v : Word) : write s (id, v) = s ∨
    ∃ x, s.signals.get? id = some x ∧ v &&& x.mask = v ∧
      write s (id, v) = { s with pending := Table.set s.pending id v } := by
  rcases set_cases id v s with ⟨e, refused⟩ | ⟨x, hx, fits, done⟩
  · exact .inl (stateAfter_error refused)
  · exact .inr ⟨x, hx, fits, stateAfter_ok done⟩

end Simulator

variable {ρ : Type}

/-- Nothing writes the signal, or one process does, which follows a signal that nothing
writes. -/
inductive Fed (x : SignalId) (slots : List (Slot (PinProcess ⊕ ρ))) : Option SignalId → Prop
  | free : Unwritten x slots → Fed x slots none
  | follows {y : SignalId} {mask : Word} : Linked y x mask slots → Unwritten y slots →
    Fed x slots (some y)

variable [Coroutine ρ]

/-- The signal is written after a change of its feed only, and the feed never. -/
theorem Fed.wake {signals : Arena Signal} {changed pending : Table SignalId Word}
    {slots slots' : List (Slot (PinProcess ⊕ ρ))} {x : SignalId} {feed : Option SignalId}
    (h : Fed x slots feed) (hw : wake signals changed [] slots = some (pending, slots')) :
    Fed x slots' feed ∧ (∀ y, feed = some y → y ∉ pending.keys) ∧
      (x ∈ pending.keys → ∃ y, feed = some y ∧ Table.contains changed y = true) := by
  cases h with
  | free unwritten =>
    obtain ⟨same, stays⟩ := wake_unwritten hw unwritten
    exact ⟨.free stays, by simp, fun hx => absurd hx (Table.get?_eq_none_iff.mp same)⟩
  | @follows feed mask linked unwritten =>
    obtain ⟨same, stays⟩ := wake_unwritten hw unwritten
    obtain ⟨linked, written⟩ := wake_linked hw linked
    refine ⟨.follows linked stays, ?_, fun hx => ?_⟩
    · intro y hy
      obtain rfl := Option.some.inj hy
      exact Table.get?_eq_none_iff.mp same
    · rcases written with ⟨-, same⟩ | ⟨fired, -⟩
      · exact absurd hx (Table.get?_eq_none_iff.mp same)
      · exact ⟨_, rfl, fired⟩

/-- A source that is followed into a sink of the same width, complemented or not. -/
structure Link where
  source : SignalId
  sink : SignalId
  width : Nat
  invert : Bool
  /-- What the source follows itself, if it follows anything. -/
  feed : Option SignalId

namespace Link

/-- The word that the follower has for what crosses. -/
def mask (l : Link) : Word := if l.invert then Word.ones l.width else 0

theorem mask_fits (l : Link) : l.mask &&& Word.ones l.width = l.mask := by
  rw [mask]
  split
  · exact BitVec.and_self
  · exact BitVec.zero_and

variable {l : Link} {s s' : Simulator (PinProcess ⊕ ρ)} {seen : Prop}

/-- One process follows the source into the sink, and the two signals are there. -/
structure Wired (l : Link) (s : Simulator (PinProcess ⊕ ρ)) : Prop where
  regular : Regular s.signals s.pending
  linked : Linked l.source l.sink l.mask s.slots
  fed : Fed l.source s.slots l.feed
  source : ∃ x, s.signals.get? l.source = some x ∧ x.width = l.width
  sink : ∃ x, s.signals.get? l.sink = some x ∧ x.width = l.width

/-- What a delta cycle does. The values that were next are the present ones; the source
may be written if its feed was, and the sink is written if the source has changed. -/
structure Cycled (l : Link) (s s' : Simulator (PinProcess ⊕ ρ)) : Prop where
  wired : l.Wired s'
  values : ∀ id, value? s'.signals id = next s id
  quiet : ∀ y, l.feed = some y → y ∉ s'.pending.keys
  fed : l.source ∈ s'.pending.keys → ∃ y, l.feed = some y ∧ y ∈ s.pending.keys
  sink : (next s l.source = value? s.signals l.source ∧ l.sink ∉ s'.pending.keys) ∨
    (l.source ∈ s.pending.keys ∧ next s l.source ≠ value? s.signals l.source ∧
      ∃ v, value? s'.signals l.source = some v ∧
        next s' l.sink = some (Word.crossed l.invert l.width v))

theorem Wired.delta (h : l.Wired s) (hd : delta? s = some s') : l.Cycled s s' := by
  obtain ⟨pending, slots, hw, rfl⟩ := delta?_eq_some hd
  have nodup := h.regular.nodup
  have regular := Simulator.wake_regular h.regular.commit hw
  obtain ⟨linked, written⟩ := wake_linked hw h.linked
  obtain ⟨fed, quiet, sourceFed⟩ := h.fed.wake hw
  have committed : ∀ {id}, (∃ x, s.signals.get? id = some x ∧ x.width = l.width) →
      ∃ x, (Simulator.commit s.signals s.pending).get? id = some x ∧ x.width = l.width := by
    rintro id ⟨x, hx, hwidth⟩
    rw [get?_commit s.signals nodup, hx]
    exact ⟨_, rfl, hwidth⟩
  refine ⟨⟨regular, linked, fed, committed h.source, committed h.sink⟩,
    fun id => value?_commit s nodup id, quiet, fun hx => ?_, ?_⟩
  · obtain ⟨y, hy, fired⟩ := sourceFed hx
    obtain ⟨v, hv, -⟩ := (contains_changes nodup y).mp fired
    exact ⟨y, hy, Table.mem_keys_of_get? hv⟩
  · rcases written with ⟨unchanged, none⟩ | ⟨fired, v, x, hv, hx, queued⟩
    · exact .inl ⟨next_of_unchanged nodup unchanged, Table.get?_eq_none_iff.mp none⟩
    · obtain ⟨w, hqueued, changed⟩ := (contains_changes nodup l.source).mp fired
      refine .inr ⟨Table.mem_keys_of_get? hqueued, ?_, v, hv, ?_⟩
      · obtain ⟨y, hy, -⟩ := h.source
        rw [next, hy, Option.map_some, hqueued, Option.getD_some]
        exact Ne.symm changed
      · obtain ⟨y, hy, hwidth⟩ := committed h.source
        obtain ⟨z, hz, zwidth⟩ := committed h.sink
        obtain rfl := Option.some.inj (hx.symm.trans hz)
        obtain rfl : y.value = v := by simpa [value?, hy] using hv
        have fits : y.value &&& Word.ones l.width = y.value := by
          have fits := regular.fits l.source y hy
          rwa [Signal.mask, hwidth] at fits
        have whole : (y.value ^^^ l.mask) &&& x.mask = y.value ^^^ l.mask := by
          rw [Signal.mask, zwidth]
          exact Word.fits_xor fits l.mask_fits
        rw [next]
        dsimp only
        rw [hx, Option.map_some, queued, Option.getD_some, whole]
        exact congrArg some (Word.xor_eq_crossed l.invert fits)

/-- What the sink is about to be: its source as it crosses, or still zero. The second is
possible only as long as the source has not been seen to change. -/
inductive Mirrored (l : Link) (seen : Prop) (s : Simulator (PinProcess ⊕ ρ)) : Prop
  | follows {v : Word} : value? s.signals l.source = some v →
    next s l.sink = some (Word.crossed l.invert l.width v) → l.invert = false ∨ seen →
    Mirrored l seen s
  | still : ¬ seen → value? s.signals l.source = some 0 → next s l.sink = some 0 →
    Mirrored l seen s

/-- The source has got another value than zero, and keeps it. -/
def Noticed (l : Link) (s : Simulator (PinProcess ⊕ ρ)) : Prop :=
  value? s.signals l.source ≠ some 0 ∧ l.source ∉ s.pending.keys ∧
    ∀ y, l.feed = some y → y ∉ s.pending.keys

/-- What holds while delta cycles run. The source is never written together with its
feed, so that it changes once at most. -/
structure Settling (l : Link) (seen : Prop) (s : Simulator (PinProcess ⊕ ρ)) : Prop where
  wired : l.Wired s
  once : l.source ∈ s.pending.keys → ∀ y, l.feed = some y → y ∉ s.pending.keys
  mirrored : l.Mirrored (seen ∨ l.Noticed s) s

omit [Coroutine ρ] in
/-- A delta cycle that leaves the source alone leaves the sink what it was to be. -/
theorem Cycled.unchanged (c : l.Cycled s s')
    (same : next s l.source = value? s.signals l.source) (silent : l.sink ∉ s'.pending.keys)
    (h : l.Mirrored (seen ∨ l.Noticed s) s) : l.Mirrored (seen ∨ l.Noticed s') s' := by
  have source_eq : value? s'.signals l.source = value? s.signals l.source :=
    (c.values l.source).trans same
  have sink_eq : next s' l.sink = next s l.sink := (next_of_notMem silent).trans (c.values l.sink)
  cases h with
  | follows hv hnext reason =>
    refine .follows (source_eq.trans hv) (sink_eq.trans hnext) (reason.imp_right ?_)
    rintro (old | ⟨nonzero, idle, feedIdle⟩)
    · exact .inl old
    · refine .inr ⟨by rwa [source_eq], fun hmem => ?_, c.quiet⟩
      obtain ⟨y, hy, hin⟩ := c.fed hmem
      exact feedIdle y hy hin
  | still unseen zero hnext =>
    refine .still ?_ (source_eq.trans zero) (sink_eq.trans hnext)
    rintro (old | ⟨nonzero, -⟩)
    · exact unseen (.inl old)
    · exact nonzero (source_eq.trans zero)

theorem Settling.delta (h : l.Settling seen s) (hd : delta? s = some s') : l.Settling seen s' := by
  have c := h.wired.delta hd
  refine ⟨c.wired, fun _ => c.quiet, ?_⟩
  rcases c.sink with ⟨same, silent⟩ | ⟨written, changed, v, hv, hnext⟩
  · exact c.unchanged same silent h.mirrored
  · -- The source has changed, and nothing is left that could change it again.
    have idle : l.source ∉ s'.pending.keys := fun hmem => by
      obtain ⟨y, hy, hin⟩ := c.fed hmem
      exact h.once written y hy hin
    refine .follows hv hnext ?_
    by_cases zero : v = 0
    · subst zero
      have nonzero : value? s.signals l.source ≠ some 0 := by
        rw [← hv, c.values l.source]
        exact changed.symm
      cases h.mirrored with
      | follows _ _ reason =>
        refine reason.imp_right fun noticed => .inl (noticed.resolve_right ?_)
        exact fun n => n.2.1 written
      | still _ was _ => exact absurd was nonzero
    · exact .inr (.inr ⟨by simpa [hv] using zero, idle, c.quiet⟩)

/-- What holds between settlings. -/
structure Poised (l : Link) (seen : Prop) (s : Simulator (PinProcess ⊕ ρ)) : Prop where
  wired : l.Wired s
  unwritten : l.feed.isSome → l.source ∉ s.pending.keys
  mirrored : l.Mirrored seen s

omit [Coroutine ρ] in
/-- A write to neither the sink nor a source that has a feed. -/
theorem Poised.write (h : l.Poised seen s) {w : SignalId × Word} (hsink : w.1 ≠ l.sink)
    (hsource : l.feed.isSome → w.1 ≠ l.source) : l.Poised seen (s.write w) := by
  obtain ⟨id, v⟩ := w
  rcases Simulator.write_eq s id v with same | ⟨x, hx, fits, done⟩
  · rwa [same]
  · rw [done]
    have sink_eq : next { s with pending := Table.set s.pending id v } l.sink = next s l.sink := by
      simp only [next]
      rw [Table.get?_set, if_neg hsink]
    refine ⟨⟨h.wired.regular.set hx fits, h.wired.linked, h.wired.fed, h.wired.source,
      h.wired.sink⟩, fun hf => ?_, ?_⟩
    · have absent := Table.get?_eq_none_iff.mpr (h.unwritten hf)
      rw [← Table.get?_eq_none_iff, Table.get?_set, if_neg (hsource hf), absent]
    · cases h.mirrored with
      | follows hv hnext reason => exact .follows hv (sink_eq.trans hnext) reason
      | still unseen zero hnext => exact .still unseen zero (sink_eq.trans hnext)

omit [Coroutine ρ] in
theorem Poised.writes {ws : List (SignalId × Word)} (h : l.Poised seen s)
    (avoid : ∀ w ∈ ws, w.1 ≠ l.sink ∧ (l.feed.isSome → w.1 ≠ l.source)) :
    l.Poised seen (ws.foldl Simulator.write s) := by
  induction ws generalizing s with
  | nil => exact h
  | cons w rest ih =>
    obtain ⟨first, others⟩ := List.forall_mem_cons.mp avoid
    exact ih (h.write first.1 first.2) others

/-- After a settling the source has been seen if it had been before or is not at zero. -/
theorem Poised.settle (h : l.Poised seen s) {n : Nat} (hrun : settle s = .ok n s') :
    s'.pending = [] ∧ l.Poised (seen ∨ value? s'.signals l.source ≠ some 0) s' := by
  have start : l.Settling seen s := by
    refine ⟨h.wired, fun hmem y hy => ?_, ?_⟩
    · exact absurd hmem (h.unwritten (by rw [hy]; rfl))
    · cases h.mirrored with
      | follows hv hnext reason => exact .follows hv hnext (reason.imp_right .inl)
      | still unseen zero hnext =>
        exact .still (fun seen => seen.elim unseen fun noticed => noticed.1 zero) zero hnext
  obtain ⟨t, settled, idle, rfl⟩ := settle_ok (fun _ _ => Settling.delta) start hrun
  have wired := settled.wired
  refine ⟨idle, ⟨wired.regular, wired.linked, wired.fed, wired.source, wired.sink⟩,
    fun _ => by simp [idle, Table.keys], ?_⟩
  have noticed : l.Noticed t ↔ value? t.signals l.source ≠ some 0 := by
    simp [Noticed, idle, Table.keys]
  have mirrored := settled.mirrored
  rw [noticed] at mirrored
  cases mirrored with
  | follows hv hnext reason => exact .follows hv hnext reason
  | still unseen zero hnext => exact .still unseen zero hnext

end Link

/-- The settled states of a run, the latest one first: the testbench writes what it likes
except to the spared signals, settles, and goes on. -/
inductive Rounds (spared : List SignalId) (start : Simulator (PinProcess ⊕ ρ)) :
    List (Simulator (PinProcess ⊕ ρ)) → Prop
  | start : Rounds spared start [start]
  | settle {now next : Simulator (PinProcess ⊕ ρ)} {earlier : List (Simulator (PinProcess ⊕ ρ))}
    {n : Nat} (writes : List (SignalId × Word)) : Rounds spared start (now :: earlier) →
    (∀ w ∈ writes, w.1 ∉ spared) → settle (writes.foldl Simulator.write now) = .ok n next →
    Rounds spared start (next :: now :: earlier)

/-- What the two ends of a link show in a settled state. Once the source has not been at
zero, or if nothing is inverted, the sink has what crosses; as long as the source has
always been at zero, so has the sink. -/
structure Mirrors (invert : Bool) (width : Nat) (source sink : SignalId)
    (now : Simulator (PinProcess ⊕ ρ)) (earlier : List (Simulator (PinProcess ⊕ ρ))) : Prop where
  crossed : invert = false ∨ (∃ t ∈ now :: earlier, value? t.signals source ≠ some 0) →
    ∃ v, value? now.signals source = some v ∧
      value? now.signals sink = some (Word.crossed invert width v)
  still : (∀ t ∈ now :: earlier, value? t.signals source = some 0) →
    value? now.signals sink = some 0

namespace Link

variable {l : Link} {now start : Simulator (PinProcess ⊕ ρ)}
  {earlier : List (Simulator (PinProcess ⊕ ρ))} {spared : List SignalId}

omit [Coroutine ρ] in
theorem Poised.mirrors
    (h : l.Poised (∃ t ∈ now :: earlier, value? t.signals l.source ≠ some 0) now)
    (idle : now.pending = []) : Mirrors l.invert l.width l.source l.sink now earlier := by
  have sink_eq : next now l.sink = value? now.signals l.sink :=
    next_of_notMem (by simp [idle, Table.keys])
  cases h.mirrored with
  | @follows v hv hnext reason =>
    refine ⟨fun _ => ⟨v, hv, sink_eq.symm.trans hnext⟩, fun zero => ?_⟩
    rcases reason with direct | ⟨t, ht, nonzero⟩
    · obtain rfl := Option.some.inj (hv.symm.trans (zero now List.mem_cons_self))
      rw [← sink_eq, hnext, direct]
      rfl
    · exact absurd (zero t ht) nonzero
  | still unseen zero hnext =>
    refine ⟨fun reason => ⟨0, zero, ?_⟩, fun _ => sink_eq.symm.trans hnext⟩
    rw [← sink_eq, hnext, reason.resolve_right unseen]
    rfl

/-- What holds at the start goes on holding in every round. -/
theorem Poised.rounds (hsink : l.sink ∈ spared) (hsource : l.feed.isSome → l.source ∈ spared)
    (idle : start.pending = []) (h : l.Poised (value? start.signals l.source ≠ some 0) start)
    (rounds : Rounds spared start (now :: earlier)) : now.pending = [] ∧
      l.Poised (∃ t ∈ now :: earlier, value? t.signals l.source ≠ some 0) now := by
  generalize hhistory : now :: earlier = history at rounds
  induction rounds generalizing now earlier with
  | start =>
    obtain ⟨rfl, rfl⟩ := List.cons.inj hhistory
    exact ⟨idle, by simpa using h⟩
  | @settle before after past n writes _ spares hrun ih =>
    obtain ⟨rfl, rfl⟩ := List.cons.inj hhistory
    obtain ⟨-, poised⟩ := ih rfl
    have avoid : ∀ w ∈ writes, w.1 ≠ l.sink ∧ (l.feed.isSome → w.1 ≠ l.source) := fun w hw =>
      ⟨fun same => spares w hw (same ▸ hsink), fun hf same => spares w hw (same ▸ hsource hf)⟩
    obtain ⟨settled, poised⟩ := (poised.writes avoid).settle hrun
    refine ⟨settled, ?_⟩
    simpa only [List.mem_cons, exists_eq_or_imp, or_comm] using poised

end Link

end NetBridge.Simulation
