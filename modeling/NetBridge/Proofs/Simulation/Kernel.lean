import NetBridge.Simulation.Kernel
import NetBridge.Proofs.Arena
import NetBridge.Proofs.Running
import NetBridge.Proofs.Table

/-! # Delta cycles

A delta cycle gives every written signal its value and changes no other one, whatever
the processes are. Values that fit their signals go on fitting. -/
namespace NetBridge.Simulation.Simulator

variable {π : Type}

/-- A commit carries out the queued writes. -/
theorem get?_commit (signals : Arena Signal) {pending : Table SignalId Word}
    (nodup : pending.keys.Nodup) (id : SignalId) : (commit signals pending).get? id =
      (signals.get? id).map fun s => { s with value := (Table.get? pending id).getD s.value } := by
  induction pending generalizing signals with
  | nil => cases h : signals.get? id <;> simp [commit, Table.get?, h]
  | cons p rest ih =>
    obtain ⟨k, v⟩ := p
    obtain ⟨absent, nodup⟩ := List.nodup_cons.mp nodup
    rw [commit, List.foldl_cons]
    refine (ih _ nodup).trans ?_
    rw [Arena.get?_modify]
    by_cases h : k = id
    · subst h
      have none : Table.get? rest k = none := Table.get?_eq_none_iff.mpr absent
      rw [if_pos rfl, Table.get?, if_pos rfl, none, Option.map_map]
      rfl
    · rw [if_neg h, Table.get?, if_neg h]

/-- The value that a signal takes in the next commit. -/
def next (s : Simulator π) (id : SignalId) : Option Word :=
  (s.signals.get? id).map fun x => (Table.get? s.pending id).getD x.value

theorem value?_commit (s : Simulator π) (nodup : s.pending.keys.Nodup) (id : SignalId) :
    value? (commit s.signals s.pending) id = next s id := by
  rw [value?, get?_commit s.signals nodup, next, Option.map_map]
  rfl

theorem next_of_notMem {s : Simulator π} {id : SignalId} (h : id ∉ s.pending.keys) :
    next s id = value? s.signals id := by
  rw [next, Table.get?_eq_none_iff.mpr h]
  rfl

/-- Where no write waits the next values are the present ones. -/
theorem next_of_idle {s : Simulator π} (h : s.pending = []) (id : SignalId) :
    next s id = value? s.signals id :=
  next_of_notMem (by simp [h, Table.keys])

/-- A signal changes if another value than its own was written to it. -/
theorem contains_changes {signals : Arena Signal} {pending : Table SignalId Word}
    (nodup : pending.keys.Nodup) (id : SignalId) :
    Table.contains (changes signals pending) id = true ↔
      ∃ v, Table.get? pending id = some v ∧ value? signals id ≠ some v := by
  rw [Table.contains_iff, Table.keys, List.mem_map]
  constructor
  · rintro ⟨⟨k, v⟩, hp, rfl⟩
    obtain ⟨hp, changed⟩ := List.mem_filter.mp hp
    exact ⟨v, Table.get?_of_mem nodup hp, by simpa using changed⟩
  · rintro ⟨v, hv, changed⟩
    exact ⟨(id, v), List.mem_filter.mpr ⟨Table.mem_of_get? hv, by simpa using changed⟩, rfl⟩

/-- Where nothing changes the next value is the present one. -/
theorem next_of_unchanged {s : Simulator π} (nodup : s.pending.keys.Nodup) {id : SignalId}
    (h : Table.contains (changes s.signals s.pending) id = false) :
    next s id = value? s.signals id := by
  by_cases hmem : id ∈ s.pending.keys
  · obtain ⟨v, hv⟩ := Table.exists_get?_of_mem_keys hmem
    have same : value? s.signals id = some v := by
      by_contra changed
      have := (contains_changes nodup id).mpr ⟨v, hv, changed⟩
      rw [h] at this
      cases this
    rw [next, hv, same]
    rw [value?, Option.map_eq_some_iff] at same
    obtain ⟨x, hx, -⟩ := same
    rw [hx]
    rfl
  · exact next_of_notMem hmem

/-- Every value fits its signal, and the queue holds one write for a signal, which fits
as well. -/
structure Regular (signals : Arena Signal) (pending : Table SignalId Word) : Prop where
  nodup : pending.keys.Nodup
  fits : ∀ id x, signals.get? id = some x → x.value &&& x.mask = x.value
  queued : ∀ id v, Table.get? pending id = some v →
    ∃ x, signals.get? id = some x ∧ v &&& x.mask = v

theorem Regular.set {signals : Arena Signal} {pending : Table SignalId Word}
    (h : Regular signals pending) {id : SignalId} {x : Signal} {v : Word}
    (hx : signals.get? id = some x) (hv : v &&& x.mask = v) :
    Regular signals (Table.set pending id v) where
  nodup := Table.nodup_keys_set h.nodup id v
  fits := h.fits
  queued id' v' h' := by
    rw [Table.get?_set] at h'
    split at h'
    · rename_i same
      subst same
      obtain rfl := Option.some.inj h'
      exact ⟨x, hx, hv⟩
    · exact h.queued id' v' h'

theorem Regular.queue {signals : Arena Signal} {pending pending' : Table SignalId Word}
    {writes : List (SignalId × Word)} (h : Regular signals pending)
    (hq : queue signals pending writes = some pending') : Regular signals pending' := by
  induction writes generalizing pending with
  | nil =>
    obtain rfl := Option.some.inj hq
    exact h
  | cons w rest ih =>
    obtain ⟨id, value⟩ := w
    rw [Simulator.queue, Option.bind_eq_bind, Option.bind_eq_some_iff] at hq
    obtain ⟨x, hx, hq⟩ := hq
    refine ih (h.set hx ?_) hq
    rw [BitVec.and_assoc, BitVec.and_self]

/-- Queueing leaves other signals alone. -/
theorem queue_spares {signals : Arena Signal} {pending pending' : Table SignalId Word}
    {writes : List (SignalId × Word)} {x : SignalId} (h : queue signals pending writes = some pending')
    (spared : ∀ w ∈ writes, w.1 ≠ x) : Table.get? pending' x = Table.get? pending x := by
  induction writes generalizing pending with
  | nil =>
    obtain rfl := Option.some.inj h
    rfl
  | cons w rest ih =>
    obtain ⟨id, value⟩ := w
    rw [queue, Option.bind_eq_bind, Option.bind_eq_some_iff] at h
    obtain ⟨s, -, h⟩ := h
    obtain ⟨first, others⟩ := List.forall_mem_cons.mp spared
    rw [ih h others, Table.get?_set, if_neg first]

/-- Committing keeps the values fitting, and starts a new queue. -/
theorem Regular.commit {signals : Arena Signal} {pending : Table SignalId Word}
    (h : Regular signals pending) : Regular (commit signals pending) [] where
  nodup := List.nodup_nil
  fits id x hx := by
    rw [get?_commit signals h.nodup, Option.map_eq_some_iff] at hx
    obtain ⟨y, hy, rfl⟩ := hx
    cases hp : Table.get? pending id with
    | none => exact h.fits id y hy
    | some v =>
      obtain ⟨z, hz, fits⟩ := h.queued id v hp
      obtain rfl := Option.some.inj (hz.symm.trans hy)
      exact fits
  queued id v hv := by cases hv

variable [Coroutine π]

/-- A slot that is woken or not. -/
inductive Woken (signals : Arena Signal) (changed : Table SignalId Word) :
    Slot π → List (SignalId × Word) → Slot π → Prop
  | asleep {slot : Slot π} : fires signals changed slot.wait = false →
    Woken signals changed slot [] slot
  | awake {slot : Slot π} {r : Resumption π} : fires signals changed slot.wait = true →
    Coroutine.resume slot.process (value? signals) = some r →
    Woken signals changed slot r.writes ⟨r.process, r.wait⟩

/-- Waking processes in a row is waking the first one and then the others. -/
theorem wake_cons {signals : Arena Signal} {changed pending pending' : Table SignalId Word}
    {slot : Slot π} {rest slots' : List (Slot π)}
    (h : wake signals changed pending (slot :: rest) = some (pending', slots')) :
    ∃ writes slot' queued rest', Woken signals changed slot writes slot' ∧
      queue signals pending writes = some queued ∧
      wake signals changed queued rest = some (pending', rest') ∧ slots' = slot' :: rest' := by
  rw [wake] at h
  split at h
  · rename_i fired
    simp only [Option.bind_eq_bind, Option.bind_eq_some_iff, Option.pure_def,
      Option.some.injEq] at h
    obtain ⟨r, hr, queued, hqueued, ⟨p, rest'⟩, hrest, heq⟩ := h
    obtain ⟨rfl, rfl⟩ := Prod.mk.inj heq
    exact ⟨r.writes, _, queued, rest', .awake fired hr, hqueued, hrest, rfl⟩
  · rename_i quiet
    simp only [Option.bind_eq_bind, Option.bind_eq_some_iff, Option.pure_def,
      Option.some.injEq] at h
    obtain ⟨⟨p, rest'⟩, hrest, heq⟩ := h
    obtain ⟨rfl, rfl⟩ := Prod.mk.inj heq
    exact ⟨[], slot, pending, rest', .asleep (by simpa using quiet), rfl, hrest, rfl⟩

theorem wake_regular {signals : Arena Signal} {changed pending pending' : Table SignalId Word}
    {slots slots' : List (Slot π)} (h : Regular signals pending)
    (hw : wake signals changed pending slots = some (pending', slots')) :
    Regular signals pending' := by
  induction slots generalizing pending slots' with
  | nil =>
    obtain ⟨rfl, -⟩ := Prod.mk.inj (Option.some.inj hw)
    exact h
  | cons slot rest ih =>
    obtain ⟨writes, slot', queued, rest', -, hq, hrest, -⟩ := wake_cons hw
    exact ih (h.queue hq) hrest

/-- What holds of every slot goes on holding if waking preserves it. -/
theorem wake_forall {signals : Arena Signal} {changed pending pending' : Table SignalId Word}
    {slots slots' : List (Slot π)} {Q : Slot π → Prop}
    (step : ∀ slot writes slot', Q slot → Woken signals changed slot writes slot' → Q slot')
    (h : wake signals changed pending slots = some (pending', slots')) (hQ : ∀ slot ∈ slots, Q slot) :
    ∀ slot ∈ slots', Q slot := by
  induction slots generalizing pending slots' with
  | nil =>
    obtain ⟨-, rfl⟩ := Prod.mk.inj (Option.some.inj h)
    exact hQ
  | cons slot rest ih =>
    obtain ⟨writes, slot', queued, rest', woken, -, hrest, rfl⟩ := wake_cons h
    obtain ⟨first, others⟩ := List.forall_mem_cons.mp hQ
    exact List.forall_mem_cons.mpr ⟨step _ _ _ first woken, ih hrest others⟩

/-- A signal that no waking process writes gets no write. -/
theorem wake_quiet {signals : Arena Signal} {changed pending pending' : Table SignalId Word}
    {slots slots' : List (Slot π)} {x : SignalId}
    (quiet : ∀ slot ∈ slots, ∀ writes slot', Woken signals changed slot writes slot' →
      x ∉ Table.keys writes) (h : wake signals changed pending slots = some (pending', slots')) :
    Table.get? pending' x = Table.get? pending x := by
  induction slots generalizing pending slots' with
  | nil =>
    obtain ⟨rfl, -⟩ := Prod.mk.inj (Option.some.inj h)
    rfl
  | cons slot rest ih =>
    obtain ⟨writes, slot', queued, rest', woken, hq, hrest, -⟩ := wake_cons h
    obtain ⟨first, others⟩ := List.forall_mem_cons.mp quiet
    rw [ih others hrest]
    exact queue_spares hq fun w hw same => first _ _ woken (same ▸ List.mem_map_of_mem hw)

/-- What a delta cycle comes to. -/
theorem delta?_eq_some {s s' : Simulator π} (h : delta? s = some s') :
    ∃ pending slots, wake (commit s.signals s.pending) (changes s.signals s.pending) [] s.slots =
      some (pending, slots) ∧
      s' = { s with signals := commit s.signals s.pending, pending, slots } := by
  rw [delta?, Option.bind_eq_bind, Option.bind_eq_some_iff] at h
  obtain ⟨⟨pending, slots⟩, hw, heq⟩ := h
  exact ⟨pending, slots, hw, (Option.some.inj heq).symm⟩

section Steps

variable {s t : Simulator π} {budget : Nat} (count : Nat)

theorem runDeltas_idle (budget : Nat) (h : s.pending = []) :
    runDeltas budget count s = .ok count s := by
  cases budget <;> rw [runDeltas, bind_of_ok get_run, h] <;> rfl

theorem runDeltas_exhausted (busy : s.pending ≠ []) :
    runDeltas 0 count s = .error (.deltaLimit s.maxDeltas) s := by
  rw [runDeltas, bind_of_ok get_run, if_neg (by simpa using busy)]
  rfl

theorem runDeltas_stuck (busy : s.pending ≠ []) (h : delta? s = none) :
    runDeltas (budget + 1) count s = .error .unallocated s := by
  rw [runDeltas, bind_of_ok get_run, if_neg (by simpa using busy), h]
  rfl

theorem runDeltas_cycle (busy : s.pending ≠ []) (h : delta? s = some t) :
    runDeltas (budget + 1) count s = runDeltas budget (count + 1) t := by
  rw [runDeltas, bind_of_ok get_run, if_neg (by simpa using busy), h]
  rfl

end Steps

/-- What every delta cycle preserves holds when the deltas are over. -/
theorem runDeltas_ok {P : Simulator π → Prop}
    (step : ∀ s s', P s → delta? s = some s' → P s') {budget count n : Nat}
    {s s' : Simulator π} (h : P s) (hrun : runDeltas budget count s = .ok n s') :
    P s' ∧ s'.pending = [] := by
  induction budget generalizing count s with
  | zero =>
    by_cases busy : s.pending = []
    · obtain ⟨-, rfl⟩ := EStateM.Result.ok.inj ((runDeltas_idle count 0 busy).symm.trans hrun)
      exact ⟨h, busy⟩
    · cases (runDeltas_exhausted count busy).symm.trans hrun
  | succ budget ih =>
    by_cases busy : s.pending = []
    · obtain ⟨-, rfl⟩ := EStateM.Result.ok.inj ((runDeltas_idle count _ busy).symm.trans hrun)
      exact ⟨h, busy⟩
    · cases hd : delta? s with
      | none => cases (runDeltas_stuck count busy hd).symm.trans hrun
      | some t =>
        rw [runDeltas_cycle count busy hd] at hrun
        exact ih (step s t h hd) hrun

theorem settle_ok {P : Simulator π → Prop} (step : ∀ s s', P s → delta? s = some s' → P s')
    {n : Nat} {s s' : Simulator π} (h : P s) (hrun : settle s = .ok n s') :
    ∃ t, P t ∧ t.pending = [] ∧ s' = { t with totalDeltas := t.totalDeltas + n } := by
  rw [settle, bind_of_ok get_run] at hrun
  obtain ⟨count, t, hdeltas, hrest⟩ := bind_eq_ok.mp hrun
  obtain ⟨rfl, rfl⟩ := EStateM.Result.ok.inj hrest
  obtain ⟨ht, done⟩ := runDeltas_ok step h hdeltas
  exact ⟨t, ht, done, rfl⟩

end NetBridge.Simulation.Simulator
