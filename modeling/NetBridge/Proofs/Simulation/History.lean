import Mathlib.Data.List.Infix
import NetBridge.Proofs.Simulation.Session

/-! # Histories of simulators

A history lists the writes that were queued for signals and the commits between them. What waits
for a signal is the last write since the last commit, and the next commit gives the signal this
value. A process may write any word and gets as much of it in as the signal has room for; the
testbench may write what fits and is refused otherwise. So no signal ever holds more than fits. -/
namespace NetBridge.Simulation

/-- A write as it is asked for. -/
inductive Write where
  | fromTestbench (value : Word)
  | fromProcess (value : Word)

/-- What a signal of some width is given. -/
def Write.carried (width : Nat) : Write → Word
  | fromTestbench value => value
  | fromProcess value => value &&& Word.ones width

/-- What happens to the signals of a simulator. -/
inductive Occurrence where
  | queued (id : SignalId) (write : Write)
  | committed (before after : Arena Signal)

/-- The last write to a signal since the last commit. -/
def lastWrite (id : SignalId) (log : List Occurrence) : Option Write :=
  log.foldl (fun last o => match o with
    | .queued target write => if target = id then some write else last
    | .committed _ _ => none) none

@[simp] theorem lastWrite_queued (id target : SignalId) (log : List Occurrence) (write : Write) :
    lastWrite id (log ++ [.queued target write]) =
      if target = id then some write else lastWrite id log := by
  simp [lastWrite]

@[simp] theorem lastWrite_committed (id : SignalId) (log : List Occurrence)
    (before after : Arena Signal) : lastWrite id (log ++ [.committed before after]) = none := by
  simp [lastWrite]

/-- A commit gives every written signal the last value that was queued for it, and leaves the
others as they were. -/
def CommitsLast (log : List Occurrence) (before after : Arena Signal) : Prop :=
  ∀ id, after.get? id = (before.get? id).map fun x =>
    { x with value := ((lastWrite id log).map (Write.carried x.width)).getD x.value }

namespace Simulator

variable {π : Type} [Coroutine π]

/-- What a process writes in a delta cycle. -/
def written (signals : Arena Signal) (changed : Table SignalId Word) (slot : Slot π) :
    List (SignalId × Word) :=
  ((advance signals changed slot).map Prod.fst).getD []

/-- The commit of a delta cycle and the writes of the processes that it wakes. -/
def cycleLog (s : Simulator π) : List Occurrence :=
  match s.delta? with
  | none => []
  | some t => .committed s.signals t.signals ::
      (s.slots.flatMap (written t.signals (changes s.signals s.pending))).map fun w =>
        .queued w.1 (.fromProcess w.2)

def settleLog (s : Simulator π) : List Occurrence := (commits s.maxDeltas s).flatMap cycleLog

omit [Coroutine π] in
/-- A write that is refused does not occur. -/
def setLog (id : SignalId) (value : Word) (s : Simulator π) : List Occurrence :=
  match set id value s with
  | .ok _ _ => [.queued id (.fromTestbench value)]
  | .error _ _ => []

omit [Coroutine π] in
/-- What is recorded of an operation and, if it succeeds, of what comes after it. -/
def logThen {α : Type} (x : SimM π α) (first later : Simulator π → List Occurrence)
    (s : Simulator π) : List Occurrence :=
  first s ++ match x s with
    | .ok _ t => later t
    | .error _ _ => []

/-- What can be done with a simulator. -/
inductive Operation (π : Type) where
  | addSignal (name : String) (width : Nat)
  | addProcess (process : π)
  | set (id : SignalId) (value : Word)
  | settle
  | tick (clk : SignalId)
  /-- From now on a settling takes at most so many delta cycles. -/
  | limit (maxDeltas : Nat)

namespace Operation

/-- The simulator after the operation, failed or not. -/
def apply : Operation π → Simulator π → Simulator π
  | addSignal name width => stateAfter (Simulator.addSignal name width)
  | addProcess process => stateAfter (Simulator.addProcess process)
  | set id value => stateAfter (Simulator.set id value)
  | settle => stateAfter Simulator.settle
  | tick clk => stateAfter (Simulator.tick clk)
  | limit maxDeltas => fun s => { s with maxDeltas }

def log : Operation π → Simulator π → List Occurrence
  | set id value => setLog id value
  | settle => settleLog
  | tick clk =>
    logThen (Simulator.set clk 1) (setLog clk 1) <|
    logThen Simulator.settle settleLog <|
    logThen (Simulator.set clk 0) (setLog clk 0) settleLog
  | addSignal _ _ | addProcess _ | limit _ => fun _ => []

end Operation

def run (operations : List (Operation π)) (s : Simulator π) : Simulator π :=
  operations.foldl (fun s o => o.apply s) s

/-- The history of a run. -/
def history : List (Operation π) → Simulator π → List Occurrence
  | [], _ => []
  | o :: rest, s => o.log s ++ history rest (o.apply s)

/-- Signals have widths that words have room for, values fit, what waits for a signal is the last
write to it, and all commits so far have carried out the last writes. -/
structure Recorded (signals : Arena Signal) (pending : Table SignalId Word)
    (log : List Occurrence) : Prop where
  regular : Regular signals pending
  sized : ∀ id x, signals.get? id = some x → 1 ≤ x.width ∧ x.width ≤ 64
  waiting : ∀ id, Option.Rel (fun v write => ∃ x, signals.get? id = some x ∧
    v = Write.carried x.width write) (Table.get? pending id) (lastWrite id log)
  commits : ∀ earlier before after, earlier ++ [.committed before after] <+: log →
    CommitsLast earlier before after

namespace Recorded

variable {signals : Arena Signal} {pending pending' : Table SignalId Word} {log : List Occurrence}

omit [Coroutine π]

theorem empty : Recorded {} [] [] where
  regular := ⟨List.nodup_nil, by simp [Arena.get?], by simp [Table.get?]⟩
  sized := by simp [Arena.get?]
  waiting _ := .none
  commits := by simp

/-- A signal joins. It has no value and nothing waits for it. -/
theorem push (h : Recorded signals pending log) (name : String) {width : Nat} (pos : 1 ≤ width)
    (le : width ≤ 64) : Recorded (signals.push ⟨name, width, 0⟩) pending log := by
  have lookup : ∀ id x, (signals.push ⟨name, width, 0⟩).get? id = some x →
      x = ⟨name, width, 0⟩ ∨ signals.get? id = some x := by
    intro id x hx
    rw [Arena.get?_push] at hx
    split at hx
    · exact .inl (Option.some.inj hx).symm
    · exact .inr hx
  have grown := Arena.Extends.push signals ⟨name, width, 0⟩
  refine ⟨⟨h.regular.nodup, ?_, ?_⟩, ?_, ?_, h.commits⟩
  · intro id x hx
    rcases lookup id x hx with rfl | old
    · exact BitVec.zero_and
    · exact h.regular.fits id x old
  · intro id v hv
    obtain ⟨x, hx, fits⟩ := h.regular.queued id v hv
    exact ⟨x, grown hx, fits⟩
  · intro id x hx
    rcases lookup id x hx with rfl | old
    · exact ⟨pos, le⟩
    · exact h.sized id x old
  · intro id
    have waits := h.waiting id
    generalize Table.get? pending id = waiting, lastWrite id log = last at waits ⊢
    cases waits with
    | none => exact .none
    | some waits =>
      obtain ⟨x, hx, value⟩ := waits
      exact .some ⟨x, grown hx, value⟩

/-- A write to a signal is queued. -/
theorem write (h : Recorded signals pending log) {id : SignalId} {x : Signal} {w : Write}
    (hx : signals.get? id = some x) (fits : w.carried x.width &&& x.mask = w.carried x.width) :
    Recorded signals (Table.set pending id (w.carried x.width)) (log ++ [.queued id w]) where
  regular := h.regular.set hx fits
  sized := h.sized
  waiting target := by
    rw [Table.get?_set, lastWrite_queued]
    by_cases same : id = target
    · subst same
      rw [if_pos rfl, if_pos rfl]
      exact .some ⟨x, hx, rfl⟩
    · rw [if_neg same, if_neg same]
      exact h.waiting target
  commits earlier before after occurs := by
    rcases List.prefix_concat_iff.mp occurs with last | occurs
    · have := (List.append_inj' last rfl).2
      simp at this
    · exact h.commits earlier before after occurs

/-- Processes queue as much of what they write as there is room for. -/
theorem queue (h : Recorded signals pending log) {writes : List (SignalId × Word)}
    (hq : queue signals pending writes = some pending') :
    Recorded signals pending' (log ++ writes.map fun w => .queued w.1 (.fromProcess w.2)) := by
  induction writes generalizing pending log with
  | nil =>
    obtain rfl := Option.some.inj hq
    simpa using h
  | cons w rest ih =>
    obtain ⟨id, value⟩ := w
    rw [Simulator.queue, Option.bind_eq_bind, Option.bind_eq_some_iff] at hq
    obtain ⟨x, hx, hq⟩ := hq
    have first := h.write (w := .fromProcess value) hx (by
      rw [Write.carried, Signal.mask, BitVec.and_assoc, BitVec.and_self])
    have others := ih first hq
    rwa [List.append_assoc] at others

/-- A commit carries out the last writes. -/
theorem commit (h : Recorded signals pending log) :
    Recorded (commit signals pending) [] (log ++ [.committed signals (commit signals pending)]) where
  regular := h.regular.commit
  sized id x hx := by
    rw [get?_commit signals h.regular.nodup, Option.map_eq_some_iff] at hx
    obtain ⟨y, hy, rfl⟩ := hx
    exact h.sized id y hy
  waiting id := by
    rw [lastWrite_committed]
    exact .none
  commits earlier before after occurs := by
    rcases List.prefix_concat_iff.mp occurs with last | occurs
    · obtain ⟨rfl, last⟩ := List.append_inj' last rfl
      obtain ⟨rfl, rfl⟩ : before = signals ∧ after = Simulator.commit signals pending := by
        simpa using last
      intro id
      rw [get?_commit before h.regular.nodup]
      cases hx : before.get? id with
      | none => rfl
      | some x =>
        have waits := h.waiting id
        generalize Table.get? pending id = waiting, lastWrite id earlier = last at waits ⊢
        cases waits with
        | none => rfl
        | some waits =>
          obtain ⟨y, hy, rfl⟩ := waits
          obtain rfl := Option.some.inj (hx.symm.trans hy)
          rfl
    · exact h.commits earlier before after occurs

end Recorded

section Runs

variable {s t : Simulator π} {log : List Occurrence}

/-- All processes that are woken queue their writes, one after the other. -/
theorem Recorded.wake {signals : Arena Signal} {changed pending pending' : Table SignalId Word}
    {slots slots' : List (Slot π)} (h : Recorded signals pending log)
    (hw : wake signals changed pending slots = some (pending', slots')) :
    Recorded signals pending' (log ++ (slots.flatMap (written signals changed)).map fun w =>
      .queued w.1 (.fromProcess w.2)) := by
  induction slots generalizing pending slots' log with
  | nil =>
    obtain ⟨rfl, -⟩ := Prod.mk.inj (Option.some.inj hw)
    simpa using h
  | cons slot rest ih =>
    obtain ⟨writes, slot', queued, rest', woken, hq, hrest, -⟩ := wake_cons hw
    have same : written signals changed slot = writes := by
      simp [written, advance_eq_some.mpr woken]
    have others := ih (h.queue hq) hrest
    simpa [same] using others

theorem Recorded.delta (h : Recorded s.signals s.pending log) (hd : delta? s = some t) :
    Recorded t.signals t.pending (log ++ cycleLog s) := by
  have cycle : cycleLog s = .committed s.signals t.signals ::
      (s.slots.flatMap (written t.signals (changes s.signals s.pending))).map fun w =>
        .queued w.1 (.fromProcess w.2) := by
    rw [cycleLog, hd]
  obtain ⟨pending, slots, hw, rfl⟩ := delta?_eq_some hd
  rw [cycle, List.append_cons]
  exact h.commit.wake hw

/-- The log tells what the operation does to the signals, failed or not. -/
def Logs {α : Type} (x : SimM π α) (log : Simulator π → List Occurrence) : Prop :=
  ∀ s earlier, Recorded s.signals s.pending earlier →
    Recorded (stateAfter x s).signals (stateAfter x s).pending (earlier ++ log s)

namespace Logs

variable {α β : Type}

theorem settle : Logs (Simulator.settle : SimM π Nat) settleLog := by
  intro s earlier h
  have step : ∀ cs (s t : Simulator π), Recorded s.signals s.pending (earlier ++ cs.flatMap cycleLog) →
      True → delta? s = some t →
      Recorded t.signals t.pending (earlier ++ (cs ++ [s]).flatMap cycleLog) := by
    intro cs s t h _ hd
    simpa using h.delta hd
  exact settle_traced (P := fun cs t => Recorded t.signals t.pending (earlier ++ cs.flatMap cycleLog))
    step (fun _ _ _ h => h) [] (by simpa using h) fun _ _ => trivial

omit [Coroutine π] in
theorem andThen {x : SimM π α} {y : α → SimM π β} {first later : Simulator π → List Occurrence}
    (hx : Logs x first) (hy : ∀ a, Logs (y a) later) :
    Logs (x >>= y) (logThen x first later) := by
  intro s earlier h
  have after := hx s earlier h
  cases hs : x s with
  | ok a t =>
    rw [stateAfter_ok hs] at after
    have rest := hy a t _ after
    rwa [stateAfter, bind_of_ok hs, logThen, hs, ← List.append_assoc]
  | error e t =>
    rw [stateAfter_error hs] at after
    rwa [stateAfter_error (bind_of_error hs), logThen, hs, List.append_nil]

omit [Coroutine π] in
theorem map {x : SimM π α} {log : Simulator π → List Occurrence} (hx : Logs x log) (f : α → β) :
    Logs (x >>= fun a => pure (f a)) log := by
  intro s earlier h
  rw [stateAfter_map]
  exact hx s earlier h

omit [Coroutine π] in
theorem set (id : SignalId) (v : Word) : Logs (Simulator.set id v : SimM π Unit) (setLog id v) := by
  intro s earlier h
  rw [setLog, stateAfter]
  rcases set_cases id v s with ⟨e, refused⟩ | ⟨x, hx, fits, done⟩
  · rw [refused, List.append_nil]
    exact h
  · rw [done]
    exact h.write (w := .fromTestbench v) hx fits

theorem tick (clk : SignalId) : Logs (Simulator.tick clk : SimM π Unit) (Operation.tick clk).log := by
  refine andThen (set clk 1) fun _ => andThen settle fun _ => andThen (set clk 0) fun _ => ?_
  exact settle.map fun _ => ()

omit [Coroutine π] in
theorem addSignal (name : String) (width : Nat) :
    Logs (Simulator.addSignal name width : SimM π SignalId) fun _ => [] := by
  intro s earlier h
  have hadd := addSignal_run name width s
  split at hadd
  · rw [stateAfter_error hadd, List.append_nil]
    exact h
  · rename_i valid
    rw [stateAfter_ok hadd, List.append_nil]
    exact h.push name (by omega) (by omega)

end Logs

theorem Recorded.apply (h : Recorded s.signals s.pending log) (o : Operation π) :
    Recorded (o.apply s).signals (o.apply s).pending (log ++ o.log s) := by
  cases o with
  | addSignal name width => exact Logs.addSignal name width s log h
  | addProcess process =>
    rw [Operation.log, List.append_nil]
    exact h
  | set id v => exact Logs.set id v s log h
  | settle => exact Logs.settle s log h
  | tick clk => exact Logs.tick clk s log h
  | limit n =>
    rw [Operation.log, List.append_nil]
    exact h

/-- All operations of a run are recorded. -/
theorem Recorded.run (h : Recorded s.signals s.pending log) (operations : List (Operation π)) :
    Recorded (run operations s).signals (run operations s).pending
      (log ++ history operations s) := by
  induction operations generalizing s log with
  | nil => simpa [Simulator.run, history] using h
  | cons o rest ih =>
    have rest := ih (h.apply o)
    rwa [List.append_assoc] at rest

end Runs

/-- In every simulator that operations lead to, signals have widths that words have room for, and
hold and wait for values that fit. An operation that adds a signal or writes one changes nothing
where it is refused. What waits for a signal is the last write that was queued for it since the
last commit, and every commit has given each written signal this value: what the testbench
has set, or as much as there was room for of what a process has written. -/
theorem values_stay_within_widths (operations : List (Operation π)) :
    let s := run operations {}
    (∀ id x, s.signals.get? id = some x → 1 ≤ x.width ∧ x.width ≤ 64 ∧ x.value ≤ x.mask) ∧
    (∀ p ∈ s.pending, ∃ x, s.signals.get? p.1 = some x ∧ p.2 ≤ x.mask) ∧
    (∀ name width e t, addSignal name width s = .error e t → t = s) ∧
    (∀ id v e t, set id v s = .error e t → t = s) ∧
    (∀ id, Option.Rel (fun v write => ∃ x, s.signals.get? id = some x ∧
      v = Write.carried x.width write) (Table.get? s.pending id)
      (lastWrite id (history operations {}))) ∧
    ∀ earlier before after, earlier ++ [.committed before after] <+: history operations {} →
      CommitsLast earlier before after := by
  intro s
  have recorded : Recorded s.signals s.pending (history operations {}) :=
    Recorded.run (s := {}) .empty operations
  refine ⟨?_, ?_, ?_, ?_, recorded.waiting, recorded.commits⟩
  · intro id x hx
    obtain ⟨pos, le⟩ := recorded.sized id x hx
    exact ⟨pos, le, Word.le_of_fits (recorded.regular.fits id x hx)⟩
  · rintro ⟨id, v⟩ hp
    obtain ⟨x, hx, fits⟩ := recorded.regular.queued id v (Table.get?_of_mem recorded.regular.nodup hp)
    exact ⟨x, hx, Word.le_of_fits fits⟩
  · intro name width e t refused
    have hadd := addSignal_run name width s
    split at hadd
    · exact (EStateM.Result.error.inj (refused.symm.trans hadd)).2
    · cases refused.symm.trans hadd
  · intro id v e t refused
    rcases set_cases id v s with ⟨e', same⟩ | ⟨x, -, -, done⟩
    · exact (EStateM.Result.error.inj (refused.symm.trans same)).2
    · cases refused.symm.trans done

end Simulator

end NetBridge.Simulation
