import Mathlib.Data.List.Forall2
import Mathlib.Data.Option.Basic
import NetBridge.Proofs.Simulation.Following

/-! # Simulators in another order

Processes see committed values only, and a commit carries out every write to a signal
whatever was written to others. So two simulators stay in step that differ in the order of
some of their processes and in the order in which writes to different signals were queued,
as long as no two of these processes write to one signal in one delta cycle. -/
namespace NetBridge.Simulation.Simulator

open Table (Alike)

variable {π : Type} {signals : Arena Signal} {pending pending' changed changed' : Table SignalId Word}
  {writes writes' : List (SignalId × Word)}

/-- A commit carries out the writes to a signal one after the other. -/
theorem get?_commit_filter (signals : Arena Signal) (pending : Table SignalId Word)
    (id : SignalId) : (commit signals pending).get? id = (signals.get? id).map fun s =>
      (pending.filter fun p => decide (p.1 = id)).foldl (fun s p => { s with value := p.2 }) s := by
  induction pending generalizing signals with
  | nil => simp [commit]
  | cons p rest ih =>
    rw [commit, List.foldl_cons]
    refine (ih _).trans ?_
    rw [Arena.get?_modify]
    by_cases h : p.1 = id
    · rw [if_pos h, Option.map_map, List.filter_cons_of_pos (by simpa using h)]
      rfl
    · rw [if_neg h, List.filter_cons_of_neg (by simpa using h)]

theorem commit_alike (h : Alike pending pending') : commit signals pending' = commit signals pending :=
  Arena.eq_of_get? fun id => by rw [get?_commit_filter, get?_commit_filter, h id]

theorem fires_alike (h : Alike changed changed') (wait : Wait) :
    fires signals changed' wait = fires signals changed wait := by
  cases wait <;> simp only [fires, h.contains]

/-- A write as it is queued. -/
def cut (signals : Arena Signal) (w : SignalId × Word) : SignalId × Word :=
  (w.1, w.2 &&& ((signals.get? w.1).map Signal.mask).getD 0)

/-- Writes are queued if all signals are there. -/
theorem queue_ok (h : ∀ w ∈ writes, signals.contains w.1 = true) : queue signals pending writes =
    some ((writes.map (cut signals)).foldl (fun t p => Table.set t p.1 p.2) pending) := by
  induction writes generalizing pending with
  | nil => rfl
  | cons w rest ih =>
    obtain ⟨first, others⟩ := List.forall_mem_cons.mp h
    obtain ⟨s, hs⟩ := Arena.exists_get? first
    rw [queue, hs, Option.bind_eq_bind, Option.bind_some, ih others, List.map_cons,
      List.foldl_cons]
    simp only [cut, hs, Option.map_some, Option.getD_some]

theorem queue_unallocated {w : SignalId × Word} (hw : w ∈ writes)
    (h : signals.contains w.1 = false) : queue signals pending writes = none := by
  induction writes generalizing pending with
  | nil => cases hw
  | cons v rest ih =>
    rw [queue, Option.bind_eq_bind, Option.bind_eq_none_iff]
    intro s hs
    rcases List.mem_cons.mp hw with rfl | hw
    · rw [Arena.contains_of_get? hs] at h
      cases h
    · exact ih hw

theorem queue_alike (h : Alike pending pending') (hw : Alike writes writes') :
    Option.Rel Alike (queue signals pending writes) (queue signals pending' writes') := by
  by_cases there : ∀ w ∈ writes, signals.contains w.1 = true
  · rw [queue_ok there, queue_ok fun w h' => there w (hw.mem.mp h')]
    exact .some (h.sets (hw.map _))
  · push Not at there
    obtain ⟨w, mem, absent⟩ := there
    have absent := eq_false_of_ne_true absent
    rw [queue_unallocated mem absent, queue_unallocated (hw.mem.mpr mem) absent]
    exact .none

theorem queue_append (signals : Arena Signal) (pending : Table SignalId Word)
    (xs ys : List (SignalId × Word)) : queue signals pending (xs ++ ys) =
      (queue signals pending xs).bind fun pending => queue signals pending ys := by
  induction xs generalizing pending with
  | nil => rfl
  | cons x rest ih =>
    simp only [List.cons_append, queue, Option.bind_eq_bind, ih, Option.bind_assoc]

variable [Coroutine π]

/-- What a process writes if its wait fires, and where it gets to. -/
def advance (signals : Arena Signal) (changed : Table SignalId Word) (slot : Slot π) :
    Option (List (SignalId × Word) × Slot π) :=
  if fires signals changed slot.wait then
    (Coroutine.resume slot.process (value? signals)).map fun r => (r.writes, ⟨r.process, r.wait⟩)
  else some ([], slot)

theorem advance_eq_some {slot slot' : Slot π} :
    advance signals changed slot = some (writes, slot') ↔ Woken signals changed slot writes slot' := by
  rw [advance]
  constructor
  · intro h
    split at h
    · rename_i fired
      obtain ⟨r, hr, heq⟩ := Option.map_eq_some_iff.mp h
      obtain ⟨rfl, rfl⟩ := Prod.mk.inj heq
      exact .awake fired hr
    · rename_i quiet
      obtain ⟨rfl, rfl⟩ := Prod.mk.inj (Option.some.inj h)
      exact .asleep (by simpa using quiet)
  · rintro (quiet | ⟨fired, hr⟩)
    · rw [quiet, if_neg Bool.false_ne_true]
    · rw [if_pos fired, hr, Option.map_some]

theorem wake_step (slot : Slot π) (rest : List (Slot π)) :
    wake signals changed pending (slot :: rest) =
      (advance signals changed slot).bind fun step => (queue signals pending step.1).bind
        fun pending => (wake signals changed pending rest).map fun r => (r.1, step.2 :: r.2) := by
  rw [wake, advance]
  split
  · cases Coroutine.resume slot.process (value? signals) <;> simp [Option.map_eq_bind]
  · simp [Option.map_eq_bind, queue]

/-- All processes advance at first, and then everything that they write is queued. -/
theorem wake_eq (signals : Arena Signal) (changed pending : Table SignalId Word)
    (slots : List (Slot π)) : wake signals changed pending slots =
      (slots.mapM (advance signals changed)).bind fun steps =>
        (queue signals pending (steps.flatMap Prod.fst)).map (·, steps.map Prod.snd) := by
  induction slots generalizing pending with
  | nil => rfl
  | cons slot rest ih =>
    rw [List.mapM_cons, wake_step]
    cases advance signals changed slot with
    | none => rfl
    | some step =>
      cases hsteps : rest.mapM (advance signals changed) <;>
        simp [ih, hsteps, queue_append, Option.map_bind, Function.comp_def]

/-- A slot writes to the signal in the delta cycle that begins. -/
def WritesTo (s : Simulator π) (slot : Slot π) (id : SignalId) : Prop :=
  ∃ writes slot', Woken (commit s.signals s.pending) (changes s.signals s.pending) slot writes slot' ∧
    id ∈ Table.keys writes

/-- In the delta cycle that begins, no two of the slots after the first `n` write to one signal. -/
def SingleWriters (n : Nat) (s : Simulator π) : Prop :=
  (s.slots.drop n).Pairwise fun a b => ∀ id, WritesTo s a id → ¬ WritesTo s b id

section Traversal

variable {α β : Type} {f : α → Option β} {xs ys : List α}

theorem mapM_some {g : α → β} (h : ∀ x ∈ xs, f x = some (g x)) : xs.mapM f = some (xs.map g) := by
  induction xs with
  | nil => rfl
  | cons x rest ih =>
    obtain ⟨first, others⟩ := List.forall_mem_cons.mp h
    rw [List.mapM_cons, first, ih others]
    rfl

theorem mapM_none {x : α} (hx : x ∈ xs) (h : f x = none) : xs.mapM f = none := by
  induction xs with
  | nil => cases hx
  | cons y rest ih =>
    rw [List.mapM_cons]
    rcases List.mem_cons.mp hx with rfl | hx
    · rw [h]
      rfl
    · rw [ih hx]
      cases f y <;> rfl

/-- Whether a traversal fails does not depend on the order, and neither does what it
makes of each element. -/
theorem mapM_perm (perm : xs.Perm ys) (f : α → Option β) (d : α → β) :
    (xs.mapM f = none ∧ ys.mapM f = none) ∨
      ∃ g, (∀ x ∈ xs, f x = some (g x)) ∧ xs.mapM f = some (xs.map g) ∧
        ys.mapM f = some (ys.map g) := by
  by_cases fails : ∃ x ∈ xs, f x = none
  · obtain ⟨x, hx, failed⟩ := fails
    exact .inl ⟨mapM_none hx failed, mapM_none (perm.mem_iff.mp hx) failed⟩
  · have succeeds : ∀ x ∈ xs, f x = some ((f x).getD (d x)) := by
      intro x hx
      cases h : f x with
      | none => exact absurd ⟨x, hx, h⟩ fails
      | some y => rfl
    exact .inr ⟨_, succeeds, mapM_some succeeds,
      mapM_some fun y hy => succeeds y (perm.mem_iff.mpr hy)⟩

theorem rel_map {γ δ : Type} {R : α → β → Prop} {S : γ → δ → Prop} {x : Option α} {y : Option β}
    (h : Option.Rel R x y) {f : α → γ} {g : β → δ} (maps : ∀ a b, R a b → S (f a) (g b)) :
    Option.Rel S (x.map f) (y.map g) := by
  cases h with
  | some related => exact .some (maps _ _ related)
  | none => exact .none

end Traversal

variable {ι : Type} {n : Nat} {order order' : List ι} {s s' : Simulator π}

omit [Coroutine π] in
/-- Two simulators whose first `n` processes are the same and the others too, but for the
order in which they stand. The queues may hold writes to different signals in different
orders. -/
structure Twin (n : Nat) (order order' : List ι) (s s' : Simulator π) : Prop where
  signals : s'.signals = s.signals
  pending : Alike s.pending s'.pending
  slots : ∃ earlier slot, earlier.length = n ∧ s.slots = earlier ++ order.map slot ∧
    s'.slots = earlier ++ order'.map slot
  maxDeltas : s'.maxDeltas = s.maxDeltas
  totalDeltas : s'.totalDeltas = s.totalDeltas

theorem delta?_eq (s : Simulator π) : delta? s =
    (wake (commit s.signals s.pending) (changes s.signals s.pending) [] s.slots).map fun r =>
      { s with signals := commit s.signals s.pending, pending := r.1, slots := r.2 } :=
  Option.map_eq_bind.symm

theorem advance_alike (h : Alike changed changed') (signals : Arena Signal) :
    (advance signals changed' : Slot π → _) = advance signals changed := by
  funext slot
  rw [advance, advance, fires_alike h]

/-- A delta cycle leaves twins, or is possible in neither of them. -/
theorem Twin.delta (perm : order.Perm order') (twin : Twin n order order' s s')
    (single : s.SingleWriters n) :
    Option.Rel (Twin n order order') (delta? s) (delta? s') := by
  obtain ⟨earlier, slot, hn, hs, hs'⟩ := twin.slots
  have signals_eq : commit s'.signals s'.pending = commit s.signals s.pending := by
    rw [twin.signals, commit_alike twin.pending]
  have changed : Alike (changes s.signals s.pending) (changes s'.signals s'.pending) := by
    rw [twin.signals]
    exact twin.pending.filter _
  have later : s.slots.drop n = order.map slot := by rw [hs, ← hn, List.drop_left]
  rw [SingleWriters, later] at single
  -- Both wake against one set of changes and values, so that a slot gets to the same place
  -- wherever it stands; what is left to show is that the queues are alike.
  rw [delta?_eq, delta?_eq, wake_eq, wake_eq, signals_eq, advance_alike changed]
  have shuffled : s.slots.Perm s'.slots := by
    rw [hs, hs']
    exact (perm.map slot).append_left earlier
  rcases mapM_perm shuffled (advance (commit s.signals s.pending) (changes s.signals s.pending))
      (fun slot => ([], slot)) with ⟨fails, fails'⟩ | ⟨g, advances, steps, steps'⟩
  · rw [fails, fails']
    exact .none
  · have apart : (order.map slot).Pairwise fun a b =>
        ∀ id ∈ Table.keys (g a).1, id ∉ Table.keys (g b).1 := by
      refine single.imp_of_mem fun {a b} ha hb apart id hid hid' => ?_
      rw [← later] at ha hb
      exact apart id ⟨_, _, advance_eq_some.mp (advances a (List.mem_of_mem_drop ha)), hid⟩
        ⟨_, _, advance_eq_some.mp (advances b (List.mem_of_mem_drop hb)), hid'⟩
    have written : Alike ((s.slots.map g).flatMap Prod.fst) ((s'.slots.map g).flatMap Prod.fst) := by
      simp only [hs, hs', List.map_append, List.flatMap_append, List.map_map, List.flatMap_map]
      exact (Alike.refl _).append (.flatMap_perm perm (List.pairwise_map.mp apart))
    rw [steps, steps', Option.bind_some, Option.bind_some, Option.map_map, Option.map_map]
    refine rel_map (queue_alike (.refl []) written) fun q q' alike => ⟨rfl, alike,
      ⟨earlier.map (Prod.snd ∘ g), Prod.snd ∘ g ∘ slot, ?_, ?_, ?_⟩, twin.maxDeltas, twin.totalDeltas⟩
    · rw [List.length_map, hn]
    · simp [hs]
    · simp [hs']

/-- The states in which the delta cycles of a settling begin. -/
def cycles : Nat → Simulator π → List (Simulator π)
  | 0, _ => []
  | budget + 1, s => if s.pending.isEmpty then [] else s :: s.delta?.elim [] (cycles budget)

/-- Two settlings have one result, and leave twins. -/
inductive Settled (n : Nat) (order order' : List ι) :
    EStateM.Result Error (Simulator π) Nat → EStateM.Result Error (Simulator π) Nat → Prop
  | ok {s s' : Simulator π} (count : Nat) : Twin n order order' s s' →
    Settled n order order' (.ok count s) (.ok count s')
  | error {s s' : Simulator π} (e : Error) : Twin n order order' s s' →
    Settled n order order' (.error e s) (.error e s')

theorem Twin.runDeltas (perm : order.Perm order') (twin : Twin n order order' s s')
    {budget count : Nat} (single : ∀ t ∈ cycles budget s, t.SingleWriters n) :
    Settled n order order' (runDeltas budget count s) (runDeltas budget count s') := by
  induction budget generalizing count s s' with
  | zero =>
    rw [Simulator.runDeltas, bind_of_ok get_run, bind_of_ok get_run, twin.pending.isEmpty]
    split
    · exact .ok count twin
    · rw [twin.maxDeltas]
      exact .error _ twin
  | succ budget ih =>
    rw [Simulator.runDeltas, bind_of_ok get_run, bind_of_ok get_run, twin.pending.isEmpty]
    rw [cycles] at single
    split
    · exact .ok count twin
    · rename_i busy
      rw [if_neg busy] at single
      obtain ⟨now, later⟩ := List.forall_mem_cons.mp single
      have cycle := twin.delta perm now
      generalize delta? s = d at cycle later ⊢
      generalize delta? s' = d' at cycle ⊢
      cases cycle with
      | none => exact .error _ twin
      | some twin => exact ih twin later

theorem settle_eq (s : Simulator π) : settle s = match runDeltas s.maxDeltas 0 s with
    | .ok count t => .ok count { t with totalDeltas := t.totalDeltas + count }
    | .error e t => .error e t := by
  rw [settle, bind_of_ok get_run]
  cases h : runDeltas s.maxDeltas 0 s with
  | ok count t => exact bind_of_ok h
  | error e t => exact bind_of_error h

theorem settle_of_ok {s t : Simulator π} {k : Nat} (h : runDeltas s.maxDeltas 0 s = .ok k t) :
    settle s = .ok k { t with totalDeltas := t.totalDeltas + k } := by
  rw [settle_eq, h]

theorem settle_of_error {s t : Simulator π} {e : Error}
    (h : runDeltas s.maxDeltas 0 s = .error e t) : settle s = .error e t := by
  rw [settle_eq, h]

theorem Twin.settle (perm : order.Perm order') (twin : Twin n order order' s s')
    (single : ∀ t ∈ cycles s.maxDeltas s, t.SingleWriters n) :
    Settled n order order' (settle s) (settle s') := by
  have deltas : Settled n order order' (Simulator.runDeltas s.maxDeltas 0 s)
      (Simulator.runDeltas s.maxDeltas 0 s') := twin.runDeltas perm single
  rw [settle_eq, settle_eq, twin.maxDeltas]
  generalize Simulator.runDeltas s.maxDeltas 0 s = r at deltas ⊢
  generalize Simulator.runDeltas s.maxDeltas 0 s' = r' at deltas ⊢
  cases deltas with
  | ok count twin =>
    exact .ok count { twin with totalDeltas := congrArg (· + count) twin.totalDeltas }
  | error e twin => exact .error e twin

theorem Settled.twin {t t' : Simulator π}
    (h : Settled n order order' (Simulator.settle t) (Simulator.settle t')) :
    Twin n order order' (stateAfter Simulator.settle t) (stateAfter Simulator.settle t') := by
  rw [stateAfter, stateAfter]
  generalize Simulator.settle t = r at h ⊢
  generalize Simulator.settle t' = r' at h ⊢
  cases h with
  | ok _ twin => exact twin
  | error _ twin => exact twin

omit [Coroutine π] in
theorem writes_eq (ws : List (SignalId × Word)) (s : Simulator π) : ws.foldl write s =
    { s with
      pending := (ws.filter (accepts s.signals)).foldl (fun t p => Table.set t p.1 p.2) s.pending } := by
  induction ws generalizing s with
  | nil => rfl
  | cons w rest ih =>
    rw [List.foldl_cons, ih, write_of_accepts]
    by_cases h : accepts s.signals w = true <;> simp [h]

/-- The same writes to distinct signals in another order. -/
def Shuffled (ws ws' : List (SignalId × Word)) : Prop := ws.Perm ws' ∧ (Table.keys ws).Nodup

omit [Coroutine π] in
theorem Twin.write (twin : Twin n order order' s s') {ws ws' : List (SignalId × Word)}
    (shuffled : Shuffled ws ws') :
    Twin n order order' (ws.foldl Simulator.write s) (ws'.foldl Simulator.write s') := by
  have writes : Alike ws ws' := .of_perm shuffled.1 shuffled.2
  rw [writes_eq, writes_eq, twin.signals]
  exact ⟨rfl, twin.pending.sets (writes.filter _), twin.slots, twin.maxDeltas, twin.totalDeltas⟩

/-- What the settlings of a run come to. Before each of them the testbench writes; it goes
on after a settling that has failed. -/
def settlings : Simulator π → List (List (SignalId × Word)) →
    List (EStateM.Result Error (Simulator π) Nat)
  | _, [] => []
  | s, ws :: rest =>
    let t := ws.foldl write s
    settle t :: settlings (stateAfter settle t) rest

/-- The states in which the delta cycles of a run begin. -/
def begun : Simulator π → List (List (SignalId × Word)) → List (Simulator π)
  | _, [] => []
  | s, ws :: rest =>
    let t := ws.foldl write s
    cycles t.maxDeltas t ++ begun (stateAfter settle t) rest

/-- Twins settle alike for as long as a run lasts. -/
theorem Twin.settlings (perm : order.Perm order') (twin : Twin n order order' s s')
    {rounds rounds' : List (List (SignalId × Word))} (shuffled : List.Forall₂ Shuffled rounds rounds')
    (single : ∀ t ∈ begun s rounds, t.SingleWriters n) :
    List.Forall₂ (Settled n order order') (settlings s rounds) (settlings s' rounds') := by
  induction shuffled generalizing s s' with
  | nil => exact .nil
  | cons first _ ih =>
    obtain ⟨now, later⟩ := List.forall_mem_append.mp single
    have settled := (twin.write first).settle perm now
    exact .cons settled (ih settled.twin later)

end NetBridge.Simulation.Simulator
