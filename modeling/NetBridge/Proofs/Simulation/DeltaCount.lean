import Mathlib.Algebra.GroupWithZero.Nat
import NetBridge.Proofs.Simulation.DeltaLimit
import NetBridge.Proofs.Simulation.History

/-! # The count of delta cycles

A simulator adds the cycles of a settling to its count when the settling has succeeded. The
cycles of one that fails are carried out, too, but nobody counts them: neither where the
testbench has asked for the settling nor where a clock pulse has. So the count falls short of the
commits of a run by just these cycles. -/
namespace NetBridge.Simulation

def Occurrence.isCommit : Occurrence → Bool
  | queued _ _ => false
  | committed _ _ => true

/-- How many delta cycles a history tells of. -/
def commitCount (log : List Occurrence) : Nat := log.countP Occurrence.isCommit

@[simp] theorem commitCount_append (log later : List Occurrence) :
    commitCount (log ++ later) = commitCount log + commitCount later :=
  List.countP_append

namespace Simulator

variable {π : Type} [Coroutine π] {s t u : Simulator π} {n : Nat}

theorem commitCount_cycleLog (hd : delta? s = some t) : commitCount (cycleLog s) = 1 := by
  rw [cycleLog, hd, commitCount, List.countP_cons_of_pos rfl, List.countP_map, Nat.add_eq_right,
    List.countP_eq_zero]
  exact fun _ _ => Bool.false_ne_true

theorem commits_cycle (budget : Nat) (busy : s.pending ≠ []) (hd : delta? s = some t) :
    commits (budget + 1) s = s :: commits budget t := by
  rw [commits, if_neg (mt List.isEmpty_iff.mp busy), hd]

theorem commits_of_ended (budget : Nat) (ended : s.pending = [] ∨ delta? s = none) :
    commits budget s = [] := by
  cases budget with
  | zero => rfl
  | succ budget =>
    rw [commits]
    rcases ended with idle | stuck
    · exact if_pos (List.isEmpty_iff.mpr idle)
    · rw [stuck, ite_self]

namespace Busy

theorem commitCount_add (h : Busy s n t) (budget : Nat) :
    commitCount ((commits (n + budget) s).flatMap cycleLog) =
      n + commitCount ((commits budget t).flatMap cycleLog) := by
  induction n generalizing s with
  | zero =>
    obtain rfl := zero_iff.mp h
    rw [Nat.zero_add, Nat.zero_add]
  | succ n ih =>
    obtain ⟨busy, u, hu, rest⟩ := succ_iff.mp h
    rw [Nat.succ_add, commits_cycle _ busy hu, List.flatMap_cons, commitCount_append,
      commitCount_cycleLog hu, ih rest]
    omega

/-- Cycles that use up the limit, or after which there is none that can follow, are all that a
settling carries out. -/
theorem commitCount_settleLog (h : Busy s n t) (within : n ≤ s.maxDeltas)
    (last : n = s.maxDeltas ∨ t.pending = [] ∨ delta? t = none) :
    commitCount (settleLog s) = n := by
  obtain ⟨spare, limit⟩ := Nat.exists_eq_add_of_le within
  have ended : commits spare t = [] := by
    rcases last with full | ended
    · obtain rfl : spare = 0 := by omega
      rfl
    · exact commits_of_ended spare ended
  rw [settleLog, limit, h.commitCount_add spare, ended]
  rfl

/-- Delta cycles do not count themselves. -/
theorem totalDeltas (h : Busy s n t) : t.totalDeltas = s.totalDeltas := by
  induction n generalizing s with
  | zero => rw [zero_iff.mp h]
  | succ n ih =>
    obtain ⟨-, u, hu, rest⟩ := succ_iff.mp h
    obtain ⟨pending, slots, -, rfl⟩ := delta?_eq_some hu
    rw [ih rest]

end Busy

theorem settle_ok_counts (h : settle s = .ok n t) :
    t.totalDeltas = s.totalDeltas + commitCount (settleLog s) := by
  obtain ⟨within, u, after, rfl⟩ := settle_eq_ok_iff.mp h
  rw [after.commitCount_settleLog within (.inr (.inl after.quiet)), after.totalDeltas]

/-- A settling that fails has carried out delta cycles up to the limit, or up to one that cannot
be carried out, and has counted none of them. -/
theorem settle_error_counts {e : Error} (h : settle s = .error e t) :
    t.totalDeltas = s.totalDeltas ∧ Busy s (commitCount (settleLog s)) t ∧
      (e = .deltaLimit s.maxDeltas ∧ commitCount (settleLog s) = s.maxDeltas ∨
        e = .unallocated ∧ commitCount (settleLog s) < s.maxDeltas ∧ delta? t = none) := by
  rcases settle_eq_error_iff.mp h with ⟨limit, run, -⟩ | ⟨missing, k, early, run, -, stuck⟩
  · have all := run.commitCount_settleLog (Nat.le_refl _) (.inl rfl)
    exact ⟨run.totalDeltas, all.symm ▸ run, .inl ⟨limit, all⟩⟩
  · have all := run.commitCount_settleLog early.le (.inr (.inr stuck))
    exact ⟨run.totalDeltas, all.symm ▸ run, .inr ⟨missing, all.symm ▸ early, stuck⟩⟩

/-- The cycles of a settling that the simulator does not count. -/
def uncounted (s : Simulator π) : Nat :=
  match settle s with
  | .ok _ _ => 0
  | .error _ _ => commitCount (settleLog s)

theorem uncounted_of_ok (h : settle s = .ok n t) : uncounted s = 0 := by
  rw [uncounted, h]

theorem uncounted_of_error {e : Error} (h : settle s = .error e t) :
    uncounted s = commitCount (settleLog s) := by
  rw [uncounted, h]

/-- There are none if it succeeds or fails before its first cycle. -/
theorem uncounted_eq_zero_iff : uncounted s = 0 ↔
    ∀ e t, settle s = .error e t → s.maxDeltas = 0 ∨ delta? s = none := by
  constructor
  · intro zero e t h
    rw [uncounted_of_error h] at zero
    obtain ⟨-, run, ⟨-, all⟩ | ⟨-, -, stuck⟩⟩ := settle_error_counts h
    · exact .inl (all.symm.trans zero)
    · rw [zero] at run
      exact .inr (Busy.zero_iff.mp run ▸ stuck)
  · -- A failed settling with a cycle behind it would have had a limit and a first cycle.
    intro early
    cases h : settle s with
    | ok n t => exact uncounted_of_ok h
    | error e t =>
      obtain ⟨-, run, last⟩ := settle_error_counts h
      rw [uncounted_of_error h]
      generalize commitCount (settleLog s) = n at run last
      cases n with
      | zero => rfl
      | succ n =>
        obtain ⟨-, u, hu, -⟩ := Busy.succ_iff.mp run
        rcases early e t h with idle | stuck
        · omega
        · cases stuck.symm.trans hu

/-- What `later` lists of the simulator that an operation leads to, if it succeeds. -/
def ifDone {α β : Type} (x : SimM π α) (later : Simulator π → List β) (s : Simulator π) : List β :=
  match x s with
  | .ok _ t => later t
  | .error _ _ => []

/-- The simulators that an operation begins to settle. -/
def Operation.starts : Operation π → Simulator π → List (Simulator π)
  | settle => fun s => [s]
  | tick clk =>
    ifDone (Simulator.set clk 1) fun high =>
      high :: ifDone Simulator.settle (ifDone (Simulator.set clk 0) fun low => [low]) high
  | addSignal _ _ | addProcess _ | set _ _ | limit _ => fun _ => []

/-- The simulators that a run begins to settle. -/
def starts : List (Operation π) → Simulator π → List (Simulator π)
  | [], _ => []
  | o :: rest, s => o.starts s ++ starts rest (o.apply s)

/-- From `s` to `t` the count has gone up by the commits of the log, less the cycles that the
settlings which have begun do not count. -/
def Tally (s t : Simulator π) (log : List Occurrence) (begun : List (Simulator π)) : Prop :=
  t.totalDeltas + (begun.map uncounted).sum = s.totalDeltas + commitCount log

namespace Tally

variable {log later : List Occurrence} {begun begun' : List (Simulator π)}

theorem trans (h : Tally s t log begun) (h' : Tally t u later begun') :
    Tally s u (log ++ later) (begun ++ begun') := by
  rw [Tally] at h h' ⊢
  rw [List.map_append, List.sum_append, commitCount_append]
  omega

theorem of_counts (same : t.totalDeltas = s.totalDeltas) : Tally s t [] [] := by
  rw [Tally, same]
  rfl

end Tally

/-- An operation, failed or not, counts the commits of its log, less those of its settlings that
fail. -/
def Counts {α : Type} (x : SimM π α) (log : Simulator π → List Occurrence)
    (begun : Simulator π → List (Simulator π)) : Prop :=
  ∀ s, Tally s (stateAfter x s) (log s) (begun s)

namespace Counts

variable {α β : Type}

theorem settle : Counts (Simulator.settle : SimM π Nat) settleLog fun s => [s] := by
  intro s
  rw [Tally, List.map_singleton, List.sum_singleton]
  cases h : Simulator.settle s with
  | ok n t => rw [stateAfter_ok h, uncounted_of_ok h, settle_ok_counts h, Nat.add_zero]
  | error e t => rw [stateAfter_error h, uncounted_of_error h, (settle_error_counts h).1]

theorem set (id : SignalId) (v : Word) :
    Counts (Simulator.set id v : SimM π Unit) (setLog id v) fun _ => [] := by
  intro s
  rw [setLog, stateAfter]
  rcases set_cases id v s with ⟨e, refused⟩ | ⟨x, -, -, done⟩
  · rw [refused]
    rfl
  · rw [done]
    rfl

theorem andThen {x : SimM π α} {y : α → SimM π β} {first later : Simulator π → List Occurrence}
    {begun begun' : Simulator π → List (Simulator π)} (hx : Counts x first begun)
    (hy : ∀ a, Counts (y a) later begun') :
    Counts (x >>= y) (logThen x first later) fun s => begun s ++ ifDone x begun' s := by
  intro s
  have after := hx s
  cases h : x s with
  | ok a t =>
    rw [stateAfter_ok h] at after
    rw [stateAfter, bind_of_ok h]
    simp only [logThen, ifDone, h]
    exact after.trans (hy a t)
  | error e t =>
    rw [stateAfter_error h] at after
    rw [stateAfter_error (bind_of_error h)]
    simp only [logThen, ifDone, h]
    exact after.trans (.of_counts rfl)

theorem map {x : SimM π α} {log : Simulator π → List Occurrence}
    {begun : Simulator π → List (Simulator π)} (hx : Counts x log begun) (f : α → β) :
    Counts (x >>= fun a => pure (f a)) log begun := by
  intro s
  rw [stateAfter_map]
  exact hx s

theorem tick (clk : SignalId) : Counts (Simulator.tick clk : SimM π Unit) (Operation.tick clk).log
    (Operation.tick clk).starts := by
  refine andThen (set clk 1) fun _ => andThen settle fun _ => andThen (set clk 0) fun _ => ?_
  exact settle.map fun _ => ()

theorem addSignal (name : String) (width : Nat) :
    Counts (Simulator.addSignal name width : SimM π SignalId) (fun _ => []) fun _ => [] := by
  intro s
  have added := addSignal_run name width s
  split at added
  · rw [stateAfter_error added]
    exact .of_counts rfl
  · rw [stateAfter_ok added]
    exact .of_counts rfl

end Counts

theorem Operation.tally (o : Operation π) (s : Simulator π) :
    Tally s (o.apply s) (o.log s) (o.starts s) := by
  cases o with
  | addSignal name width => exact Counts.addSignal name width s
  | addProcess process => exact .of_counts rfl
  | set id v => exact Counts.set id v s
  | settle => exact Counts.settle s
  | tick clk => exact Counts.tick clk s
  | limit n => exact .of_counts rfl

theorem run_tally (operations : List (Operation π)) (s : Simulator π) :
    Tally s (run operations s) (history operations s) (starts operations s) := by
  induction operations generalizing s with
  | nil => exact .of_counts rfl
  | cons o rest ih => exact (o.tally s).trans (ih (o.apply s))

/-- Whatever is done with a simulator, it has counted the delta cycles of the settlings that have
succeeded, and not those of the settlings that have failed. One that reaches its limit has carried
out as many cycles as the limit allows and has left the count as it was. So the count is the number
of delta cycles exactly if no settling has failed after a cycle: where one has failed, the limit
was zero or not even the first cycle could be carried out. -/
theorem finished_settlings_are_counted (operations : List (Operation π)) :
    let s := run operations {}
    let begun := starts operations {}
    let cycles := commitCount (history operations {})
    s.totalDeltas + (begun.map uncounted).sum = cycles ∧
    (∀ u ∈ begun, ∀ l t, settle u = .error (.deltaLimit l) t →
      uncounted u = u.maxDeltas ∧ Busy u u.maxDeltas t ∧ t.totalDeltas = u.totalDeltas) ∧
    (s.totalDeltas = cycles ↔
      ∀ u ∈ begun, ∀ e t, settle u = .error e t → u.maxDeltas = 0 ∨ delta? u = none) := by
  intro s begun cycles
  have total := calc s.totalDeltas + (begun.map uncounted).sum
    _ = 0 + cycles := run_tally operations {}
    _ = cycles := Nat.zero_add cycles
  refine ⟨total, ?_, ?_⟩
  · intro u _ l t h
    obtain ⟨same, run, ⟨-, all⟩ | ⟨limit, -⟩⟩ := settle_error_counts h
    · exact ⟨(uncounted_of_error h).trans all, all ▸ run, same⟩
    · cases limit
  · calc s.totalDeltas = cycles
      _ ↔ (begun.map uncounted).sum = 0 := by omega
      _ ↔ ∀ u ∈ begun, uncounted u = 0 :=
        List.sum_eq_zero_iff_forall_eq_nat.trans List.forall_mem_map
      _ ↔ _ := forall₂_congr fun _ _ => uncounted_eq_zero_iff

/-- A follower is given one cycle where it needs two, and then another. -/
def stalled : List (Operation PinProcess) :=
  [.addSignal "a" 1, .addSignal "b" 1, .addProcess (.follow ⟨0⟩ ⟨1⟩ 0), .limit 1, .set ⟨0⟩ 1,
    .settle, .settle]

/-- Both are carried out, the first one by a settling that fails, and only the second is counted. -/
theorem stalled_counts_one_of_two : (starts stalled {}).map uncounted = [1, 0] ∧
    (run stalled {}).totalDeltas = 1 ∧ commitCount (history stalled {}) = 2 := by
  have missing : (starts stalled {}).map uncounted = [1, 0] := rfl
  have counted : (run stalled {}).totalDeltas = 1 := rfl
  have total := (finished_settlings_are_counted stalled).1
  refine ⟨missing, counted, ?_⟩
  rw [← total, counted, missing]
  rfl

end Simulator

end NetBridge.Simulation
