import NetBridge.Proofs.Simulation.Layers

/-! # The delta limit

Settling carries out delta cycles until no write waits. The limit only says where it stops:
up to there it takes as many cycles as are needed and no more, and what is left when the
limit is reached can be settled later, as if the limit had been higher in the first place. -/
namespace NetBridge.Simulation.Simulator

variable {π : Type}

/-- The simulator with another limit. -/
def limited (s : Simulator π) (l : Nat) : Simulator π := { s with maxDeltas := l }

section Cycles

variable [Coroutine π] {s t u : Simulator π} {n m : Nat}

/-- What exactly `n` delta cycles come to, if all of them can be carried out. -/
def afterDeltas : Nat → Simulator π → Option (Simulator π)
  | 0, s => some s
  | n + 1, s => s.delta?.bind (afterDeltas n)

theorem afterDeltas_succ (h : s.delta? = some t) : afterDeltas (n + 1) s = afterDeltas n t := by
  rw [afterDeltas, h, Option.bind_some]

/-- Writes wait before each of the first `n` delta cycles, which come to `t`. -/
structure Busy (s : Simulator π) (n : Nat) (t : Simulator π) : Prop where
  run : afterDeltas n s = some t
  waiting : ∀ j < n, ∀ u, afterDeltas j s = some u → u.pending ≠ []

/-- The least number of delta cycles after which no write waits is `k`. They come to `t`. -/
structure QuietAfter (s : Simulator π) (k : Nat) (t : Simulator π) : Prop extends Busy s k t where
  quiet : t.pending = []

namespace Busy

theorem zero_iff : Busy s 0 t ↔ t = s :=
  ⟨fun h => (Option.some.inj h.run).symm, by rintro rfl; exact ⟨rfl, by simp⟩⟩

/-- The first cycle and the others. -/
theorem succ_iff : Busy s (n + 1) t ↔ s.pending ≠ [] ∧ ∃ u, s.delta? = some u ∧ Busy u n t := by
  constructor
  · rintro ⟨run, waiting⟩
    obtain ⟨u, hu, run⟩ := Option.bind_eq_some_iff.mp run
    refine ⟨waiting 0 (Nat.succ_pos n) s rfl, u, hu, run, fun j hj v hv => ?_⟩
    exact waiting (j + 1) (Nat.succ_lt_succ hj) v ((afterDeltas_succ hu).trans hv)
  · rintro ⟨busy, u, hu, run, waiting⟩
    refine ⟨(afterDeltas_succ hu).trans run, fun j hj v hv => ?_⟩
    cases j with
    | zero => exact Option.some.inj hv ▸ busy
    | succ j => exact waiting j (Nat.lt_of_succ_lt_succ hj) v ((afterDeltas_succ hu).symm.trans hv)

/-- Cycles that a budget allows are carried out, whatever is left of the budget. -/
theorem runDeltas_add (h : Busy s n t) (budget count : Nat) :
    runDeltas (n + budget) count s = runDeltas budget (count + n) t := by
  induction n generalizing s count with
  | zero =>
    obtain rfl := zero_iff.mp h
    rw [Nat.zero_add, Nat.add_zero]
  | succ n ih =>
    obtain ⟨busy, u, hu, rest⟩ := succ_iff.mp h
    rw [Nat.succ_add, runDeltas_cycle count busy hu, ih rest, Nat.add_assoc, Nat.add_comm 1]

end Busy

/-- How delta cycles end that are at most `budget`: no write waits, or the budget is used up, or a
process asks for a signal that is not there. -/
inductive Ends (s : Simulator π) (budget count : Nat) : EStateM.Result Error (Simulator π) Nat → Prop
  | quiet {k n : Nat} {t : Simulator π} : n = count + k → k ≤ budget → QuietAfter s k t →
    Ends s budget count (.ok n t)
  | limit {t : Simulator π} : Busy s budget t → t.pending ≠ [] →
    Ends s budget count (.error (.deltaLimit t.maxDeltas) t)
  | stuck {k : Nat} {t : Simulator π} : k < budget → Busy s k t → t.pending ≠ [] →
    t.delta? = none → Ends s budget count (.error .unallocated t)

theorem runDeltas_ends (budget count : Nat) (s : Simulator π) :
    Ends s budget count (runDeltas budget count s) := by
  induction budget generalizing count s with
  | zero =>
    by_cases busy : s.pending = []
    · rw [runDeltas_idle count 0 busy]
      exact .quiet rfl (Nat.zero_le _) ⟨Busy.zero_iff.mpr rfl, busy⟩
    · rw [runDeltas_exhausted count busy]
      exact .limit (Busy.zero_iff.mpr rfl) busy
  | succ budget ih =>
    by_cases busy : s.pending = []
    · rw [runDeltas_idle count _ busy]
      exact .quiet rfl (Nat.zero_le _) ⟨Busy.zero_iff.mpr rfl, busy⟩
    · cases hd : s.delta? with
      | none =>
        rw [runDeltas_stuck count busy hd]
        exact .stuck (Nat.succ_pos budget) (Busy.zero_iff.mpr rfl) busy hd
      | some u =>
        rw [runDeltas_cycle count busy hd]
        have first {k : Nat} {t : Simulator π} (rest : Busy u k t) : Busy s (k + 1) t :=
          Busy.succ_iff.mpr ⟨busy, u, hd, rest⟩
        have rest := ih (count + 1) u
        generalize runDeltas budget (count + 1) u = r at rest ⊢
        cases rest with
        | quiet count enough after =>
          exact .quiet (by omega) (Nat.succ_le_succ enough) ⟨first after.toBusy, after.quiet⟩
        | limit run waits => exact .limit (first run) waits
        | stuck early run waits stuck => exact .stuck (Nat.succ_lt_succ early) (first run) waits stuck

theorem runDeltas_eq_iff {budget count : Nat} {r : EStateM.Result Error (Simulator π) Nat} :
    runDeltas budget count s = r ↔ Ends s budget count r := by
  refine ⟨fun h => h ▸ runDeltas_ends budget count s, fun h => ?_⟩
  cases h with
  | quiet count enough after =>
    obtain ⟨spare, rfl⟩ := Nat.exists_eq_add_of_le enough
    subst count
    rw [after.runDeltas_add, runDeltas_idle _ spare after.quiet]
  | limit run waits => exact (run.runDeltas_add 0 count).trans (runDeltas_exhausted _ waits)
  | stuck early run waits stuck =>
    obtain ⟨spare, rfl⟩ := Nat.exists_eq_add_of_lt early
    rw [Nat.add_assoc, run.runDeltas_add, runDeltas_stuck _ waits stuck]

theorem delta?_limited (s : Simulator π) (l : Nat) :
    (s.limited l).delta? = s.delta?.map (·.limited l) := by
  rw [delta?_eq, delta?_eq, Option.map_map]
  rfl

theorem Busy.limited (h : Busy s n t) (l : Nat) : Busy (s.limited l) n (t.limited l) := by
  induction n generalizing s with
  | zero => exact zero_iff.mpr (congrArg (·.limited l) (zero_iff.mp h))
  | succ n ih =>
    obtain ⟨waits, u, hu, rest⟩ := succ_iff.mp h
    exact succ_iff.mpr ⟨waits, u.limited l, by rw [delta?_limited, hu, Option.map_some], ih rest⟩

theorem Busy.maxDeltas (h : Busy s n t) : t.maxDeltas = s.maxDeltas := by
  have same : t = t.limited s.maxDeltas :=
    Option.some.inj (h.run.symm.trans (h.limited s.maxDeltas).run)
  rw [same]
  rfl

/-- The signals with their values, the processes with their waits and the writes that wait
are the same. -/
structure Agrees (s t : Simulator π) : Prop where
  signals : s.signals = t.signals
  slots : s.slots = t.slots
  pending : s.pending = t.pending

/-- How a settling that is limited to `m` and takes up what `n` delta cycles have left compares
with one that is limited to `n + m`. -/
inductive Resumes (n m : Nat) : EStateM.Result Error (Simulator π) Nat →
    EStateM.Result Error (Simulator π) Nat → Prop
  | ok {k l : Nat} {t u : Simulator π} : l = n + k → Agrees t u → Resumes n m (.ok k t) (.ok l u)
  | limit {t u : Simulator π} : Agrees t u →
    Resumes n m (.error (.deltaLimit m) t) (.error (.deltaLimit (n + m)) u)
  | stuck {t u : Simulator π} : Agrees t u →
    Resumes n m (.error .unallocated t) (.error .unallocated u)

theorem runDeltas_resumes (n m budget count : Nat) (s : Simulator π) :
    Resumes n m (runDeltas budget count (s.limited m))
      (runDeltas budget (n + count) (s.limited (n + m))) := by
  have agrees (s : Simulator π) : Agrees (s.limited m) (s.limited (n + m)) := ⟨rfl, rfl, rfl⟩
  induction budget generalizing count s with
  | zero =>
    by_cases busy : s.pending = []
    · rw [runDeltas_idle _ 0 (s := s.limited m) busy, runDeltas_idle _ 0 (s := s.limited (n + m)) busy]
      exact .ok rfl (agrees s)
    · rw [runDeltas_exhausted _ (s := s.limited m) busy,
        runDeltas_exhausted _ (s := s.limited (n + m)) busy]
      exact .limit (agrees s)
  | succ budget ih =>
    by_cases busy : s.pending = []
    · rw [runDeltas_idle _ _ (s := s.limited m) busy, runDeltas_idle _ _ (s := s.limited (n + m)) busy]
      exact .ok rfl (agrees s)
    · have cycles (l : Nat) := delta?_limited s l
      cases hd : s.delta? with
      | none =>
        simp only [hd, Option.map_none] at cycles
        rw [runDeltas_stuck _ (s := s.limited m) busy (cycles m),
          runDeltas_stuck _ (s := s.limited (n + m)) busy (cycles _)]
        exact .stuck (agrees s)
      | some u =>
        simp only [hd, Option.map_some] at cycles
        rw [runDeltas_cycle _ (s := s.limited m) busy (cycles m),
          runDeltas_cycle _ (s := s.limited (n + m)) busy (cycles _)]
        exact ih (count + 1) u

end Cycles

section Settling

variable [Coroutine π]

theorem settle_eq_ok_iff {s t : Simulator π} {k : Nat} : settle s = .ok k t ↔
    k ≤ s.maxDeltas ∧ ∃ u, QuietAfter s k u ∧ t = { u with totalDeltas := u.totalDeltas + k } := by
  rw [settle, bind_of_ok get_run, bind_eq_ok]
  constructor
  · rintro ⟨n, u, deltas, counted⟩
    obtain ⟨rfl, rfl⟩ := EStateM.Result.ok.inj counted
    cases runDeltas_eq_iff.mp deltas with
    | quiet count enough after =>
      obtain rfl := count.trans (Nat.zero_add _)
      exact ⟨enough, u, after, rfl⟩
  · rintro ⟨enough, u, after, rfl⟩
    exact ⟨k, u, runDeltas_eq_iff.mpr (.quiet (Nat.zero_add k).symm enough after), rfl⟩

theorem settle_eq_error_iff {s t : Simulator π} {e : Error} : settle s = .error e t ↔
    (e = .deltaLimit s.maxDeltas ∧ Busy s s.maxDeltas t ∧ t.pending ≠ []) ∨
      e = .unallocated ∧ ∃ k < s.maxDeltas, Busy s k t ∧ t.pending ≠ [] ∧ t.delta? = none := by
  have same : settle s = .error e t ↔ runDeltas s.maxDeltas 0 s = .error e t := by
    rw [settle_eq]
    cases runDeltas s.maxDeltas 0 s <;> simp
  rw [same, runDeltas_eq_iff]
  constructor
  · intro ends
    cases ends with
    | limit run waits => exact .inl ⟨congrArg _ run.maxDeltas, run, waits⟩
    | stuck early run waits stuck => exact .inr ⟨rfl, _, early, run, waits, stuck⟩
  · rintro (⟨rfl, run, waits⟩ | ⟨rfl, k, early, run, waits, stuck⟩)
    · have ends : Ends s s.maxDeltas 0 _ := .limit run waits
      rwa [run.maxDeltas] at ends
    · exact .stuck early run waits stuck

/-- What a settling has left at its limit can be settled later. -/
theorem settle_resumes {s t : Simulator π} {n : Nat} (m : Nat)
    (h : settle (s.limited n) = .error (.deltaLimit n) t) :
    Resumes n m (settle (t.limited m)) (settle (s.limited (n + m))) := by
  rcases settle_eq_error_iff.mp h with ⟨-, run, -⟩ | ⟨absurd, -⟩
  · have later : runDeltas (n + m) 0 (s.limited (n + m)) = runDeltas m n (t.limited (n + m)) := by
      have := (run.limited (n + m)).runDeltas_add m 0
      rwa [Nat.zero_add] at this
    have deltas := runDeltas_resumes n m m 0 t
    generalize parts : runDeltas m 0 (t.limited m) = r at deltas
    generalize whole : runDeltas m n (t.limited (n + m)) = r' at deltas later
    cases deltas with
    | ok sum agrees =>
      rw [settle_of_ok (s := t.limited m) parts, settle_of_ok (s := s.limited (n + m)) later]
      exact .ok sum { agrees with }
    | limit agrees =>
      rw [settle_of_error (s := t.limited m) parts, settle_of_error (s := s.limited (n + m)) later]
      exact .limit agrees
    | stuck agrees =>
      rw [settle_of_error (s := t.limited m) parts, settle_of_error (s := s.limited (n + m)) later]
      exact .stuck agrees
  · cases absurd

/-- Settling succeeds if the limit allows as many delta cycles as it takes until no write waits,
and carries out just these. Otherwise it carries out as many as the limit allows, unless a process
asks for a signal that is not there, and leaves the writes that wait after them. Settling again
then gives what a limit would have given from the start that allows the cycles of both. -/
theorem delta_limit_loses_nothing (s : Simulator π) :
    (∀ k t, settle s = .ok k t ↔ k ≤ s.maxDeltas ∧
      ∃ u, QuietAfter s k u ∧ t = { u with totalDeltas := u.totalDeltas + k }) ∧
    (∀ e t, settle s = .error e t ↔
      (e = .deltaLimit s.maxDeltas ∧ Busy s s.maxDeltas t ∧ t.pending ≠ []) ∨
        e = .unallocated ∧ ∃ k < s.maxDeltas, Busy s k t ∧ t.pending ≠ [] ∧ t.delta? = none) ∧
    ∀ n m t, settle (s.limited n) = .error (.deltaLimit n) t →
      Resumes n m (settle (t.limited m)) (settle (s.limited (n + m))) :=
  ⟨fun _ _ => settle_eq_ok_iff, fun _ _ => settle_eq_error_iff, fun _ m _ => settle_resumes m⟩

open Bench (busBoard busSession play) in
/-- A bus that is driven and has not settled. -/
def drivenBus : Simulator (PinProcess ⊕ PinProcess) :=
  (play (busSession 2) { board := busBoard }).simulator

/-- It needs three cycles. Two are not enough, and leave one for a later settling. -/
theorem drivenBus_settles_in_two_parts : ∃ t u v,
    settle (drivenBus.limited 2) = .error (.deltaLimit 2) t ∧ t.pending ≠ [] ∧
    settle (t.limited 1) = .ok 1 u ∧ settle (drivenBus.limited 3) = .ok 3 v ∧ Agrees u v := by
  have first : settle (drivenBus.limited 2) =
      .error (.deltaLimit 2) (stateAfter settle (drivenBus.limited 2)) := rfl
  have whole : settle (drivenBus.limited 3) = .ok 3 (stateAfter settle (drivenBus.limited 3)) := rfl
  have waits : (stateAfter settle (drivenBus.limited 2)).pending ≠ [] := by decide
  generalize stateAfter settle (drivenBus.limited 2) = t at first waits
  have resumes : Resumes 2 1 (settle (t.limited 1)) (settle (drivenBus.limited 3)) :=
    (delta_limit_loses_nothing drivenBus).2.2 2 1 t first
  rw [whole] at resumes
  generalize hr : settle (t.limited 1) = r at resumes
  cases resumes with
  | @ok k l u v sum agrees =>
    obtain rfl : k = 1 := by omega
    exact ⟨t, u, _, first, waits, hr, whole, agrees⟩

end Settling

end NetBridge.Simulation.Simulator
