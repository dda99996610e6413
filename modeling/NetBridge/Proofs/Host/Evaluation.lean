import NetBridge.Host.Evaluation
import NetBridge.Proofs.Table

/-! # Assignments in an evaluation

An evaluation carries the assignments out in order, again and again. One that nothing
after it disturbs holds of the values that come out, whatever the others do. -/
namespace NetBridge.Host

theorem Valuation.read_set (v : Valuation) (key id : SignalId) (w : Word) :
    Valuation.read (Table.set v key w) id = if key = id then w else Valuation.read v id := by
  rw [Valuation.read, Table.get?_set]
  split <;> rfl

/-- The value of an expression depends on the signals that it reads alone. -/
theorem Expr.eval_congr {e : Expr} {r r' : SignalId → Word} (h : ∀ id ∈ e.reads, r id = r' id) :
    e.eval r = e.eval r' := by
  induction e with
  | signal id => exact h id (List.mem_singleton_self id)
  | const value width => rfl
  | not operand ih => exact congrArg (~~~ ·) (ih h)
  | replicate bit count => rw [Expr.eval, Expr.eval, h bit (List.mem_singleton_self bit)]

namespace Netlist

variable (m : Netlist)

/-- Assignments change nothing but their targets. -/
theorem get?_foldl_of_notMem {assigns : List Assign} {id : SignalId}
    (h : ∀ a ∈ assigns, a.target ≠ id) (v : Valuation) :
    Table.get? (assigns.foldl m.settleAssign v) id = Table.get? v id := by
  induction assigns generalizing v with
  | nil => rfl
  | cons a rest ih =>
    obtain ⟨first, others⟩ := List.forall_mem_cons.mp h
    rw [List.foldl_cons, ih others, settleAssign, Table.get?_set, if_neg first]

theorem read_foldl_of_notMem {assigns : List Assign} {id : SignalId}
    (h : ∀ a ∈ assigns, a.target ≠ id) (v : Valuation) :
    Valuation.read (assigns.foldl m.settleAssign v) id = Valuation.read v id :=
  congrArg (·.getD 0) (get?_foldl_of_notMem m h v)

variable {m} {before after : List Assign} {a : Assign}

theorem pass_holds (place : m.assignments = before ++ a :: after)
    (self : a.target ∉ a.value.reads)
    (undisturbed : ∀ a' ∈ after, a'.target ≠ a.target ∧ a'.target ∉ a.value.reads)
    (v : Valuation) : (m.pass v).read a.target =
      (m.shapeOf a.target).truncate (a.value.eval (m.pass v).read) := by
  rw [pass, place, List.foldl_append, List.foldl_cons]
  generalize before.foldl m.settleAssign v = v
  have kept : ∀ id ∈ a.value.reads,
      Valuation.read (after.foldl m.settleAssign (m.settleAssign v a)) id = Valuation.read v id := by
    intro id hid
    have other : a.target ≠ id := fun same => self (same ▸ hid)
    rw [read_foldl_of_notMem m fun a' ha' same => (undisturbed a' ha').2 (same ▸ hid),
      settleAssign, Valuation.read_set, if_neg other]
  rw [Expr.eval_congr kept, read_foldl_of_notMem m fun a' ha' => (undisturbed a' ha').1,
    settleAssign, Valuation.read_set, if_pos rfl]

theorem passes_succ (n : Nat) (v : Valuation) : m.passes (n + 1) v = m.pass (m.passes n v) := by
  induction n generalizing v with
  | zero => rfl
  | succ n ih => exact ih (m.pass v)

/-- A signal that nothing drives keeps the value that it comes in with. -/
theorem evaluate?_undriven {id : SignalId} (undriven : ∀ a ∈ m.assignments, a.target ≠ id)
    {inputs values : Valuation} (h : m.evaluate? inputs = some values) :
    values.read id = inputs.read id := by
  have kept : ∀ n v, Valuation.read (m.passes n v) id = Valuation.read v id := by
    intro n
    induction n with
    | zero => exact fun v => rfl
    | succ n ih => exact fun v => (ih (m.pass v)).trans (read_foldl_of_notMem m undriven v)
  rw [evaluate?] at h
  split at h
  · obtain rfl := Option.some.inj h
    exact kept _ inputs
  · cases h

/-- There is an answer if whatever is driven has been allocated. -/
theorem evaluate?_isSome (there : ∀ a ∈ m.assignments, m.signals.contains a.target = true)
    (inputs : Valuation) : ∃ values, m.evaluate? inputs = some values :=
  ⟨_, if_pos (List.all_eq_true.mpr there)⟩

/-- The target of an undisturbed assignment gets the part of the value that it has room for. -/
theorem evaluate?_holds (place : m.assignments = before ++ a :: after)
    (self : a.target ∉ a.value.reads)
    (undisturbed : ∀ a' ∈ after, a'.target ≠ a.target ∧ a'.target ∉ a.value.reads)
    {inputs values : Valuation} (h : m.evaluate? inputs = some values) :
    values.read a.target = (m.shapeOf a.target).truncate (a.value.eval values.read) := by
  rw [evaluate?] at h
  split at h
  · obtain rfl := Option.some.inj h
    rw [passes_succ]
    exact pass_holds place self undisturbed _
  · cases h

end Netlist

end NetBridge.Host
