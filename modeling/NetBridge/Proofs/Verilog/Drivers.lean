import NetBridge.Verilog.Module

/-! # Drivers of nets

A module is well driven if every name in it is declared and every declared net has
one driver, an assignment or a process. Inputs have none, they are driven from outside. -/
namespace NetBridge.Verilog

namespace Expr

mutual

/-- The names that an expression mentions. -/
def names : Expr → List String
  | name n => [n]
  | literal _ _ => []
  | unary _ operand => names operand
  | binary _ left right => names left ++ names right
  | bitSelect base _ => [base]
  | partSelect base _ _ => [base]
  | concat parts => namesOfParts parts
  | conditional condition whenTrue whenFalse =>
    names condition ++ names whenTrue ++ names whenFalse

def namesOfParts : List Expr → List String
  | [] => []
  | e :: rest => names e ++ namesOfParts rest

end

theorem namesOfParts_append (l r : List Expr) :
    namesOfParts (l ++ r) = namesOfParts l ++ namesOfParts r := by
  induction l with
  | nil => rfl
  | cons e rest ih => simp [namesOfParts, ih]

end Expr

def Net.name : Net → String
  | wire _ name => name
  | reg _ name _ => name

def Net.shape : Net → Shape
  | wire shape _ => shape
  | reg shape _ _ => shape

def Assign.names (a : Assign) : List String := a.target :: a.value.names

namespace AlwaysBlock

/-- The registers that a process updates. -/
def targets (p : AlwaysBlock) : List String := p.updates.map (·.target)

def names (p : AlwaysBlock) : List String :=
  p.clk :: p.rst :: (p.updates.flatMap Assign.names ++ p.resets.map (·.target))

end AlwaysBlock

namespace Module

/-- The names that assignments and processes mention. -/
def names (m : Module) : List String :=
  m.assigns.flatMap Assign.names ++ m.processes.flatMap AlwaysBlock.names

def declared (m : Module) : List String := m.ports.map (·.name) ++ m.nets.map Net.name

def inputs (m : Module) : List String :=
  (m.ports.filter fun p => decide (p.direction = .input)).map (·.name)

/-- The number of continuous assignments of a net. -/
def assignsOf (m : Module) (n : String) : Nat := (m.assigns.map (·.target)).count n

theorem only_assign {m : Module} {a : Assign} (h : a ∈ m.assigns)
    (once : m.assignsOf a.target = 1) : m.assigns.filter (·.target == a.target) = [a] := by
  have one : (m.assigns.filter (·.target == a.target)).length = 1 := by
    rw [← List.countP_eq_length_filter, ← once, assignsOf, List.count, List.countP_map]
    rfl
  obtain ⟨c, hc⟩ := List.length_eq_one_iff.mp one
  have hmem : a ∈ m.assigns.filter (·.target == a.target) := List.mem_filter.mpr ⟨h, by simp⟩
  rw [hc, List.mem_singleton] at hmem
  rw [hc, hmem]

/-- The number of processes that update a net. -/
def processesOf (m : Module) (n : String) : Nat := m.processes.countP fun p => p.targets.contains n

structure WellDriven (m : Module) : Prop where
  closed : ∀ n ∈ m.names, n ∈ m.declared
  inputs : ∀ n ∈ m.inputs, m.assignsOf n = 0 ∧ m.processesOf n = 0
  driven : ∀ n ∈ m.declared, n ∉ m.inputs →
    m.assignsOf n = 1 ∧ m.processesOf n = 0 ∨ m.assignsOf n = 0 ∧ m.processesOf n = 1
  /-- A process resets only what it updates. -/
  resets : ∀ p ∈ m.processes, ∀ r ∈ p.resets, r.target ∈ p.targets

end Module

end NetBridge.Verilog
