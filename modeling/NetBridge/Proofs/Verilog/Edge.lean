import Mathlib.Data.List.Induction
import Mathlib.Logic.Function.Basic
import NetBridge.Proofs.Verilog.Semantics

/-! # Clock edges

On a rising edge of a clock the processes of that clock are executed, by IEEE 1364-2001.
Their assignments are nonblocking: what is assigned depends on the numbers before the edge,
and of several assignments of one register the one that is executed last counts. -/
namespace NetBridge.Verilog

/-- A reset is an assignment of a literal. -/
def Reset.assign (r : Reset) : Assign := ⟨r.target, .literal r.value r.shape⟩

/-- The assignments that an edge executes, in their order. Those of the reset are last. -/
def AlwaysBlock.executed (p : AlwaysBlock) (shapeOf : String → Shape) (env : String → Int) :
    List Assign :=
  p.updates ++ if (shapeOf p.rst).bits (env p.rst) = 0 then [] else p.resets.map Reset.assign

/-- The numbers of the nets after nonblocking assignments. -/
def nonblocking (shapeOf : String → Shape) (env : String → Int) (executed : List Assign) :
    String → Int :=
  executed.foldl (fun after a => Function.update after a.target
    (a.value.assigned shapeOf env (shapeOf a.target).width).toNat) env

/-- The numbers of the nets after a rising edge of the clock. -/
def Module.edge (m : Module) (clk : String) (env : String → Int) : String → Int :=
  nonblocking m.shapeOf env
    ((m.processes.filter (·.clk == clk)).flatMap (·.executed m.shapeOf env))

section

variable {shapeOf : String → Shape} {env : String → Int} {n : String}

theorem foldl_spares {executed : List Assign} (now : String → Int)
    (spared : ∀ a ∈ executed, a.target ≠ n) :
    executed.foldl (fun after a => Function.update after a.target
      ((a.value.assigned shapeOf env (shapeOf a.target).width).toNat : Int)) now n = now n := by
  induction executed generalizing now with
  | nil => rfl
  | cons a rest ih =>
    obtain ⟨first, others⟩ := List.forall_mem_cons.mp spared
    rw [List.foldl_cons, ih _ others, Function.update_of_ne first.symm]

/-- What is not assigned keeps its number. -/
theorem nonblocking_spares {executed : List Assign} (spared : ∀ a ∈ executed, a.target ≠ n) :
    nonblocking shapeOf env executed n = env n := foldl_spares env spared

variable (shapeOf env)

/-- The last assignment of a register counts. -/
theorem nonblocking_last {a : Assign} (before : List Assign) {after : List Assign}
    (last : ∀ c ∈ after, c.target ≠ a.target) :
    (shapeOf a.target).bits (nonblocking shapeOf env (before ++ a :: after) a.target) =
      a.value.assigned shapeOf env (shapeOf a.target).width := by
  rw [nonblocking, List.foldl_append, List.foldl_cons, foldl_spares _ last, Function.update_self,
    Shape.bits, BitVec.ofInt_natCast, BitVec.ofNat_toNat, BitVec.setWidth_eq]

/-- A register is given a value if it is assigned and all its assignments agree on it. -/
theorem nonblocking_of_agree {executed : List Assign} {v : BitVec (shapeOf n).width}
    (assigned : ∃ a ∈ executed, a.target = n)
    (agree : ∀ a ∈ executed, a.target = n →
      a.value.assigned shapeOf env (shapeOf n).width = v) (earlier : List Assign) :
    (shapeOf n).bits (nonblocking shapeOf env (earlier ++ executed) n) = v := by
  induction executed using List.reverseRecOn with
  | nil =>
    obtain ⟨a, ha, -⟩ := assigned
    cases ha
  | append_singleton rest a ih =>
    obtain ⟨others, this⟩ := List.forall_mem_append.mp agree
    rw [← List.append_assoc]
    by_cases same : a.target = n
    · subst same
      rw [nonblocking_last shapeOf env (earlier ++ rest) (by simp)]
      exact List.forall_mem_singleton.mp this rfl
    · have before : ∃ a ∈ rest, a.target = n := by
        obtain ⟨c, hc, htarget⟩ := assigned
        rcases List.mem_append.mp hc with hc | hc
        · exact ⟨c, hc, htarget⟩
        · exact absurd (List.mem_singleton.mp hc ▸ htarget) same
      rw [nonblocking, List.foldl_append, foldl_spares _ (List.forall_mem_singleton.mpr same)]
      exact ih before others

theorem assigned_literal (value : Word) (shape : Shape) :
    (Expr.literal value shape).assigned shapeOf env shape.width = value.setWidth shape.width := by
  rw [Expr.assigned, Expr.width, Expr.signed, Expr.eval, extend, setWidth_ofInt (Nat.le_max_left _ _),
    ofInt_number]

end

namespace Module

theorem assign_normalReset (r : Reset) : (normalReset r).assign = normalAssign r.assign := rfl

theorem executed_normal (p : AlwaysBlock) (shapeOf : String → Shape) (env : String → Int) :
    (normalProcess p).executed shapeOf env = (p.executed shapeOf env).map normalAssign := by
  rw [AlwaysBlock.executed, AlwaysBlock.executed, List.map_append]
  congr 1
  change (if (shapeOf p.rst).bits (env p.rst) = 0 then [] else
    (p.resets.map normalReset).map Reset.assign) = _
  split
  · rfl
  · simp [Function.comp_def, assign_normalReset]

theorem nonblocking_normal (shapeOf : String → Shape) (env : String → Int) (executed : List Assign) :
    nonblocking shapeOf env (executed.map normalAssign) = nonblocking shapeOf env executed := by
  rw [nonblocking, nonblocking, List.foldl_map]
  simp only [normalAssign, Expr.assigned_normal]

theorem edge_normal {m : Module} (positive : ∀ p ∈ m.shapes, 0 < p.2.width) (clk : String)
    (env : String → Int) : m.normal.edge clk env = m.edge clk env := by
  have clocks : (m.processes.map normalProcess).filter (·.clk == clk) =
      (m.processes.filter (·.clk == clk)).map normalProcess := List.filter_map
  have executed : (m.normal.processes.filter (·.clk == clk)).flatMap (·.executed m.shapeOf env) =
      ((m.processes.filter (·.clk == clk)).flatMap (·.executed m.shapeOf env)).map normalAssign := by
    simp only [normal, clocks, List.flatMap_map, executed_normal, List.map_flatMap]
  rw [edge, edge, shapeOf_normal positive, executed, nonblocking_normal]

end Module

/-- The registers that a process updates or resets. -/
def AlwaysBlock.written (p : AlwaysBlock) : List String := p.targets ++ p.resets.map (·.target)

namespace Module.WellDriven

variable {m : Module}

theorem processesOf_le (h : m.WellDriven) {p : AlwaysBlock} (hp : p ∈ m.processes) {n : String}
    (hn : n ∈ p.targets) : m.processesOf n ≤ 1 := by
  have named : n ∈ m.names := by
    refine List.mem_append_right _ (List.mem_flatMap.mpr ⟨p, hp, ?_⟩)
    obtain ⟨u, hu, rfl⟩ := List.mem_map.mp hn
    simp only [AlwaysBlock.names, List.mem_cons, List.mem_append, List.mem_flatMap]
    exact .inr (.inr (.inl ⟨u, hu, List.mem_cons_self⟩))
  by_cases input : n ∈ m.inputs
  · have := (h.inputs n input).2
    omega
  · have := h.driven n (h.closed n named) input
    omega

theorem targets_apart (h : m.WellDriven) :
    m.processes.Pairwise fun p q => p.targets.Disjoint q.targets := by
  have once : ∀ p ∈ m.processes, ∀ n ∈ p.targets,
      m.processes.countP (·.targets.contains n) ≤ 1 := fun _ hp _ hn => h.processesOf_le hp hn
  generalize m.processes = processes at once
  induction processes with
  | nil => exact .nil
  | cons p rest ih =>
    obtain ⟨first, others⟩ := List.forall_mem_cons.mp once
    simp only [List.countP_cons] at first others
    refine .cons (fun q hq n hn hn' => ?_) (ih fun q hq n hn => ?_)
    · have here := first n hn
      have there : 0 < rest.countP (·.targets.contains n) :=
        List.countP_pos_iff.mpr ⟨q, hq, List.contains_iff_mem.mpr hn'⟩
      rw [if_pos (List.contains_iff_mem.mpr hn)] at here
      omega
    · have := others q hq n hn
      omega

/-- No register is written in two processes. -/
theorem processes_apart (h : m.WellDriven) :
    m.processes.Pairwise fun p q => p.written.Disjoint q.written := by
  have targets : ∀ p ∈ m.processes, ∀ n ∈ p.written, n ∈ p.targets := by
    intro p hp n hn
    rcases List.mem_append.mp hn with hn | hn
    · exact hn
    · obtain ⟨r, hr, rfl⟩ := List.mem_map.mp hn
      exact h.resets p hp r hr
  exact h.targets_apart.imp_of_mem fun hp hq apart n hn hn' =>
    apart (targets _ hp n hn) (targets _ hq n hn')

end Module.WellDriven

end NetBridge.Verilog
