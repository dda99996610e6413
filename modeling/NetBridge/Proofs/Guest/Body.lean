import Mathlib.Data.List.Perm.Basic
import NetBridge.Guest.Generation
import NetBridge.Proofs.Guest.Lowering

/-! # Bodies of modules

The body of a module grows statement by statement: by a wire and an assignment for
every temporary, by an assignment for a combinational statement, and by a process for
every domain that has statements. -/
namespace NetBridge.Guest.Netlist

open Verilog (AlwaysBlock)

namespace Body

/-- The body with one more temporary. -/
def addTemporary (b : Body) (shape : Shape) (value : Verilog.Expr) : Body :=
  let name := Verilog.freshName b.taken temporaryName
  ⟨name :: b.taken, b.wires ++ [.wire shape name], b.assigns ++ [⟨name, value⟩]⟩

/-- The names of the temporaries. -/
def temps (b : Body) : List String := b.wires.map Verilog.Net.name

def addAssign (b : Body) (a : Verilog.Assign) : Body := { b with assigns := b.assigns ++ [a] }

/-- The body with the temporaries of a scratch that began with its names. -/
def merge (b : Body) (s : Scratch) : Body where
  taken := s.taken
  wires := b.wires ++ s.temporaries.map fun t => .wire t.shape t.name
  assigns := b.assigns ++ s.temporaries.map fun t => ⟨t.name, t.value⟩

theorem merge_empty (b : Body) : b.merge ⟨b.taken, []⟩ = b := by simp [merge]

theorem merge_add (b : Body) (s : Scratch) (shape : Shape) (value : Verilog.Expr) :
    b.merge (s.add shape value) = (b.merge s).addTemporary shape value := by
  simp [merge, Scratch.add, addTemporary]

theorem lower_eq (b : Body) (m : Netlist) (nameOf : SignalId → String) (e : Expr) :
    b.lower m nameOf e = ((e.lowered m.shapeOf nameOf ⟨b.taken, []⟩).1,
      b.merge (e.lowered m.shapeOf nameOf ⟨b.taken, []⟩).2) := rfl

theorem addComb_eq (b : Body) (m : Netlist) (nameOf : SignalId → String) (s : Statement) :
    b.addComb m nameOf s =
      (b.lower m nameOf s.value).2.addAssign ⟨nameOf s.target, (b.lower m nameOf s.value).1⟩ := rfl

end Body

section

variable (known : String → Prop)

/-- A name that may stand in the body. -/
def Body.Knows (b : Body) (n : String) : Prop := known n ∨ n ∈ b.wires.map Verilog.Net.name

/-- A body grows by temporaries and by assignments of the targets. Their values mention
only names that are known before them. -/
inductive Body.Steps (b : Body) : List String → Body → Prop
  | refl : Body.Steps b [] b
  | temporary {targets : List String} {b' : Body} (shape : Shape) (value : Verilog.Expr) :
    Body.Steps b targets b' → 0 < shape.width → (∀ n ∈ value.names, b'.Knows known n) →
    Body.Steps b targets (b'.addTemporary shape value)
  | assign {targets : List String} {b' : Body} (a : Verilog.Assign) :
    Body.Steps b targets b' → (∀ n ∈ a.value.names, b'.Knows known n) →
    Body.Steps b (targets ++ [a.target]) (b'.addAssign a)

end

namespace Body

variable {known : String → Prop} {b b' b'' : Body}

namespace Steps

theorem trans {l r : List String} (h : b.Steps known l b') (h' : b'.Steps known r b'') :
    b.Steps known (l ++ r) b'' := by
  induction h' with
  | refl =>
    rw [List.append_nil]
    exact h
  | temporary shape value _ positive names ih => exact .temporary shape value ih positive names
  | assign a _ names ih =>
    rw [← List.append_assoc]
    exact .assign a ih names

/-- The wires and the names that are new, and who is assigned. -/
theorem added {targets : List String} (h : b.Steps known targets b') :
    ∃ new : List Verilog.Net, b'.wires = b.wires ++ new ∧
      b'.taken = (new.map Verilog.Net.name).reverse ++ b.taken ∧
      (b'.assigns.map (·.target)).Perm
        (b.assigns.map (·.target) ++ (new.map Verilog.Net.name ++ targets)) := by
  induction h with
  | refl => exact ⟨[], by simp, by simp, by simp⟩
  | @temporary targets b' shape value _ _ _ ih =>
    obtain ⟨new, wires, taken, assigned⟩ := ih
    let name := Verilog.freshName b'.taken temporaryName
    refine ⟨new ++ [.wire shape name], by simp [addTemporary, wires, name], ?_, ?_⟩
    · simp [addTemporary, taken, name, Verilog.Net.name]
    · have last : (b'.assigns.map (·.target) ++ [name]).Perm
          (b.assigns.map (·.target) ++ (new.map Verilog.Net.name ++ targets) ++ [name]) :=
        assigned.append_right _
      simp only [addTemporary, List.map_append, List.map_cons, List.map_nil]
      refine last.trans ?_
      rw [List.append_assoc, List.append_assoc]
      refine List.Perm.append_left _ ?_
      rw [List.append_assoc]
      exact List.Perm.append_left _ List.perm_append_comm
  | assign a _ _ ih =>
    obtain ⟨new, wires, taken, assigned⟩ := ih
    refine ⟨new, wires, taken, ?_⟩
    simp only [addAssign, List.map_append, List.map_cons, List.map_nil, ← List.append_assoc] at *
    exact assigned.append_right _

theorem nodup {targets : List String} (h : b.Steps known targets b') (start : b.taken.Nodup) :
    b'.taken.Nodup := by
  induction h with
  | refl => exact start
  | temporary shape value _ _ _ ih =>
    exact List.nodup_cons.mpr ⟨Verilog.freshName_not_mem _ _, ih⟩
  | assign a _ _ ih => exact ih

theorem legal {targets : List String} (h : b.Steps known targets b')
    (start : ∀ n ∈ b.taken, Verilog.isName n = true) : ∀ n ∈ b'.taken, Verilog.isName n = true := by
  induction h with
  | refl => exact start
  | temporary shape value _ _ _ ih =>
    intro n hn
    rcases List.mem_cons.mp hn with rfl | hn
    · exact Verilog.freshName_isName _ _
    · exact ih n hn
  | assign a _ _ ih => exact ih

theorem kept {targets : List String} (h : b.Steps known targets b') :
    ∀ a ∈ b.assigns, a ∈ b'.assigns := by
  induction h with
  | refl => exact fun a ha => ha
  | temporary shape value _ _ _ ih => exact fun a ha => List.mem_append_left _ (ih a ha)
  | assign _ _ _ ih => exact fun a ha => List.mem_append_left _ (ih a ha)

theorem wires_kept {targets : List String} (h : b.Steps known targets b') :
    ∀ w ∈ b.wires, w ∈ b'.wires := by
  obtain ⟨new, wires, -⟩ := h.added
  intro w hw
  rw [wires]
  exact List.mem_append_left _ hw

theorem knows {targets : List String} {n : String} (h : b.Steps known targets b')
    (knows : b.Knows known n) : b'.Knows known n := by
  rcases knows with hn | hn
  · exact Or.inl hn
  · obtain ⟨w, hw, rfl⟩ := List.mem_map.mp hn
    exact Or.inr (List.mem_map_of_mem (h.wires_kept w hw))

theorem values {targets : List String} (h : b.Steps known targets b') :
    ∀ a ∈ b'.assigns, a ∈ b.assigns ∨ ∀ n ∈ a.value.names, b'.Knows known n := by
  induction h with
  | refl => exact fun a ha => Or.inl ha
  | @temporary targets b' shape value _ positive names ih =>
    have step : b'.Steps known [] (b'.addTemporary shape value) :=
      .temporary shape value .refl positive names
    intro a ha
    rcases List.mem_append.mp ha with ha | ha
    · exact (ih a ha).imp_right fun hnames n hn => step.knows (hnames n hn)
    · obtain rfl := List.mem_singleton.mp ha
      exact Or.inr fun n hn => step.knows (names n hn)
  | assign a' _ names ih =>
    intro a ha
    rcases List.mem_append.mp ha with ha | ha
    · exact ih a ha
    · obtain rfl := List.mem_singleton.mp ha
      exact Or.inr names

/-- New wires have a width. -/
theorem positive {targets : List String} (h : b.Steps known targets b') :
    ∀ w ∈ b'.wires, w ∈ b.wires ∨ 0 < w.shape.width := by
  induction h with
  | refl => exact fun w hw => Or.inl hw
  | temporary shape value _ positive _ ih =>
    intro w hw
    rcases List.mem_append.mp hw with hw | hw
    · exact ih w hw
    · obtain rfl := List.mem_singleton.mp hw
      exact Or.inr positive
  | assign a _ _ ih => exact ih

end Steps

theorem steps_merge {s : Scratch} (h : Scratch.Steps known ⟨b.taken, []⟩ s) :
    b.Steps known [] (b.merge s) ∧ ∀ n, s.Knows known n → (b.merge s).Knows known n := by
  induction h with
  | refl =>
    rw [merge_empty]
    exact ⟨.refl, fun n hn => hn.imp_right fun h => by cases h⟩
  | @temporary s shape value _ positive names ih =>
    obtain ⟨steps, knows⟩ := ih
    rw [merge_add]
    have step : (b.merge s).Steps known [] ((b.merge s).addTemporary shape value) :=
      .temporary shape value .refl positive fun n hn => knows n (names n hn)
    refine ⟨.temporary shape value steps positive fun n hn => knows n (names n hn), ?_⟩
    intro n hn
    rcases hn with hn | hn
    · exact Or.inl hn
    · rw [Scratch.add, List.map_append] at hn
      rcases List.mem_append.mp hn with hn | hn
      · exact step.knows (knows n (Or.inr hn))
      · obtain rfl := List.mem_singleton.mp hn
        refine Or.inr ?_
        rw [addTemporary, List.map_append]
        exact List.mem_append_right _ (List.mem_singleton.mpr rfl)

variable (m : Netlist) (nameOf : SignalId → String)

/-- What a statement may be: a value that is well formed, over known signals. -/
def Fits (known : String → Prop) (s : Statement) : Prop :=
  s.value.WellFormed m.shapeOf ∧ ∀ id ∈ s.value.reads, known (nameOf id)

theorem lower_steps (b : Body) {s : Statement} (fits : Fits m nameOf known s) :
    b.Steps known [] (b.lower m nameOf s.value).2 ∧
      ∀ n ∈ (b.lower m nameOf s.value).1.names, (b.lower m nameOf s.value).2.Knows known n := by
  have writes := Expr.lowered_writes m.shapeOf nameOf s.value ⟨b.taken, []⟩ fits.1 fits.2
  obtain ⟨steps, knows⟩ := steps_merge writes.steps
  rw [lower_eq]
  exact ⟨steps, fun n hn => knows n (writes.names n hn)⟩

theorem addComb_steps (b : Body) {s : Statement} (fits : Fits m nameOf known s) :
    b.Steps known [nameOf s.target] (b.addComb m nameOf s) := by
  obtain ⟨steps, names⟩ := lower_steps m nameOf b fits
  rw [addComb_eq]
  exact .assign ⟨nameOf s.target, _⟩ steps names

theorem addCombs_steps (b : Body) (statements : List Statement)
    (fits : ∀ s ∈ statements, Fits m nameOf known s) :
    b.Steps known (statements.map fun s => nameOf s.target)
      (statements.foldl (fun b s => b.addComb m nameOf s) b) := by
  induction statements generalizing b with
  | nil => exact .refl
  | cons s rest ih =>
    have first := addComb_steps m nameOf b (fits s List.mem_cons_self)
    have others := ih (b.addComb m nameOf s) fun t ht => fits t (List.mem_cons_of_mem s ht)
    exact first.trans others

/-- Every statement is added at some point. -/
theorem addCombs_split (b : Body) {statements : List Statement}
    (fits : ∀ s ∈ statements, Fits m nameOf known s) {s : Statement} (h : s ∈ statements) :
    ∃ before after c, b.Steps known before c ∧ (c.addComb m nameOf s).Steps known after
      (statements.foldl (fun b s => b.addComb m nameOf s) b) := by
  induction statements generalizing b with
  | nil => cases h
  | cons t rest ih =>
    have fitsRest := fun u hu => fits u (List.mem_cons_of_mem t hu)
    rcases List.mem_cons.mp h with rfl | h
    · exact ⟨[], _, b, .refl, addCombs_steps m nameOf _ rest fitsRest⟩
    · obtain ⟨before, after, c, earlier, later⟩ := ih (b.addComb m nameOf t) fitsRest h
      have first := addComb_steps m nameOf b (fits t List.mem_cons_self)
      exact ⟨_, after, c, first.trans earlier, later⟩

theorem addUpdates_steps (b : Body) (statements : List Statement)
    (fits : ∀ s ∈ statements, Fits m nameOf known s) :
    b.Steps known [] (b.addUpdates m nameOf statements).2 ∧
      (b.addUpdates m nameOf statements).1.map (·.target) =
        statements.map (fun s => nameOf s.target) ∧
      ∀ u ∈ (b.addUpdates m nameOf statements).1, ∀ n ∈ u.value.names,
        (b.addUpdates m nameOf statements).2.Knows known n := by
  induction statements generalizing b with
  | nil => exact ⟨.refl, rfl, fun u hu => by cases hu⟩
  | cons s rest ih =>
    obtain ⟨steps, names⟩ := lower_steps m nameOf b (fits s List.mem_cons_self)
    obtain ⟨stepsRest, targets, values⟩ := ih (b.lower m nameOf s.value).2
      fun t ht => fits t (List.mem_cons_of_mem s ht)
    have result : b.addUpdates m nameOf (s :: rest) =
        (⟨nameOf s.target, (b.lower m nameOf s.value).1⟩ ::
          ((b.lower m nameOf s.value).2.addUpdates m nameOf rest).1,
          ((b.lower m nameOf s.value).2.addUpdates m nameOf rest).2) := rfl
    rw [result]
    refine ⟨steps.trans stepsRest, by simp [targets], ?_⟩
    intro u hu n hn
    rcases List.mem_cons.mp hu with rfl | hu
    · exact stepsRest.knows (names n hn)
    · exact values u hu n hn

/-- The process of a domain. -/
structure IsProcess (known : String → Prop) (b : Body) (d : ClockDomain)
    (p : AlwaysBlock) : Prop where
  clk : p.clk = nameOf d.clk
  rst : p.rst = nameOf d.rst
  targets : p.targets = (m.statements.filter (·.domain == some d.name)).map fun s => nameOf s.target
  resets : p.resets = m.resetsOf nameOf (m.statements.filter (·.domain == some d.name))
  values : ∀ u ∈ p.updates, ∀ n ∈ u.value.names, b.Knows known n

/-- The domains that have statements. -/
def active (m : Netlist) (domains : List ClockDomain) : List ClockDomain :=
  domains.filter fun d => !(m.statements.filter (·.domain == some d.name)).isEmpty

theorem addProcesses_steps (b : Body) (domains : List ClockDomain)
    (fits : ∀ s ∈ m.statements, Fits m nameOf known s) :
    b.Steps known [] (b.addProcesses m nameOf domains).2 ∧
      List.Forall₂ (IsProcess m nameOf known (b.addProcesses m nameOf domains).2)
        (active m domains) (b.addProcesses m nameOf domains).1 := by
  induction domains generalizing b with
  | nil => exact ⟨.refl, .nil⟩
  | cons d rest ih =>
    cases hs : m.statements.filter (·.domain == some d.name) with
    | nil =>
      have result : b.addProcesses m nameOf (d :: rest) = b.addProcesses m nameOf rest := by
        simp only [addProcesses, hs]
      have idle : active m (d :: rest) = active m rest := by simp [active, hs]
      rw [result, idle]
      exact ih b
    | cons s more =>
      obtain ⟨steps, targets, values⟩ := addUpdates_steps m nameOf b (s :: more)
        fun t ht => fits t (List.mem_of_mem_filter (hs ▸ ht))
      obtain ⟨stepsRest, processes⟩ := ih (b.addUpdates m nameOf (s :: more)).2
      have result : b.addProcesses m nameOf (d :: rest) =
          (⟨nameOf d.clk, (b.addUpdates m nameOf (s :: more)).1, nameOf d.rst,
              m.resetsOf nameOf (s :: more)⟩ ::
            ((b.addUpdates m nameOf (s :: more)).2.addProcesses m nameOf rest).1,
            ((b.addUpdates m nameOf (s :: more)).2.addProcesses m nameOf rest).2) := by
        simp only [addProcesses, hs]
      have busy : active m (d :: rest) = d :: active m rest := by simp [active, hs]
      rw [result, busy]
      refine ⟨steps.trans stepsRest, .cons ⟨rfl, rfl, ?_, ?_, ?_⟩ processes⟩
      · rw [hs]
        exact targets
      · rw [hs]
      · exact fun u hu n hn => stepsRest.knows (values u hu n hn)

end Body

end NetBridge.Guest.Netlist
