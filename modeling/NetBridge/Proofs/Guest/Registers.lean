import Mathlib.Data.List.Forall2
import NetBridge.Proofs.Guest.Evaluation
import NetBridge.Proofs.Verilog.Edge

/-! # Registers

A domain that has statements has one process, on its own clock. The process updates the
registers of the domain in the order of the statements and then resets each of them, so that
an edge gives a register its reset value or what its last statement says. -/
namespace NetBridge

/-- Where each element corresponds to another one, the one that belongs to a given element
can be picked out. -/
theorem filter_of_forall₂ {α β : Type} {R : α → β → Prop} {f : β → Bool} {a : α} {as : List α}
    {bs : List β} (h : List.Forall₂ R as bs) (nodup : as.Nodup) (ha : a ∈ as)
    (picks : ∀ x ∈ as, ∀ y, R x y → (f y = true ↔ x = a)) : ∃ b, R a b ∧ bs.filter f = [b] := by
  induction h with
  | nil => cases ha
  | @cons x y xs ys hxy hrest ih =>
    obtain ⟨absent, nodup⟩ := List.nodup_cons.mp nodup
    obtain ⟨first, others⟩ := List.forall_mem_cons.mp picks
    by_cases same : x = a
    · subst same
      have none : ys.filter f = [] := by
        refine List.filter_eq_nil_iff.mpr fun z hz hf => ?_
        obtain ⟨i, hi, rfl⟩ := List.getElem_of_mem hz
        have hx := (List.forall₂_iff_get.mp hrest).2 i (hrest.length_eq ▸ hi) hi
        have := (others _ (List.getElem_mem _) _ hx).mp hf
        exact absent (this ▸ List.getElem_mem _)
      exact ⟨y, hxy, by rw [List.filter_cons_of_pos ((first y hxy).mpr rfl), none]⟩
    · have skipped : ¬ f y = true := fun hf => same ((first y hxy).mp hf)
      obtain ⟨b, hb, hfilter⟩ := ih nodup ((List.mem_cons.mp ha).resolve_left (Ne.symm same)) others
      exact ⟨b, hb, by rw [List.filter_cons_of_neg skipped, hfilter]⟩

/-- The elements that have one of the keys, sorted by the keys. -/
theorem flatMap_filter_perm {α κ : Type} [BEq κ] [LawfulBEq κ] (key : α → κ) (l : List α)
    {keys : List κ} (nodup : keys.Nodup) : (keys.flatMap fun k => l.filter (key · == k)).Perm
      (l.filter fun a => keys.contains (key a)) := by
  induction keys with
  | nil => simp
  | cons k rest ih =>
    obtain ⟨absent, nodup⟩ := List.nodup_cons.mp nodup
    rw [List.flatMap_cons]
    refine ((ih nodup).append_left _).trans ?_
    have split := List.filter_append_perm (key · == k) (l.filter fun a => (k :: rest).contains (key a))
    rw [List.filter_filter, List.filter_filter] at split
    refine (List.Perm.of_eq ?_).trans split
    congr 1
    · refine List.filter_congr fun a _ => ?_
      by_cases same : key a = k <;> simp [same]
    · refine List.filter_congr fun a _ => ?_
      by_cases same : key a = k <;> simp [same, absent]

namespace Guest.Netlist

open Verilog (AlwaysBlock Module)

namespace Body

variable (m : Netlist) (nameOf : SignalId → String)

/-- The update is that of the statement, whose temporaries are in the body. -/
structure Updates (final : Body) (st : Statement) (u : Verilog.Assign) : Prop where
  target : u.target = nameOf st.target
  value : ∃ c : Body, u.value = (c.lower m nameOf st.value).1 ∧
    (c.lower m nameOf st.value).2.wires ⊆ final.wires ∧
    (c.lower m nameOf st.value).2.assigns ⊆ final.assigns

variable {m nameOf} {known : String → Prop} {b b' : Body}

theorem Updates.later {st : Statement} {u : Verilog.Assign} (h : Updates m nameOf b st u)
    {targets : List String} (steps : b.Steps known targets b') : Updates m nameOf b' st u := by
  obtain ⟨c, hvalue, wires, assigns⟩ := h.value
  exact ⟨h.target, c, hvalue, List.Subset.trans wires steps.wires_kept,
    List.Subset.trans assigns steps.kept⟩

theorem addUpdates_updates (b : Body) (statements : List Statement)
    (fits : ∀ s ∈ statements, Fits m nameOf known s) :
    List.Forall₂ (Updates m nameOf (b.addUpdates m nameOf statements).2) statements
      (b.addUpdates m nameOf statements).1 := by
  induction statements generalizing b with
  | nil => exact .nil
  | cons s rest ih =>
    obtain ⟨-, others⟩ := List.forall_mem_cons.mp fits
    obtain ⟨steps, -, -⟩ := addUpdates_steps m nameOf (b.lower m nameOf s.value).2 rest others
    have first : Updates m nameOf (b.lower m nameOf s.value).2 s
        ⟨nameOf s.target, (b.lower m nameOf s.value).1⟩ :=
      ⟨rfl, b, rfl, List.Subset.refl _, List.Subset.refl _⟩
    exact .cons (first.later steps) (ih _ others)

theorem addProcesses_updates (b : Body) (domains : List ClockDomain)
    (fits : ∀ s ∈ m.statements, Fits m nameOf known s) :
    List.Forall₂ (fun d p => List.Forall₂ (Updates m nameOf (b.addProcesses m nameOf domains).2)
        (m.statements.filter (·.domain == some d.name)) p.updates)
      (active m domains) (b.addProcesses m nameOf domains).1 := by
  induction domains generalizing b with
  | nil => exact .nil
  | cons d rest ih =>
    cases hs : m.statements.filter (·.domain == some d.name) with
    | nil =>
      have result : b.addProcesses m nameOf (d :: rest) = b.addProcesses m nameOf rest := by
        simp only [addProcesses, hs]
      have idle : active m (d :: rest) = active m rest := by simp [active, hs]
      rw [result, idle]
      exact ih b
    | cons s more =>
      have updates := addUpdates_updates b (s :: more)
        fun t ht => fits t (List.mem_of_mem_filter (hs ▸ ht))
      obtain ⟨steps, -⟩ := addProcesses_steps m nameOf (b.addUpdates m nameOf (s :: more)).2 rest fits
      have result : b.addProcesses m nameOf (d :: rest) =
          (⟨nameOf d.clk, (b.addUpdates m nameOf (s :: more)).1, nameOf d.rst,
              m.resetsOf nameOf (s :: more)⟩ ::
            ((b.addUpdates m nameOf (s :: more)).2.addProcesses m nameOf rest).1,
            ((b.addUpdates m nameOf (s :: more)).2.addProcesses m nameOf rest).2) := by
        simp only [addProcesses, hs]
      have busy : active m (d :: rest) = d :: active m rest := by simp [active, hs]
      rw [result, busy]
      refine .cons ?_ (ih _)
      rw [hs]
      exact updates.imp fun _ _ h => h.later steps

end Body

namespace Stages

variable {m : Netlist} {targets : List Target} (s : m.Stages targets) (name : String)

theorem updates : List.Forall₂ (fun d p => List.Forall₂ (Body.Updates m s.nameOf s.final)
      (m.statements.filter (·.domain == some d.name)) p.updates)
    (Body.active m m.domains.values) (s.generated name).verilog.processes := by
  rw [s.verilog_eq]
  exact Body.addProcesses_updates s.middle m.domains.values fun st hst => s.fits hst

/-- The process of a domain, with the updates of its statements. -/
structure Process (d : ClockDomain) (p : AlwaysBlock) : Prop
    extends Body.IsProcess m s.nameOf (· ∈ s.taken) s.final d p where
  updates : List.Forall₂ (Body.Updates m s.nameOf s.final)
    (m.statements.filter (·.domain == some d.name)) p.updates

theorem processes : List.Forall₂ s.Process (Body.active m m.domains.values)
    (s.generated name).verilog.processes := by
  obtain ⟨lengths, each⟩ := List.forall₂_iff_get.mp (s.layout_final name).processes
  obtain ⟨-, updates⟩ := List.forall₂_iff_get.mp (s.updates name)
  exact List.forall₂_iff_get.mpr ⟨lengths, fun i h h' => ⟨each i h h', updates i h h'⟩⟩

variable {s name} {d : ClockDomain} {p : AlwaysBlock} {ρ : SignalId → Int} {env : String → Int}

theorem mem_active : d ∈ Body.active m m.domains.values ↔
    d ∈ m.domains.values ∧ ∃ st ∈ m.statements, st.domain = some d.name := by
  rw [Body.active, List.mem_filter, Bool.not_eq_true', List.isEmpty_eq_false_iff_exists_mem]
  simp only [List.mem_filter, beq_iff_eq]

/-- A domain that has statements has the only process on its clock. -/
theorem exists_process (name : String) (built : Built m) (hd : d ∈ Body.active m m.domains.values) :
    ∃ p, s.Process d p ∧
      (s.generated name).verilog.processes.filter (·.clk == s.nameOf d.clk) = [p] := by
  have nodup : m.domains.values.Nodup := built.clocks_held.nodup.of_map
  refine filter_of_forall₂ (s.processes name) (nodup.filter _) hd fun e he q hq => ?_
  rw [hq.clk, beq_iff_eq]
  constructor
  · intro same
    have clk := s.nameOf_injective (Layout.clock_named s built he).1
      (Layout.clock_named s built hd).1 same
    exact List.inj_on_of_nodup_map built.clocks_held.nodup (List.mem_of_mem_filter he)
      (List.mem_of_mem_filter hd) clk
  · rintro rfl
    rfl

/-- An update means the value of its statement. -/
theorem update_means {st : Statement} (hst : st ∈ m.statements) {u : Verilog.Assign}
    (h : Body.Updates m s.nameOf s.final st u)
    (runs : Runs s.names (s.generated name).verilog ρ env) :
    Expr.Means m.shapeOf ρ (s.generated name).verilog.shapeOf env st.value u.value := by
  obtain ⟨c, hvalue, wires, assigns⟩ := h.value
  rw [hvalue]
  exact (s.layout_final name).lowered_means hst wires assigns runs

namespace Process

variable {st : Statement}

theorem mem_filter (h : st ∈ m.statements.filter (·.domain == some d.name)) :
    st ∈ m.statements ∧ st.domain = some d.name := by
  simpa only [List.mem_filter, beq_iff_eq] using h

/-- What else is executed on an edge has other targets. -/
theorem spares {statements : List Statement} {updates : List Verilog.Assign} {id : SignalId}
    (updated : List.Forall₂ (Body.Updates m s.nameOf s.final) statements updates)
    (sub : statements ⊆ m.statements) (named : id ∈ s.order)
    (others : ∀ t ∈ statements, t.target ≠ id) : ∀ u ∈ updates, u.target ≠ s.nameOf id := by
  induction updated with
  | nil => simp
  | @cons t u ts us htu _ ih =>
    obtain ⟨first, rest⟩ := List.forall_mem_cons.mp others
    obtain ⟨ht, hts⟩ := List.cons_subset.mp sub
    refine List.forall_mem_cons.mpr ⟨fun same => first ?_, ih hts rest⟩
    rw [htu.target] at same
    exact s.nameOf_injective (s.driven_named ht) named same

theorem mem_resets (h : s.Process d p) {a : Verilog.Assign} :
    a ∈ p.resets.map Verilog.Reset.assign ↔
      ∃ st ∈ m.statements, st.domain = some d.name ∧
        a = ⟨s.nameOf st.target, .literal (m.resetOf st.target) (m.shapeOf st.target)⟩ := by
  rw [h.resets, resetsOf, List.map_map, List.mem_map]
  simp only [List.mem_eraseDups, List.mem_map, List.mem_filter, beq_iff_eq, Function.comp_apply,
    Verilog.Reset.assign]
  constructor
  · rintro ⟨id, ⟨st, ⟨hst, hdomain⟩, rfl⟩, rfl⟩
    exact ⟨st, hst, hdomain, rfl⟩
  · rintro ⟨st, hst, hdomain, rfl⟩
    exact ⟨st.target, ⟨st, ⟨hst, hdomain⟩, rfl⟩, rfl⟩

/-- The assignment of the last statement of a register. -/
theorem exists_last (h : s.Process d p) {before after : List Statement}
    (hm : m.statements = before ++ st :: after) (hdomain : st.domain = some d.name)
    (last : ∀ t ∈ after, t.target ≠ st.target) : ∃ earlier u later,
      p.updates = earlier ++ u :: later ∧ Body.Updates m s.nameOf s.final st u ∧
        ∀ c ∈ later, c.target ≠ u.target := by
  have updates := h.updates
  rw [hm, List.filter_append, List.filter_cons_of_pos (by simpa using hdomain)] at updates
  have dropped := List.forall₂_drop_append _ _ _ updates.flip
  obtain ⟨u, later, hu, hlater, hdrop⟩ := List.forall₂_cons_right_iff.mp dropped
  refine ⟨_, u, later, by rw [← hdrop, List.take_append_drop], hu, ?_⟩
  have named : st.target ∈ s.order := s.driven_named (by simp [hm])
  rw [hu.target]
  refine spares hlater.flip (fun t ht => ?_) named fun t ht => last t (List.mem_of_mem_filter ht)
  rw [hm]
  exact List.mem_append_right _ (List.mem_cons_of_mem _ (List.mem_of_mem_filter ht))

/-- What an edge gives a register: its reset value, or what its last statement says. -/
theorem edge_register (h : s.Process d p)
    (runs : Runs s.names (s.generated name).verilog ρ env) (rst : d.rst ∈ s.order)
    {before after : List Statement} (hm : m.statements = before ++ st :: after)
    (hdomain : st.domain = some d.name) (last : ∀ t ∈ after, t.target ≠ st.target) :
    (m.shapeOf st.target).bits (Verilog.nonblocking (s.generated name).verilog.shapeOf env
        (p.executed (s.generated name).verilog.shapeOf env) (s.nameOf st.target)) =
      if (m.shapeOf d.rst).bits (ρ d.rst) = 0 then
        st.value.assigned m.shapeOf ρ (m.shapeOf st.target).width
      else ((m.shapeOf st.target).truncate (m.resetOf st.target)).setWidth _ := by
  have l := s.layout_final name
  have hst : st ∈ m.statements := by simp [hm]
  have named : st.target ∈ s.order := s.driven_named hst
  have condition : (s.generated name).verilog.shapeOf p.rst = m.shapeOf d.rst ∧
      env p.rst = ρ d.rst := by
    rw [h.rst]
    exact ⟨l.shapeOf_signal rst, runs.signals _ _ (s.get?_names_eq rst)⟩
  rw [AlwaysBlock.executed, condition.1, condition.2]
  split
  · obtain ⟨earlier, u, later, hupdates, hu, spared⟩ := h.exists_last hm hdomain last
    have given := Verilog.nonblocking_last (s.generated name).verilog.shapeOf env earlier spared
    rw [List.append_nil, hupdates]
    rw [hu.target, l.shapeOf_signal named] at given
    rw [given]
    exact (s.update_means hst hu runs).assigned _
  · have given := Verilog.nonblocking_of_agree (s.generated name).verilog.shapeOf env
      (n := s.nameOf st.target)
      (v := ((m.shapeOf st.target).truncate (m.resetOf st.target)).setWidth _)
      ⟨_, h.mem_resets.mpr ⟨st, hst, hdomain, rfl⟩, rfl⟩ (fun a ha same => ?_) p.updates
    · rw [l.shapeOf_signal named] at given
      exact given
    · obtain ⟨t, ht, -, rfl⟩ := h.mem_resets.mp ha
      have target := s.nameOf_injective (s.driven_named ht) named same
      rw [l.shapeOf_signal named, target, Verilog.assigned_literal, Verilog.Expr.setWidth_truncate]

/-- Every other net is left alone. -/
theorem edge_spares (h : s.Process d p) {id : SignalId} (named : id ∈ s.order)
    (others : ∀ t ∈ m.statements, t.domain = some d.name → t.target ≠ id)
    (shapeOf : String → Shape) :
    Verilog.nonblocking shapeOf env (p.executed shapeOf env) (s.nameOf id) = env (s.nameOf id) := by
  refine Verilog.nonblocking_spares fun a ha => ?_
  rw [AlwaysBlock.executed] at ha
  rcases List.mem_append.mp ha with ha | ha
  · refine spares h.updates (fun t ht => (mem_filter ht).1) named (fun t ht => ?_) a ha
    obtain ⟨ht, hdomain⟩ := mem_filter ht
    exact others t ht hdomain
  · split at ha
    · cases ha
    · obtain ⟨t, ht, hdomain, rfl⟩ := h.mem_resets.mp ha
      exact fun same => others t ht hdomain (s.nameOf_injective (s.driven_named ht) named same)

end Process

/-- The processes have all statements of registers between them. -/
theorem registers_perm (s : m.Stages targets) (built : Built m) :
    ((Body.active m m.domains.values).flatMap fun d =>
      m.statements.filter (·.domain == some d.name)).Perm (m.statements.filter (·.domain.isSome)) := by
  have names : (m.domains.values.map (·.name)).Nodup := by
    rw [built.domain_names]
    exact built.domains_nodup
  have active : ((Body.active m m.domains.values).map (·.name)).Nodup :=
    names.sublist (List.filter_sublist.map _)
  have sorted := flatMap_filter_perm Statement.domain m.statements
    (active.map (Option.some_injective _))
  rw [List.map_map] at sorted
  rw [List.flatMap_map] at sorted
  refine sorted.trans (List.Perm.of_eq (List.filter_congr fun st hst => ?_))
  cases hdomain : st.domain with
  | none => simp
  | some name =>
    obtain ⟨d, hd⟩ := Option.isSome_iff_exists.mp (s.drivenBy.known st hst name hdomain)
    obtain ⟨hmem, rfl⟩ := built.domain?_eq_some_iff.mp hd
    have active : d ∈ Body.active m m.domains.values := mem_active.mpr ⟨hmem, st, hst, hdomain⟩
    simpa using ⟨d, active, rfl⟩

end Stages

/-- The text has one process on the clock of every domain that has statements. The updates
of all processes are the statements of registers, each once, and no two processes write one
register. On an edge of the clock of a domain every register of the domain is given what its
last statement says or, if the reset of the domain is not zero, its reset value; and every
other net is left alone. What a statement says is what its value has in the context of the
register, which is its value where every part of it keeps its own. -/
theorem generated_text_updates_registers {m : Netlist} (built : Built m) {name : String}
    (legal : Verilog.isIdentifier name = true) {targets : List Target} {g : Generated}
    (generated : m.generate name targets = .ok g) :
    ∃ M, Verilog.read g.text = some M ∧
      (M.processes.Pairwise fun p q => p.written.Disjoint q.written) ∧
      (∃ statements, statements.Perm (m.statements.filter (·.domain.isSome)) ∧
        List.Forall₂ (fun st u => Table.get? g.names st.target = some u.target ∧
            ∀ ρ env, Runs g.names M ρ env → ∀ w, u.value.assigned M.shapeOf env w =
              st.value.assigned m.shapeOf ρ w)
          statements (M.processes.flatMap (·.updates))) ∧
      ∀ d ∈ m.domains.values, (∃ st ∈ m.statements, st.domain = some d.name) →
        ∃ clk p, Table.get? g.names d.clk = some clk ∧ M.processes.filter (·.clk == clk) = [p] ∧
          ∀ ρ, (∃ env, Runs g.names M ρ env) ∧ ∀ env, Runs g.names M ρ env →
            (∀ before st after, m.statements = before ++ st :: after → st.domain = some d.name →
              (∀ t ∈ after, t.target ≠ st.target) →
              let shape := m.shapeOf st.target
              ∃ n, Table.get? g.names st.target = some n ∧ M.shapeOf n = shape ∧
                shape.bits (M.edge clk env n) = (if (m.shapeOf d.rst).bits (ρ d.rst) = 0 then
                    st.value.assigned m.shapeOf ρ shape.width
                  else (shape.truncate (m.resetOf st.target)).setWidth shape.width) ∧
                (st.value.keeps m.shapeOf (max shape.width (st.value.ownWidth m.shapeOf))
                    (st.value.ownSigned m.shapeOf) = true →
                  st.value.assigned m.shapeOf ρ shape.width =
                    BitVec.ofInt shape.width (st.value.value m.shapeOf ρ))) ∧
            ∀ id n, Table.get? g.names id = some n →
              (∀ st ∈ m.statements, st.domain = some d.name → st.target ≠ id) →
              M.edge clk env n = env n := by
  obtain ⟨s, rfl⟩ := generate_eq_ok.mp generated
  have l := s.layout_final name
  have shapes := Module.shapeOf_normal l.shapes_positive
  have normal {ρ : SignalId → Int} {env : String → Int}
      (h : Runs s.names (s.generated name).verilog.normal ρ env) :=
    (runs_normal l.shapes_positive).mp h
  refine ⟨_, Verilog.read_text (l.legal_names built legal),
    (l.wellDriven built).normal.processes_apart, ⟨_, s.registers_perm built, ?_⟩, ?_⟩
  · have updates : (s.generated name).verilog.normal.processes.flatMap (·.updates) =
        ((s.generated name).verilog.processes.flatMap (·.updates)).map Module.normalAssign := by
      simp only [Module.normal, List.flatMap_map, Module.normalProcess, List.map_flatMap]
    rw [updates, List.forall₂_map_right_iff]
    refine List.rel_flatMap (s.processes name) fun d p h => ?_
    have each := (List.forall₂_and_left (p := (· ∈ m.statements)) _ _).mpr
      ⟨fun st hst => (Stages.Process.mem_filter hst).1, h.updates⟩
    refine each.imp fun st u hu => ⟨?_, fun ρ env runs w => ?_⟩
    · exact (s.get?_names_eq (s.driven_named hu.1)).trans (congrArg some hu.2.target.symm)
    · rw [shapes, Module.normalAssign, Verilog.Expr.assigned_normal]
      exact (s.update_means hu.1 hu.2 (normal runs)).assigned w
  · intro d hd busy
    have active : d ∈ Body.active m m.domains.values := Stages.mem_active.mpr ⟨hd, busy⟩
    obtain ⟨clk, rst⟩ := Stages.Layout.clock_named s built active
    obtain ⟨p, process, only⟩ := s.exists_process name built active
    have edge (env : String → Int) : (s.generated name).verilog.normal.edge (s.nameOf d.clk) env =
        Verilog.nonblocking (s.generated name).verilog.shapeOf env
          (p.executed (s.generated name).verilog.shapeOf env) := by
      rw [Module.edge_normal l.shapes_positive, Module.edge, only, List.flatMap_cons,
        List.flatMap_nil, List.append_nil]
    have clocks : (s.generated name).verilog.normal.processes.filter (·.clk == s.nameOf d.clk) =
        [Module.normalProcess p] :=
      List.filter_map.trans (congrArg (List.map Module.normalProcess) only)
    refine ⟨_, _, s.get?_names_eq clk, clocks, fun ρ => ⟨?_, fun env runs => ⟨?_, ?_⟩⟩⟩
    · obtain ⟨env, runs⟩ := l.exists_runs ρ
      exact ⟨env, (runs_normal l.shapes_positive).mpr runs⟩
    · intro before st after hm hdomain last shape
      have named : st.target ∈ s.order := s.driven_named (by simp [hm])
      refine ⟨_, s.get?_names_eq named, ?_, ?_, Expr.assigned_of_keeps⟩
      · rw [shapes]
        exact l.shapeOf_signal named
      · rw [edge]
        exact process.edge_register (normal runs) rst hm hdomain last
    · intro id n hn others
      obtain ⟨named, rfl⟩ := s.get?_names_iff.mp hn
      rw [edge]
      exact process.edge_spares named others _

/-- Two statements of one register on one clock, with that of a register on another clock in
between. -/
def twoClocks : Netlist :=
  match ({} : Netlist).addDomain topDomain with
  | .error _ => {}
  | .ok (_, m) =>
    match m.addDomain "pix" with
    | .error _ => {}
    | .ok (_, m) =>
      let (a, m) := m.addSignal "a" (.unsignedBits 4) 9
      let (b, m) := m.addSignal "b" (.unsignedBits 4)
      let m := m.drive (some topDomain) a (.const 1 (.unsignedBits 4))
      let m := m.drive (some "pix") b (.signal a)
      m.drive (some topDomain) a (.signal b)

theorem twoClocks_built : Built twoClocks :=
  .statement _ _ _ (.statement _ _ _ (.statement _ _ _ (.signal _ _ _ (.signal _ _ _
    (.domain "pix" (.domain topDomain .empty rfl) rfl)))))

/-- The register gets the number of the other one, which its last statement says, or its
reset value. -/
theorem twoClocks_take_the_last : Built twoClocks ∧ Verilog.isIdentifier "top" = true ∧
    ∃ g M clk a, twoClocks.generate "top" [.clock topDomain, .signal ⟨4⟩] = .ok g ∧
      Verilog.read g.text = some M ∧ Table.get? g.names ⟨0⟩ = some clk ∧
      Table.get? g.names ⟨4⟩ = some a ∧ ∀ reset : Bool, ∃ env,
        (Shape.unsignedBits 4).bits (M.edge clk env a) = if reset then 9 else 6 := by
  obtain ⟨g, hg⟩ : ∃ g, twoClocks.generate "top" [.clock topDomain, .signal ⟨4⟩] = .ok g := ⟨_, rfl⟩
  obtain ⟨M, hread, -, -, domains⟩ := generated_text_updates_registers twoClocks_built (by decide) hg
  have statements : twoClocks.statements = [⟨⟨4⟩, .const 1 (.unsignedBits 4), some topDomain⟩,
      ⟨⟨5⟩, .signal ⟨4⟩, some "pix"⟩] ++ ⟨⟨4⟩, .signal ⟨5⟩, some topDomain⟩ :: [] := rfl
  obtain ⟨clk, p, hclk, -, edges⟩ := domains ⟨topDomain, ⟨0⟩, ⟨1⟩⟩ List.mem_cons_self
    ⟨⟨⟨4⟩, .signal ⟨5⟩, some topDomain⟩, by simp [statements], rfl⟩
  let ρ (reset : Bool) : SignalId → Int := fun id =>
    if id.index = 1 then reset.toNat else if id.index = 5 then 6 else 0
  obtain ⟨a, ha⟩ : ∃ a, Table.get? g.names ⟨4⟩ = some a := by
    obtain ⟨⟨env, runs⟩, all⟩ := edges (ρ false)
    obtain ⟨a, ha, -⟩ := (all env runs).1 _ _ _ statements rfl (by simp)
    exact ⟨a, ha⟩
  refine ⟨twoClocks_built, by decide, g, M, clk, a, hg, hread, hclk, ha, fun reset => ?_⟩
  obtain ⟨⟨env, runs⟩, all⟩ := edges (ρ reset)
  obtain ⟨a', ha', -, given, -⟩ := (all env runs).1 _ _ _ statements rfl (by simp)
  obtain rfl := Option.some.inj (ha.symm.trans ha')
  refine ⟨env, given.trans ?_⟩
  change (if (twoClocks.shapeOf ⟨1⟩).bits (ρ reset ⟨1⟩) = 0 then
      (Expr.signal ⟨5⟩).assigned twoClocks.shapeOf (ρ reset) 4
    else ((twoClocks.shapeOf ⟨4⟩).truncate (twoClocks.resetOf ⟨4⟩)).setWidth 4 : BitVec 4) =
      if reset then 9 else 6
  cases reset with
  | false => decide
  | true => decide

end Guest.Netlist

end NetBridge
