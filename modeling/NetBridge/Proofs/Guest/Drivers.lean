import NetBridge.Proofs.Guest.Body
import NetBridge.Proofs.Guest.Built
import NetBridge.Proofs.Guest.Generation
import NetBridge.Proofs.Verilog.ReadModule

/-! # Drivers in generated modules

Ties, assignments and processes share out the signals: a signal that nothing drives is
tied unless it is a port, and a driven one has an assignment or a process according to
its statements. Temporaries have an assignment each. -/
namespace NetBridge.Guest.Netlist

open Verilog (Module)

namespace Stages

variable {m : Netlist} {targets : List Target} (s : m.Stages targets)

def isPort (id : SignalId) : Bool := Table.contains s.ports id

/-- The signals that are tied to their reset values. -/
def tied : List SignalId := s.names.keys.filter fun id => !(Table.contains s.drivers id || s.isPort id)

/-- The combinational statements. -/
def combs (_ : m.Stages targets) : List Statement := m.statements.filter (·.domain.isNone)

def tie (m : Netlist) (nameOf : SignalId → String) (id : SignalId) : Verilog.Assign :=
  ⟨nameOf id, .literal (m.resetOf id) (m.shapeOf id)⟩

theorem names_eq : s.names = s.names.keys.map fun id => (id, s.nameOf id) := by
  have entry : ∀ p ∈ s.names, p = (p.1, s.nameOf p.1) := by
    intro p hp
    have hget : Table.get? s.names p.1 = some p.2 := Table.get?_of_mem s.names_nodup hp
    rw [nameOf, hget]
    rfl
  conv_lhs => rw [← List.map_id s.names]
  rw [Table.keys, List.map_map]
  exact List.map_congr_left entry

theorem ties_eq : (s.names.filterMap fun p => m.tie? s.drivers s.isPort p.1 p.2) =
    s.tied.map (tie m s.nameOf) := by
  rw [tied, ← List.filterMap_eq_map, List.filterMap_filter]
  conv_lhs => rw [s.names_eq, List.filterMap_map]
  refine List.filterMap_congr fun id _ => ?_
  cases hd : Table.contains s.drivers id <;> cases hp : s.isPort id <;> simp [tie?, tie, hd, hp]

/-- A named signal that is no port has a net, and so has every register. -/
theorem mem_nets {n : String} :
    n ∈ (s.names.filterMap fun p => m.net? s.drivers s.isPort p.1 p.2).map Verilog.Net.name ↔
      ∃ id ∈ s.order, s.nameOf id = n ∧
        (s.isPort id = false ∨ ∃ d, Table.get? s.drivers id = some (some d)) := by
  rw [s.names_eq, List.filterMap_map, List.map_filterMap, List.mem_filterMap]
  refine exists_congr fun id => ?_
  rw [s.mem_names_keys]
  refine and_congr_right fun _ => ?_
  simp only [Function.comp, net?]
  cases hd : Table.get? s.drivers id with
  | none => cases hp : s.isPort id <;> simp [Verilog.Net.name]
  | some driver =>
    cases driver with
    | none => cases hp : s.isPort id <;> simp [Verilog.Net.name]
    | some d => simp [Verilog.Net.name]

/-- The body before any statement is added. -/
def start : Body := { taken := s.taken, assigns := s.tied.map (tie m s.nameOf) }

/-- How the module of a netlist is laid out around its final body. -/
structure Layout (b : Body) (M : Module) : Prop where
  ports : M.ports = s.ports.map fun p => ⟨p.2, m.shapeOf p.1, s.nameOf p.1⟩
  nets : M.nets = (s.names.filterMap fun p => m.net? s.drivers s.isPort p.1 p.2) ++ b.wires
  assigns : M.assigns = b.assigns
  steps : s.start.Steps (· ∈ s.taken) (s.combs.map fun st => s.nameOf st.target) b
  /-- Every combinational statement is added at some point. -/
  combs : ∀ st ∈ s.combs, ∃ before after c,
    s.start.Steps (· ∈ s.taken) before c ∧ (c.addComb m s.nameOf st).Steps (· ∈ s.taken) after b
  processes : List.Forall₂ (Body.IsProcess m s.nameOf (· ∈ s.taken) b)
    (Body.active m m.domains.values) M.processes

theorem fits {st : Statement} (h : st ∈ m.statements) : Body.Fits m s.nameOf (· ∈ s.taken) st :=
  ⟨checkStatements_ok s.statements_ok st h, fun _ hid => s.nameOf_mem_taken (s.read_named h hid)⟩

/-- The body once the combinational statements are added. -/
def middle : Body := s.combs.foldl (fun b st => b.addComb m s.nameOf st) s.start

/-- The body once all processes are added. -/
def final : Body := (s.middle.addProcesses m s.nameOf m.domains.values).2

theorem verilog_eq (name : String) : (s.generated name).verilog = {
    name
    ports := s.ports.map fun p => ⟨p.2, m.shapeOf p.1, s.nameOf p.1⟩
    nets := (s.names.filterMap fun p => m.net? s.drivers s.isPort p.1 p.2) ++ s.final.wires
    assigns := s.final.assigns
    processes := (s.middle.addProcesses m s.nameOf m.domains.values).1 } := by
  simp only [final, middle, start, ← s.ties_eq]
  rfl

theorem layout_final (name : String) : s.Layout s.final (s.generated name).verilog := by
  have fits : ∀ st ∈ s.combs, Body.Fits m s.nameOf (· ∈ s.taken) st :=
    fun st hst => s.fits (List.mem_of_mem_filter hst)
  have first : s.start.Steps (· ∈ s.taken) _ s.middle := Body.addCombs_steps m s.nameOf _ _ fits
  obtain ⟨second, processes⟩ := Body.addProcesses_steps m s.nameOf s.middle m.domains.values
    fun st hst => s.fits hst
  rw [verilog_eq]
  refine ⟨rfl, rfl, rfl, ?_, ?_, processes⟩
  · rw [← List.append_nil (s.combs.map _)]
    exact first.trans second
  · intro st hst
    obtain ⟨before, after, c, earlier, later⟩ := Body.addCombs_split m s.nameOf s.start fits hst
    exact ⟨before, _, c, earlier, later.trans second⟩

theorem layout (name : String) : ∃ b, s.Layout b (s.generated name).verilog :=
  ⟨s.final, s.layout_final name⟩

theorem tied_iff {id : SignalId} : id ∈ s.tied ↔
    id ∈ s.order ∧ Table.get? s.drivers id = none ∧ id ∉ s.ports.keys := by
  rw [tied, List.mem_filter, s.mem_names_keys, Table.get?_eq_none_iff, ← Table.contains_iff,
    ← Table.contains_iff, isPort]
  cases Table.contains s.drivers id <;> cases Table.contains s.ports id <;> simp

theorem count_nameOf {ids : List SignalId} (named : ∀ i ∈ ids, i ∈ s.order) {id : SignalId}
    (h : id ∈ s.order) : (ids.map s.nameOf).count (s.nameOf id) = ids.count id := by
  induction ids with
  | nil => rfl
  | cons i rest ih =>
    have hrest := ih fun j hj => named j (List.mem_cons_of_mem i hj)
    have same : s.nameOf i = s.nameOf id ↔ i = id := by
      constructor
      · exact s.nameOf_injective (named i List.mem_cons_self) h
      · exact congrArg s.nameOf
    by_cases hi : i = id
    · simp [hi, hrest]
    · simp [hrest, same, hi]

namespace Layout

variable {s} {b : Body} {M : Module}

theorem taken (l : s.Layout b M) : b.taken = b.temps.reverse ++ s.taken := by
  obtain ⟨new, wires, taken, -⟩ := l.steps.added
  rw [taken, Body.temps, wires]
  rfl

/-- Ties, temporaries and combinational statements are what is assigned. -/
theorem targets_perm (l : s.Layout b M) : (M.assigns.map (·.target)).Perm
    (s.tied.map s.nameOf ++ (b.temps ++ s.combs.map fun st => s.nameOf st.target)) := by
  obtain ⟨new, wires, -, assigned⟩ := l.steps.added
  have first : s.start.assigns.map (·.target) = s.tied.map s.nameOf := by
    simp [start, tie, Function.comp_def]
  rw [l.assigns, Body.temps, wires, ← first]
  exact assigned

theorem tie_mem (l : s.Layout b M) {id : SignalId} (h : id ∈ s.tied) :
    tie m s.nameOf id ∈ M.assigns := by
  rw [l.assigns]
  exact l.steps.kept _ (List.mem_map_of_mem h)

theorem values (l : s.Layout b M) : ∀ a ∈ M.assigns, ∀ n ∈ a.value.names,
    n ∈ s.taken ∨ n ∈ b.temps := by
  intro a ha n hn
  rw [l.assigns] at ha
  rcases l.steps.values a ha with hstart | hvalue
  · obtain ⟨id, -, rfl⟩ := List.mem_map.mp hstart
    cases hn
  · exact hvalue n hn

theorem taken_nodup (l : s.Layout b M) : (b.temps.reverse ++ s.taken).Nodup :=
  l.taken ▸ l.steps.nodup s.taken_nodup

theorem temps_disjoint (l : s.Layout b M) {n : String} (h : n ∈ b.temps) : n ∉ s.taken :=
  fun ht => (List.nodup_append.mp l.taken_nodup).2.2 n (List.mem_reverse.mpr h) n ht rfl

theorem temps_nodup (l : s.Layout b M) : b.temps.Nodup :=
  List.nodup_reverse.mp (List.nodup_append.mp l.taken_nodup).1

/-- The assignments of a signal are its tie and its combinational statements. -/
theorem assignsOf_nameOf (l : s.Layout b M) {id : SignalId} (h : id ∈ s.order) :
    M.assignsOf (s.nameOf id) = s.tied.count id + (s.combs.map (·.target)).count id := by
  have notTemp : s.nameOf id ∉ b.temps := fun ht => l.temps_disjoint ht (s.nameOf_mem_taken h)
  have combNames : s.combs.map (fun st => s.nameOf st.target) =
      (s.combs.map (·.target)).map s.nameOf := by simp [Function.comp_def]
  rw [Module.assignsOf, l.targets_perm.count_eq, List.count_append, List.count_append, combNames,
    List.count_eq_zero_of_not_mem notTemp, Nat.zero_add, s.count_nameOf _ h, s.count_nameOf _ h]
  · intro i hi
    obtain ⟨st, hst, rfl⟩ := List.mem_map.mp hi
    exact s.driven_named (List.mem_of_mem_filter hst)
  · exact fun i hi => (s.tied_iff.mp hi).1

theorem assignsOf_temp (l : s.Layout b M) {n : String} (h : n ∈ b.temps) :
    M.assignsOf n = 1 := by
  have free : ∀ id ∈ s.order, s.nameOf id ≠ n := fun id hid heq =>
    l.temps_disjoint h (heq ▸ s.nameOf_mem_taken hid)
  have notTied : n ∉ s.tied.map s.nameOf := by
    intro hn
    obtain ⟨id, hid, heq⟩ := List.mem_map.mp hn
    exact free id (s.tied_iff.mp hid).1 heq
  have notComb : n ∉ s.combs.map fun st => s.nameOf st.target := by
    intro hn
    obtain ⟨st, hst, heq⟩ := List.mem_map.mp hn
    exact free st.target (s.driven_named (List.mem_of_mem_filter hst)) heq
  rw [Module.assignsOf, l.targets_perm.count_eq, List.count_append, List.count_append,
    List.count_eq_zero_of_not_mem notTied, List.count_eq_zero_of_not_mem notComb,
    List.count_eq_one_of_mem l.temps_nodup h]

/-- A statement of the domain drives the name. -/
def drivesIn (s : m.Stages targets) (n : String) (d : ClockDomain) : Bool :=
  m.statements.any fun st => st.domain == some d.name && s.nameOf st.target == n

theorem processesOf_eq (l : s.Layout b M) (n : String) :
    M.processesOf n = (Body.active m m.domains.values).countP (drivesIn s n) := by
  have processes := l.processes
  rw [Module.processesOf]
  generalize Body.active m m.domains.values = active at processes
  generalize M.processes = written at processes
  induction processes with
  | nil => rfl
  | @cons d p ds ps hp _ ih =>
    have same : p.targets.contains n = drivesIn s n d := by
      rw [hp.targets, Bool.eq_iff_iff]
      simp [drivesIn, and_assoc]
    rw [List.countP_cons, List.countP_cons, ih, same]

theorem drivesIn_nameOf {id : SignalId} (h : id ∈ s.order) (d : ClockDomain) :
    drivesIn s (s.nameOf id) d = true ↔
      ∃ st ∈ m.statements, st.domain = some d.name ∧ st.target = id := by
  simp only [drivesIn, List.any_eq_true, Bool.and_eq_true, beq_iff_eq]
  refine exists_congr fun st => and_congr_right fun hst => and_congr_right fun _ => ?_
  exact ⟨s.nameOf_injective (s.driven_named hst) h, congrArg s.nameOf⟩

/-- The domain of a register has statements, and no other domain has one of it. -/
theorem processesOf_register (built : Built m) (l : s.Layout b M) {id : SignalId}
    (h : id ∈ s.order) {name : String} (driven : Table.get? s.drivers id = some (some name)) :
    M.processesOf (s.nameOf id) = 1 := by
  obtain ⟨st, hst, htarget⟩ := s.drivenBy.driven id (Table.mem_keys_of_get? driven)
  have hdomain : st.domain = some name := by
    have := s.drivenBy.driver st hst
    rw [htarget, driven] at this
    exact (Option.some.inj this).symm
  have same : ∀ d, drivesIn s (s.nameOf id) d = true ↔ d.name = name := by
    intro d
    rw [drivesIn_nameOf h]
    constructor
    · rintro ⟨t, ht, hd, htt⟩
      have := s.drivenBy.domain_eq ht hst (htt.trans htarget.symm)
      rw [hd, hdomain] at this
      exact Option.some.inj this
    · rintro rfl
      exact ⟨st, hst, hdomain, htarget⟩
  obtain ⟨d, hd⟩ := Option.isSome_iff_exists.mp (s.drivenBy.known st hst name hdomain)
  obtain ⟨hmem, hdname⟩ := built.domain?_eq_some_iff.mp hd
  have nodup : ((Body.active m m.domains.values).map (·.name)).Nodup := by
    have all : (m.domains.values.map (·.name)).Nodup := by
      rw [built.domain_names]
      exact built.domains_nodup
    exact all.sublist (List.filter_sublist.map _)
  have active : d ∈ Body.active m m.domains.values := by
    refine List.mem_filter.mpr ⟨hmem, ?_⟩
    have : st ∈ m.statements.filter (·.domain == some d.name) :=
      List.mem_filter.mpr ⟨hst, by simp [hdomain, hdname]⟩
    cases hf : m.statements.filter (·.domain == some d.name) with
    | nil => simp [hf] at this
    | cons _ _ => rfl
  calc
    M.processesOf (s.nameOf id) =
        (Body.active m m.domains.values).countP (drivesIn s (s.nameOf id)) := l.processesOf_eq _
    _ = ((Body.active m m.domains.values).map (·.name)).count name := by
      rw [List.count, List.countP_map]
      refine List.countP_congr fun e _ => ?_
      rw [same]
      simp
    _ = 1 := List.count_eq_one_of_mem nodup (hdname ▸ List.mem_map_of_mem active)

theorem processesOf_of_not_register (l : s.Layout b M) {id : SignalId} (h : id ∈ s.order)
    (idle : ∀ d, Table.get? s.drivers id ≠ some (some d)) : M.processesOf (s.nameOf id) = 0 := by
  rw [l.processesOf_eq]
  refine List.countP_eq_zero.mpr fun d _ hd => ?_
  obtain ⟨st, hst, hdomain, rfl⟩ := (drivesIn_nameOf h d).mp hd
  exact idle d.name ((s.drivenBy.driver st hst).trans (congrArg some hdomain))

theorem processesOf_temp (l : s.Layout b M) {n : String} (h : n ∈ b.temps) :
    M.processesOf n = 0 := by
  rw [l.processesOf_eq]
  refine List.countP_eq_zero.mpr fun d _ hd => ?_
  obtain ⟨st, hst, heq⟩ := List.any_eq_true.mp hd
  simp only [Bool.and_eq_true, beq_iff_eq] at heq
  exact l.temps_disjoint h (heq.2 ▸ s.nameOf_mem_taken (s.driven_named hst))

/-- Who drives a signal decides what drives its net. -/
theorem counts (built : Built m) (l : s.Layout b M) {id : SignalId} (h : id ∈ s.order) :
    M.assignsOf (s.nameOf id) = (match Table.get? s.drivers id with
      | none => if id ∈ s.ports.keys then 0 else 1
      | some none => 1
      | some (some _) => 0) ∧
    M.processesOf (s.nameOf id) = (match Table.get? s.drivers id with
      | some (some _) => 1
      | _ => 0) := by
  have tied_nodup : s.tied.Nodup := s.names_nodup.filter _
  have combs_nodup : (s.combs.map (·.target)).Nodup := s.drivenBy.comb_nodup
  have mem_combs : id ∈ s.combs.map (·.target) ↔ Table.get? s.drivers id = some none := by
    constructor
    · intro hmem
      obtain ⟨st, hst, rfl⟩ := List.mem_map.mp hmem
      obtain ⟨hst, hnone⟩ := List.mem_filter.mp hst
      rw [s.drivenBy.driver st hst, Option.isNone_iff_eq_none.mp hnone]
    · intro hget
      obtain ⟨st, hst, rfl⟩ := s.drivenBy.driven id (Table.mem_keys_of_get? hget)
      rw [s.drivenBy.driver st hst] at hget
      exact List.mem_map_of_mem (List.mem_filter.mpr ⟨hst, by simp [Option.some.inj hget]⟩)
  rw [l.assignsOf_nameOf h]
  cases hd : Table.get? s.drivers id with
  | none =>
    have notComb : id ∉ s.combs.map (·.target) := by simp [mem_combs, hd]
    rw [List.count_eq_zero_of_not_mem notComb]
    refine ⟨?_, l.processesOf_of_not_register h (by simp [hd])⟩
    by_cases hp : id ∈ s.ports.keys
    · have notTied : id ∉ s.tied := by simp [s.tied_iff, hp]
      simp [hp, List.count_eq_zero_of_not_mem notTied]
    · have isTied : id ∈ s.tied := s.tied_iff.mpr ⟨h, hd, hp⟩
      simp [hp, List.count_eq_one_of_mem tied_nodup isTied]
  | some driver =>
    have notTied : id ∉ s.tied := by simp [s.tied_iff, hd]
    rw [List.count_eq_zero_of_not_mem notTied]
    cases driver with
    | none =>
      have isComb : id ∈ s.combs.map (·.target) := mem_combs.mpr hd
      rw [List.count_eq_one_of_mem combs_nodup isComb]
      exact ⟨rfl, l.processesOf_of_not_register h (by simp [hd])⟩
    | some d =>
      have notComb : id ∉ s.combs.map (·.target) := by simp [mem_combs, hd]
      rw [List.count_eq_zero_of_not_mem notComb]
      exact ⟨rfl, l.processesOf_register built h hd⟩

/-- What is declared are the named signals and the temporaries. -/
theorem mem_declared (l : s.Layout b M) {n : String} :
    n ∈ M.declared ↔ n ∈ s.taken ∨ n ∈ b.temps := by
  have ports : M.ports.map (·.name) = s.ports.keys.map s.nameOf := by
    rw [l.ports]
    simp [Table.keys, Function.comp_def]
  rw [Module.declared, ports, l.nets, List.map_append, List.mem_append, List.mem_append, s.mem_nets,
    s.mem_taken, ← Body.temps]
  constructor
  · rintro (hport | ⟨id, hid, rfl, -⟩ | htemp)
    · obtain ⟨id, hid, rfl⟩ := List.mem_map.mp hport
      exact Or.inl ⟨id, s.port_named hid, rfl⟩
    · exact Or.inl ⟨id, hid, rfl⟩
    · exact Or.inr htemp
  · rintro (⟨id, hid, rfl⟩ | htemp)
    · by_cases hp : id ∈ s.ports.keys
      · exact Or.inl (List.mem_map_of_mem hp)
      · have : s.isPort id = false := by
          rw [isPort, Bool.eq_false_iff, Ne, Table.contains_iff]
          exact hp
        exact Or.inr (Or.inl ⟨id, hid, rfl, Or.inl this⟩)
    · exact Or.inr (Or.inr htemp)

theorem mem_inputs (l : s.Layout b M) {n : String} :
    n ∈ M.inputs ↔ ∃ id ∈ s.ports.keys, s.nameOf id = n ∧ Table.get? s.drivers id = none := by
  rw [Module.inputs, l.ports, List.filter_map, List.map_map]
  simp only [List.mem_map, List.mem_filter, Function.comp, decide_eq_true_eq]
  have direction : ∀ p ∈ s.ports, p.2 = .input ↔ Table.get? s.drivers p.1 = none := by
    intro p hp
    rw [s.portsFor.direction p hp, Table.get?_eq_none_iff, ← Table.contains_iff]
    cases Table.contains s.drivers p.1 <;> simp
  constructor
  · rintro ⟨p, ⟨hp, hd⟩, rfl⟩
    exact ⟨p.1, Table.mem_keys_of_mem hp, rfl, (direction p hp).mp hd⟩
  · rintro ⟨id, hid, rfl, hnone⟩
    obtain ⟨p, hp, rfl⟩ := List.mem_map.mp hid
    exact ⟨p, ⟨hp, (direction p hp).mpr hnone⟩, rfl⟩

theorem assign_target (l : s.Layout b M) {a : Verilog.Assign} (h : a ∈ M.assigns) :
    a.target ∈ s.taken ∨ a.target ∈ b.temps := by
  have hmem : a.target ∈ M.assigns.map (·.target) := List.mem_map_of_mem h
  rw [l.targets_perm.mem_iff, List.mem_append, List.mem_append] at hmem
  rcases hmem with htied | htemp | hcomb
  · obtain ⟨id, hid, heq⟩ := List.mem_map.mp htied
    exact Or.inl (heq ▸ s.nameOf_mem_taken (s.tied_iff.mp hid).1)
  · exact Or.inr htemp
  · obtain ⟨st, hst, heq⟩ := List.mem_map.mp hcomb
    exact Or.inl (heq ▸ s.nameOf_mem_taken (s.driven_named (List.mem_of_mem_filter hst)))

/-- The clock and the reset of a domain that has statements are named. -/
theorem clock_named (s : m.Stages targets) (built : Built m) {d : ClockDomain}
    (h : d ∈ Body.active m m.domains.values) : d.clk ∈ s.order ∧ d.rst ∈ s.order := by
  obtain ⟨hd, hbusy⟩ := List.mem_filter.mp h
  obtain ⟨st, hst, hdomain⟩ : ∃ st ∈ m.statements, st.domain = some d.name := by simpa using hbusy
  have hfound : st.domain.bind m.domain? = some d := by
    rw [hdomain]
    exact built.domain?_eq_some_iff.mpr ⟨hd, rfl⟩
  constructor
  · exact s.mem_order.mpr (Or.inr (mem_mentioned.mpr ⟨st, hst, Or.inr (Or.inr ⟨d, hfound, Or.inl rfl⟩)⟩))
  · exact s.mem_order.mpr (Or.inr (mem_mentioned.mpr ⟨st, hst, Or.inr (Or.inr ⟨d, hfound, Or.inr rfl⟩)⟩))

/-- Every process is the process of a domain. -/
theorem exists_domain (l : s.Layout b M) {p : Verilog.AlwaysBlock} (h : p ∈ M.processes) :
    ∃ d ∈ Body.active m m.domains.values, Body.IsProcess m s.nameOf (· ∈ s.taken) b d p := by
  have processes := l.processes
  generalize Body.active m m.domains.values = active at processes
  generalize M.processes = written at processes h
  induction processes with
  | nil => cases h
  | @cons d q ds qs hq _ ih =>
    rcases List.mem_cons.mp h with rfl | h
    · exact ⟨d, List.mem_cons_self, hq⟩
    · obtain ⟨e, he, hp⟩ := ih h
      exact ⟨e, List.mem_cons_of_mem d he, hp⟩

/-- The updates and the resets of a process know their names, whatever is the matter with
its clock and its reset. -/
theorem process_known (l : s.Layout b M) {p : Verilog.AlwaysBlock} (h : p ∈ M.processes) :
    (∀ u ∈ p.updates, ∀ n ∈ u.names, n ∈ s.taken ∨ n ∈ b.temps) ∧
      (∀ r ∈ p.resets, r.target ∈ p.targets) ∧ ∀ n ∈ p.targets, n ∈ s.taken := by
  obtain ⟨d, hd, hp⟩ := l.exists_domain h
  have targets : ∀ n ∈ p.targets, n ∈ s.taken := by
    intro n hn
    rw [hp.targets] at hn
    obtain ⟨st, hst, rfl⟩ := List.mem_map.mp hn
    exact s.nameOf_mem_taken (s.driven_named (List.mem_of_mem_filter hst))
  refine ⟨fun u hu n hn => ?_, fun r hr => ?_, targets⟩
  · rcases List.mem_cons.mp hn with rfl | hvalue
    · exact Or.inl (targets u.target (List.mem_map_of_mem hu))
    · exact hp.values u hu n hvalue
  · rw [hp.resets] at hr
    obtain ⟨id, hid, rfl⟩ := List.mem_map.mp hr
    obtain ⟨st, hst, rfl⟩ := List.mem_map.mp (List.mem_eraseDups.mp hid)
    rw [hp.targets]
    exact List.mem_map.mpr ⟨st, hst, rfl⟩

theorem process_ok (l : s.Layout b M) (built : Built m) {p : Verilog.AlwaysBlock}
    (h : p ∈ M.processes) : (∀ n ∈ p.names, n ∈ s.taken ∨ n ∈ b.temps) ∧
      ∀ r ∈ p.resets, r.target ∈ p.targets := by
  obtain ⟨d, hd, hp⟩ := l.exists_domain h
  obtain ⟨updates, resets, targets⟩ := l.process_known h
  obtain ⟨clk, rst⟩ := clock_named s built hd
  refine ⟨fun n hn => ?_, resets⟩
  simp only [Verilog.AlwaysBlock.names, List.mem_cons, List.mem_append, List.mem_flatMap,
    List.mem_map] at hn
  rcases hn with rfl | rfl | ⟨u, hu, hn⟩ | ⟨r, hr, rfl⟩
  · exact Or.inl (hp.clk ▸ s.nameOf_mem_taken clk)
  · exact Or.inl (hp.rst ▸ s.nameOf_mem_taken rst)
  · exact updates u hu n hn
  · exact Or.inl (targets r.target (resets r hr))

theorem wellDriven (l : s.Layout b M) (built : Built m) : M.WellDriven := by
  refine ⟨?_, ?_, ?_, fun p hp => (l.process_ok built hp).2⟩
  · intro n hn
    rw [l.mem_declared]
    rcases List.mem_append.mp hn with hassign | hprocess
    · obtain ⟨a, ha, hn⟩ := List.mem_flatMap.mp hassign
      rcases List.mem_cons.mp hn with rfl | hn
      · exact l.assign_target ha
      · exact l.values a ha n hn
    · obtain ⟨p, hp, hn⟩ := List.mem_flatMap.mp hprocess
      exact (l.process_ok built hp).1 n hn
  · intro n hn
    obtain ⟨id, hid, rfl, hnone⟩ := l.mem_inputs.mp hn
    have counts := l.counts built (s.port_named hid)
    simpa [hnone, hid] using counts
  · intro n hn hinput
    rcases l.mem_declared.mp hn with hsignal | htemp
    · obtain ⟨id, hid, rfl⟩ := s.mem_taken.mp hsignal
      have counts := l.counts built hid
      cases hd : Table.get? s.drivers id with
      | none =>
        have notPort : id ∉ s.ports.keys := fun hp => hinput (l.mem_inputs.mpr ⟨id, hp, rfl, hd⟩)
        simp only [hd, if_neg notPort] at counts
        exact Or.inl counts
      | some driver =>
        cases driver with
        | none =>
          simp only [hd] at counts
          exact Or.inl counts
        | some d =>
          simp only [hd] at counts
          exact Or.inr counts
    · exact Or.inl ⟨l.assignsOf_temp htemp, l.processesOf_temp htemp⟩

/-- The only assignment of a signal that nothing drives. -/
theorem tie_only (l : s.Layout b M) (built : Built m) {id : SignalId} (h : id ∈ s.order)
    (undriven : ∀ st ∈ m.statements, st.target ≠ id) (internal : id ∉ s.ports.keys) :
    M.assigns.filter (·.target == s.nameOf id) = [tie m s.nameOf id] := by
  have hnone : Table.get? s.drivers id = none := by
    rw [Table.get?_eq_none_iff]
    intro hkey
    obtain ⟨st, hst, heq⟩ := s.drivenBy.driven id hkey
    exact undriven st hst heq
  have count := (l.counts built h).1
  simp only [hnone, if_neg internal] at count
  exact Module.only_assign (l.tie_mem (s.tied_iff.mpr ⟨h, hnone, internal⟩)) count

/-- The names of signals and of temporaries are identifiers. -/
theorem known_isName (l : s.Layout b M) {n : String} (h : n ∈ s.taken ∨ n ∈ b.temps) :
    Verilog.isName n = true := by
  refine l.steps.legal s.taken_legal n ?_
  rw [l.taken, List.mem_append, List.mem_reverse]
  exact h.symm

theorem legal_names (l : s.Layout b M) (built : Built m)
    (name : Verilog.isIdentifier M.name = true) : M.Legal := by
  have declared : ∀ n ∈ M.declared, Verilog.isName n = true :=
    fun n hn => l.known_isName (l.mem_declared.mp hn)
  exact ⟨name, declared, fun n hn => declared n ((l.wellDriven built).closed n hn)⟩

end Layout

end Stages

/-- The text of a generated module is closed and every net has one driver: what the text
mentions it declares, inputs are not driven, and any other net is driven by one assignment
or in one process. A signal that no statement drives and that is no port is tied to its
reset value. All signals that are looked up have names; a name that was missing would be
empty and no identifier. -/
theorem generated_text_single_driver {m : Netlist} (built : Built m) {name : String}
    (legal : Verilog.isIdentifier name = true) {targets : List Target} {g : Generated}
    (generated : m.generate name targets = .ok g) :
    ∃ M, Verilog.read g.text = some M ∧ M.WellDriven ∧ M.name = name ∧
      (∀ n ∈ M.names ++ M.declared, Verilog.isName n = true) ∧
      (∀ id n, Table.get? g.names id = some n → id ∉ g.ports.keys →
        (∀ st ∈ m.statements, st.target ≠ id) →
        M.assigns.filter (·.target == n) = [⟨n, .literal (m.resetOf id) (m.shapeOf id)⟩]) ∧
      ∀ id, id ∈ g.ports.keys ∨ (∃ st ∈ m.statements, st.target = id ∨ id ∈ st.value.reads ∨
          ∃ d, st.domain.bind m.domain? = some d ∧ (d.clk = id ∨ d.rst = id)) →
        ∃ n, Table.get? g.names id = some n ∧ n ∈ M.declared := by
  obtain ⟨s, rfl⟩ := generate_eq_ok.mp generated
  obtain ⟨b, l⟩ := s.layout name
  have driven := l.wellDriven built
  have legal_module := l.legal_names built legal
  refine ⟨_, Verilog.read_text legal_module, driven.normal, rfl, ?_, ?_, ?_⟩
  · intro n hn
    rw [Module.names_normal, Module.declared_normal] at hn
    rcases List.mem_append.mp hn with hn | hn
    · exact legal_module.names n hn
    · exact legal_module.declared n hn
  · intro id n hn internal undriven
    have hid : id ∈ s.order := s.mem_names_keys.mp (Table.mem_keys_of_get? hn)
    obtain rfl := Option.some.inj ((s.get?_names_eq hid).symm.trans hn)
    have tie := l.tie_only built hid undriven internal
    have texts : (s.generated name).verilog.normal.assigns.filter (·.target == s.nameOf id) =
        ((s.generated name).verilog.assigns.filter (·.target == s.nameOf id)).map
          Module.normalAssign := List.filter_map
    rw [texts, tie]
    simp [Stages.tie, Module.normalAssign, Verilog.Expr.normal, built.truncate_resetOf]
  · intro id hid
    have named : id ∈ s.order := s.mem_order.mpr (hid.imp_right mem_mentioned.mpr)
    refine ⟨s.nameOf id, s.get?_names_eq named, ?_⟩
    rw [Module.declared_normal]
    exact l.mem_declared.mpr (Or.inl (s.nameOf_mem_taken named))

/-- A counter that steps by an input that nothing drives, through a temporary. -/
def counter : Netlist :=
  match ({} : Netlist).addDomain topDomain with
  | .ok (_, m) =>
    let (step, m) := m.addSignal "step" (.unsignedBits 4) 1
    let (count, m) := m.addSignal "count" (.unsignedBits 4)
    m.drive (some topDomain) count (.slice (.binary .add (.signal count) (.signal step)) 0 4)
  | .error _ => {}

theorem counter_built : Built counter :=
  .statement _ _ _ (.signal _ _ _ (.signal _ _ _ (.domain topDomain .empty rfl)))

theorem counter_single_driver : Built counter ∧ Verilog.isIdentifier "counter" = true ∧
    ∃ g M, counter.generate "counter" [.signal ⟨3⟩, .clock topDomain] = .ok g ∧
      Verilog.read g.text = some M ∧ M.WellDriven := by
  obtain ⟨g, hg⟩ : ∃ g, counter.generate "counter" [.signal ⟨3⟩, .clock topDomain] = .ok g :=
    ⟨_, rfl⟩
  obtain ⟨M, hread, driven, -⟩ := generated_text_single_driver counter_built (by decide) hg
  exact ⟨counter_built, by decide, g, M, hg, hread, driven⟩

end NetBridge.Guest.Netlist
