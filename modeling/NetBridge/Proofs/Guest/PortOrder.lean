import NetBridge.Proofs.Guest.Generation

/-! # The order of targets

The targets only say which signals become ports. Their order decides the order in which
names are given, and that makes no difference as long as no two signals want one name. -/
namespace NetBridge.Guest.Netlist

/-- Two lists of targets lead to the same signals: one may be a permutation of the other,
repeat targets, or reach the same signal by another target. Targets that lead nowhere are
compared as well. -/
def SameSignals (m : Netlist) (targets targets' : List Target) : Prop :=
  ∀ result, result ∈ targets.map m.resolve ↔ result ∈ targets'.map m.resolve

/-- The name that a signal gets if no other signal has it. -/
def wantedName (m : Netlist) (id : SignalId) : String := Verilog.legalName (m.signalName id)

theorem SameSignals.symm {m : Netlist} {targets targets' : List Target}
    (h : m.SameSignals targets targets') : m.SameSignals targets' targets := fun r => (h r).symm

theorem SameSignals.of_perm {m : Netlist} {targets targets' : List Target}
    (h : targets.Perm targets') : m.SameSignals targets targets' := fun _ =>
  (h.map m.resolve).mem_iff

theorem SameSignals.resolved {m : Netlist} {targets targets' : List Target}
    (h : m.SameSignals targets targets') {t : Target} (ht : t ∈ targets') :
    ∃ u ∈ targets, m.resolve u = m.resolve t :=
  List.mem_map.mp ((h _).mpr (List.mem_map_of_mem ht))

/-- Targets that lead somewhere all become ports. -/
theorem exists_ports {m : Netlist} {targets : List Target}
    (h : ∀ t ∈ targets, ∃ id, m.resolve t = .ok id) (drivers : Drivers) :
    ∃ ports, m.ports drivers targets = .ok ports := by
  have from_any : ∀ start, ∃ ports, targets.foldlM (m.addPort drivers) start = .ok ports := by
    induction targets with
    | nil => exact fun start => ⟨start, rfl⟩
    | cons t rest ih =>
      intro start
      obtain ⟨⟨id, hid⟩, others⟩ := List.forall_mem_cons.mp h
      obtain ⟨grown, hgrown⟩ : ∃ grown, m.addPort drivers start t = .ok grown := by
        rw [addPort, hid]
        change ∃ grown, (if Table.contains start id then _ else _) = _
        cases Table.contains start id <;> exact ⟨_, rfl⟩
      rw [List.foldlM_cons, hgrown]
      exact ih others grown
  exact from_any []

/-- Without a clash every signal gets the name that it wants. -/
theorem get?_nameAll_of_apart (m : Netlist) (taken : List String) (ids : List SignalId)
    (apart : (ids.map m.wantedName).Nodup) (free : ∀ id ∈ ids, m.wantedName id ∉ taken)
    (id : SignalId) : Table.get? (m.nameAll taken ids).1 id =
      if id ∈ ids then some (m.wantedName id) else none := by
  induction ids generalizing taken with
  | nil => rfl
  | cons first rest ih =>
    obtain ⟨other, others⟩ := List.nodup_cons.mp apart
    obtain ⟨here, there⟩ := List.forall_mem_cons.mp free
    have name : Verilog.freshName taken (m.signalName first) = m.wantedName first :=
      if_neg fun clash => here (List.contains_iff_mem.mp clash)
    -- The name that was just given is wanted by none of the others.
    have rest_free : ∀ i ∈ rest, m.wantedName i ∉ m.wantedName first :: taken := fun i hi clash =>
      (List.mem_cons.mp clash).elim (fun same => other (same ▸ List.mem_map_of_mem hi)) (there i hi)
    have others_named := ih _ others rest_free
    let given := Verilog.freshName taken (m.signalName first)
    change (if first = id then some given
      else Table.get? (m.nameAll (given :: taken) rest).1 id) = _
    rw [show given = m.wantedName first from name, others_named]
    by_cases h : first = id
    · simp [h]
    · simp [h, Ne.symm h]

theorem bySignal_congr {α : Type} (m : Netlist) {t t' : Table SignalId α}
    (h : ∀ id, Table.get? t id = Table.get? t' id) : m.bySignal t = m.bySignal t' := by
  simp only [bySignal, h]

namespace Stages

variable {m : Netlist} {targets targets' : List Target}

/-- The signals that are named want different names. -/
theorem order_apart (s : m.Stages targets) (apart : (s.names.keys.map m.wantedName).Nodup) :
    (s.order.map m.wantedName).Nodup := by
  have perm : s.names.keys.Perm s.order :=
    (List.perm_ext_iff_of_nodup s.names_nodup s.order_nodup).mpr fun _ => s.mem_names_keys
  exact (perm.map m.wantedName).nodup_iff.mp apart

theorem nameOf_of_apart (s : m.Stages targets) (apart : (s.names.keys.map m.wantedName).Nodup)
    {id : SignalId} (h : id ∈ s.order) : s.nameOf id = m.wantedName id := by
  have hget := s.get?_names_eq h
  rw [s.get?_names h, m.get?_nameAll_of_apart [] s.order (s.order_apart apart) (by simp),
    if_pos h] at hget
  exact (Option.some.inj hget).symm

theorem get?_ports_iff (s : m.Stages targets) {id : SignalId} {d : PortDirection} :
    Table.get? s.ports id = some d ↔ .ok id ∈ targets.map m.resolve ∧
      d = if Table.contains s.drivers id then .output else .input := by
  constructor
  · intro h
    obtain ⟨t, ht, hr⟩ := s.portsFor.requested id (Table.mem_keys_of_get? h)
    exact ⟨List.mem_map.mpr ⟨t, ht, hr⟩, s.portsFor.direction _ (Table.mem_of_get? h)⟩
  · rintro ⟨hid, rfl⟩
    obtain ⟨t, ht, hr⟩ := List.mem_map.mp hid
    obtain ⟨id', hport, hr'⟩ := s.portsFor.resolved t ht
    obtain rfl := Except.ok.inj (hr.symm.trans hr')
    obtain ⟨d, hd⟩ := Table.exists_get?_of_mem_keys hport
    exact hd.trans (congrArg some (s.portsFor.direction _ (Table.mem_of_get? hd)))

theorem get?_ports_same (s : m.Stages targets) (s' : m.Stages targets')
    (same : m.SameSignals targets targets') (id : SignalId) :
    Table.get? s.ports id = Table.get? s'.ports id := by
  have drivers : s.drivers = s'.drivers := Except.ok.inj (s.drivers_ok.symm.trans s'.drivers_ok)
  refine Option.ext fun d => ?_
  rw [s.get?_ports_iff, s'.get?_ports_iff, drivers, same]

theorem mem_order_same (s : m.Stages targets) (s' : m.Stages targets')
    (same : m.SameSignals targets targets') (id : SignalId) : id ∈ s.order ↔ id ∈ s'.order := by
  rw [s.mem_order, s'.mem_order, ← Table.get?_isSome_iff, ← Table.get?_isSome_iff,
    s.get?_ports_same s' same]

theorem names_same (s : m.Stages targets) (s' : m.Stages targets')
    (same : m.SameSignals targets targets') (apart : (s.names.keys.map m.wantedName).Nodup) :
    s.names = s'.names := by
  have order : s.order.Perm s'.order :=
    (List.perm_ext_iff_of_nodup s.order_nodup s'.order_nodup).mpr (s.mem_order_same s' same)
  have wanted := s.order_apart apart
  refine m.bySignal_congr fun id => ?_
  rw [m.get?_nameAll_of_apart [] s.order wanted (by simp),
    m.get?_nameAll_of_apart [] s'.order ((order.map m.wantedName).nodup_iff.mp wanted) (by simp)]
  simp only [order.mem_iff]

/-- The same signals become ports of another list of targets. -/
theorem reordered (s : m.Stages targets) (same : m.SameSignals targets targets') :
    Nonempty (m.Stages targets') := by
  have resolved : ∀ t ∈ targets', ∃ id ∈ s.ports.keys, m.resolve t = .ok id := by
    intro t ht
    obtain ⟨u, hu, heq⟩ := same.resolved ht
    obtain ⟨id, hid, hr⟩ := s.portsFor.resolved u hu
    exact ⟨id, hid, heq ▸ hr⟩
  obtain ⟨ports, ports_ok⟩ := exists_ports
    (fun t ht => (resolved t ht).imp fun _ h => h.2) s.drivers
  have allocated : ∀ id ∈ ports.keys ++ m.mentioned, m.signals.contains id = true := by
    intro id hid
    refine s.allocated (s.mem_order.mpr ((List.mem_append.mp hid).imp_left fun hport => ?_))
    obtain ⟨t, ht, hr⟩ := (ports_portsFor ports_ok).requested id hport
    obtain ⟨id', hid', hr'⟩ := resolved t ht
    obtain rfl := Except.ok.inj (hr.symm.trans hr')
    exact hid'
  obtain ⟨order, order_ok⟩ := exists_named allocated
  exact ⟨⟨s.drivers, ports, order, s.widths_ok, s.drivers_ok, s.statements_ok, ports_ok, order_ok⟩⟩

end Stages

/-- Two modules have the same ports with the same directions and emit the same signals. Unless
two of these want one name, each of them has the name that it wants, in both. -/
structure SameInterface (m : Netlist) (g g' : Generated) : Prop where
  ports : ∀ id, id ∈ g.ports.keys ↔ id ∈ g'.ports.keys
  directions : ∀ id, Table.get? g.ports id = Table.get? g'.ports id
  emitted : ∀ id, id ∈ g.names.keys ↔ id ∈ g'.names.keys
  wanted : (g.names.keys.map m.wantedName).Nodup → ∀ p ∈ g.names, p.2 = m.wantedName p.1
  names : (g.names.keys.map m.wantedName).Nodup → g.names = g'.names

theorem Stages.sameInterface {m : Netlist} {targets targets' : List Target} (s : m.Stages targets)
    (s' : m.Stages targets') (same : m.SameSignals targets targets') (name name' : String) :
    m.SameInterface (s.generated name) (s'.generated name') where
  ports id := by
    rw [← Table.get?_isSome_iff, ← Table.get?_isSome_iff]
    exact iff_of_eq (congrArg (Option.isSome · = true) (s.get?_ports_same s' same id))
  directions := s.get?_ports_same s' same
  emitted id := s.mem_names_keys.trans ((s.mem_order_same s' same id).trans s'.mem_names_keys.symm)
  wanted apart p hp := by
    obtain ⟨hid, hname⟩ := s.get?_names_iff.mp (Table.get?_of_mem s.names_nodup hp)
    exact hname.symm.trans (s.nameOf_of_apart apart hid)
  names apart := s.names_same s' same apart

/-- Targets that lead to the same signals are accepted alike. -/
theorem generate_same {m : Netlist} {targets targets' : List Target}
    (same : m.SameSignals targets targets') (name name' : String) :
    ((∃ g, m.generate name targets = .ok g) ↔ ∃ g, m.generate name' targets' = .ok g) ∧
    ∀ g g', m.generate name targets = .ok g → m.generate name' targets' = .ok g' →
      m.SameInterface g g' := by
  have accepted : ∀ {targets : List Target} {name : String},
      (∃ g, m.generate name targets = .ok g) ↔ Nonempty (m.Stages targets) := by
    simp [generate_eq_ok, exists_comm]
  constructor
  · rw [accepted, accepted]
    exact ⟨fun ⟨s⟩ => s.reordered same, fun ⟨s⟩ => s.reordered same.symm⟩
  · intro g g' hg hg'
    obtain ⟨s, rfl⟩ := generate_eq_ok.mp hg
    obtain ⟨s', rfl⟩ := generate_eq_ok.mp hg'
    exact s.sameInterface s' same name name'

end NetBridge.Guest.Netlist
