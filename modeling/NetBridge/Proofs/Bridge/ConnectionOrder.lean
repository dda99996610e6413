import NetBridge.Proofs.Arena
import NetBridge.Proofs.Bridge.Inversion
import NetBridge.Proofs.Guest.PortList
import NetBridge.Proofs.Guest.PortOrder

/-! # The order of connections

Bridges with the same guest and the same connections, made in different orders, emit and
build alike. Unless two signals want one name, the instances have the same labels, bound to
corresponding signals. -/
namespace NetBridge

/-- The connection with another number for its host signal. -/
def Connection.moved (move : Host.SignalId → Host.SignalId) (c : Connection) : Connection :=
  { c with source := move c.source }

/-- The order of the targets does not change what a signal becomes. -/
theorem Guest.Netlist.Stages.portOf_same {m m' : Guest.Netlist}
    {targets targets' : List Guest.Target} (s : m.Stages targets) (s' : m'.Stages targets')
    (guest : m = m') (same : m.SameSignals targets targets')
    (apart : (s.names.keys.map m.wantedName).Nodup) (id : Guest.SignalId) :
    s.portOf id = s'.portOf id := by
  subst guest
  rw [portOf, portOf, nameOf, nameOf, directionOf, directionOf, s.names_same s' same apart,
    s.get?_ports_same s' same]

namespace Bridge

open Guest (Netlist Target)

/-- A binding leads to its source. If it is inverted it leads to a new signal instead, which
looks like the source, is called after it, and has an assignment between the two. -/
def Wired (before after : Host.Netlist) (x : Binding) (id : Host.SignalId) : Prop :=
  if x.invert then
    before.signals.contains id = false ∧
      (∃ s, before.signal? x.source = some s ∧
        after.signal? id = some ⟨s!"{s.name}_inv", s.shape⟩) ∧
      x.inverter id ∈ after.assignments
  else id = x.source

/-- The source of a binding can be looked at if the binding is inverted. -/
def HasSource (host : Host.Netlist) (x : Binding) : Prop :=
  x.invert = true → ∃ s, host.signal? x.source = some s

theorem Wired.mono {a b c d : Host.Netlist} {x : Binding} {id : Host.SignalId}
    (h : Wired b c x id) (hab : a.signals.Extends b.signals) (source : HasSource a x)
    (hcd : c.signals.Extends d.signals) (kept : c.assignments ⊆ d.assignments) :
    Wired a d x id := by
  cases hi : x.invert with
  | false => simpa [Wired, hi] using h
  | true =>
    rw [Wired, if_pos hi] at h ⊢
    obtain ⟨new, ⟨s, hs, made⟩, inverter⟩ := h
    obtain ⟨t, ht⟩ := source hi
    obtain rfl := Option.some.inj ((hab ht).symm.trans hs)
    refine ⟨?_, ⟨t, ht, hcd made⟩, kept inverter⟩
    exact Bool.eq_false_iff.mpr fun there => by simp [hab.contains there] at new

/-- The new signal of an inverted binding. -/
theorem Wired.twin {before after : Host.Netlist} {x : Binding} {id : Host.SignalId}
    {s : Host.Signal} (h : Wired before after x id) (hi : x.invert = true) (hs : before.signal? x.source = some s) :
    after.signal? id = some ⟨s!"{s.name}_inv", s.shape⟩ := by
  rw [Wired, if_pos hi] at h
  obtain ⟨-, ⟨t, ht, made⟩, -⟩ := h
  obtain rfl := Option.some.inj (hs.symm.trans ht)
  exact made

theorem bound_wired {b : Bridge} {x : Binding} (source : HasSource b.host x) :
    ∃ id b', bound x b = .ok id b' ∧ b.host.signals.Extends b'.host.signals ∧
      b.host.assignments ⊆ b'.host.assignments ∧ Wired b.host b'.host x id := by
  cases hi : x.invert with
  | false => exact ⟨x.source, b, bound_direct hi b, .refl _, by simp, by simp [Wired, hi]⟩
  | true =>
    obtain ⟨s, hs⟩ := source hi
    refine ⟨_, _, bound_inverted hi hs, Arena.Extends.push _ _, List.subset_append_left _ _, ?_⟩
    rw [Wired, if_pos hi]
    exact ⟨Arena.contains_nextKey _, ⟨s, hs, Arena.get?_push_nextKey _ _⟩,
      List.mem_append_right _ (List.mem_singleton.mpr rfl)⟩

/-- Bindings are all made if the sources to look at are there. -/
theorem bindAll_wired {inst : Host.Instance} {bs : List Binding} {b : Bridge}
    (sources : ∀ x ∈ bs, HasSource b.host x) (labels : (bs.map (·.label)).Nodup)
    (new : ∀ x ∈ bs, x.label ∉ inst.ports.keys) :
    ∃ inst' b', bindAll inst bs b = .ok inst' b' ∧ b.host.signals.Extends b'.host.signals ∧
      b.host.assignments ⊆ b'.host.assignments ∧
      ∀ x ∈ bs, ∃ id, inst'.port? x.label = some id ∧ Wired b.host b'.host x id := by
  induction bs generalizing inst b with
  | nil => exact ⟨inst, b, rfl, .refl _, by simp, by simp⟩
  | cons x rest ih =>
    obtain ⟨here, there⟩ := List.forall_mem_cons.mp sources
    obtain ⟨id, b₁, hx, grown, kept, wired⟩ := bound_wired here
    obtain ⟨inst', b', others, grownRest, keptRest, wiredRest⟩ :=
      ih (fun y hy hi => (there y hy hi).imp fun _ hs => grown hs) (List.nodup_cons.mp labels).2
        (new_after_bind labels new id)
    -- All bindings are told about the host before the first of them; inverters only add to it.
    refine ⟨inst', b', (bind_of_ok hx).trans others, grown.trans grownRest,
      List.Subset.trans kept keptRest, List.forall_mem_cons.mpr ⟨⟨id,
        bindAll_first others labels new, wired.mono (.refl _) here grownRest keptRest⟩,
        fun y hy => ?_⟩⟩
    obtain ⟨i, hport, hy'⟩ := wiredRest y hy
    exact ⟨i, hport, hy'.mono grown (there y hy) (.refl _) (by simp)⟩

/-- Once every connection has its binding, only the sources decide whether an instance is
built. -/
theorem buildInstance_wires {c : Bridge} {bs : List Binding} (phase : c.phase = .emitted)
    (h : bindings c.portMap [] c.connections = .ok bs) (sources : ∀ x ∈ bs, HasSource c.host x) :
    ∃ inst built, buildInstance c = .ok inst built ∧ inst.ports.keys.Perm (bs.map (·.label)) ∧
      ∀ x ∈ bs, ∃ id, inst.port? x.label = some id ∧ Wired c.host built.host x id := by
  obtain ⟨labels, -, -⟩ := bindings_spec h
  have unbound : ∀ x ∈ bs, x.label ∉ (Host.Instance.mk c.name []).ports.keys := by simp [Table.keys]
  obtain ⟨inst, bound, made, -, -, wired⟩ := bindAll_wired sources labels unbound
  refine ⟨inst, _, (buildInstance_of_ok phase h).trans (bind_of_ok made), ?_, wired⟩
  simpa [Table.keys] using (bindAll_ok made labels unbound).labels

/-- An emitted bridge can be built if no two of its connections lead to one signal, and then
its labels are those of the connections. -/
theorem buildInstance_sealed {b emitted c : Bridge} {text : String}
    (emission : emit b = .ok text emitted) (later : Sealed emitted c)
    (sources : ∀ k ∈ b.connections, k.invert = true → ∃ s, c.host.signal? k.source = some s) :
    ∃ p : Ports b,
      b.guest.generate b.name (b.connections.map (·.target)) = .ok (p.stages.generated b.name) ∧
      (∀ k ∈ b.connections, c.portMap.lookup k.target = .ok (p.portOf k)) ∧
      ((∃ inst built, buildInstance c = .ok inst built) ↔ (Ports.signals b).Nodup) ∧
      ∀ inst built, buildInstance c = .ok inst built →
        inst.ports.keys.Perm (b.connections.map fun k => (p.portOf k).label) ∧
        ∀ k ∈ b.connections, ∃ id, inst.port? (p.portOf k).label = some id ∧
          Wired c.host built.host (bindingTo (p.portOf k) k) id := by
  obtain ⟨p, hg, found, outcome⟩ := bindings_sealed emission later
  have distinct := firstRepeat?_eq_none_iff [] (Ports.signals b) List.nodup_nil
  refine ⟨p, hg, found, ?_⟩
  cases hrep : firstRepeat? [] (Ports.signals b) with
  | some id =>
    rw [hrep] at outcome distinct
    have never : ∀ inst built, buildInstance c ≠ .ok inst built := fun inst built h => by
      cases (buildInstance_of_error later.phase outcome).symm.trans h
    refine ⟨⟨fun ⟨inst, built, h⟩ => absurd h (never inst built), fun nodup => ?_⟩,
      fun inst built h => absurd h (never inst built)⟩
    cases distinct.mpr nodup
  | none =>
    rw [hrep] at outcome
    obtain ⟨inst, built, run, labels, wired⟩ :=
      buildInstance_wires later.phase outcome (List.forall_mem_map.mpr sources)
    refine ⟨⟨fun _ => distinct.mp hrep, fun _ => ⟨inst, built, run⟩⟩, fun inst' built' h => ?_⟩
    obtain ⟨rfl, rfl⟩ := EStateM.Result.ok.inj (run.symm.trans h)
    refine ⟨?_, fun k hk => wired _ (List.mem_map_of_mem hk)⟩
    simpa [bindingTo, Function.comp_def] using labels

/-- The bridges have one guest and the same connections, in any order. The hosts may have
other numbers for the sources. -/
structure Reordered (move : Host.SignalId → Host.SignalId) (b b' : Bridge) : Prop where
  phase : b.phase = b'.phase
  guest : b.guest = b'.guest
  connections : (b.connections.map (·.moved move)).Perm b'.connections

/-- Where a connection is inverted, its two sources look alike. -/
def SourcesAlike (move : Host.SignalId → Host.SignalId) (d d' : Bridge) : Prop :=
  ∀ c ∈ d.connections, c.invert = true →
    ∃ s, d.host.signal? c.source = some s ∧ d'.host.signal? (move c.source) = some s

/-- Two instances have the same labels. Each of them is bound in both to the sources of one
connection, or to new signals that look alike and invert these sources alike. -/
structure BoundAlike (move : Host.SignalId → Host.SignalId) (d built d' built' : Bridge)
    (inst inst' : Host.Instance) : Prop where
  labels : inst.ports.keys.Perm inst'.ports.keys
  bound : ∀ c ∈ d.connections, ∃ port id id', d.portMap.lookup c.target = .ok port ∧
    d'.portMap.lookup c.target = .ok port ∧
    inst.port? port.label = some id ∧ Wired d.host built.host (bindingTo port c) id ∧
    inst'.port? port.label = some id' ∧
      Wired d'.host built'.host (bindingTo port (c.moved move)) id' ∧
    (c.invert = true → built.host.signal? id = built'.host.signal? id')

/-- The step that makes a connection. -/
def Action.making (c : Connection) : Action := .connect c.source c.target c.invert

theorem run_making {b : Bridge} (collecting : b.phase = .collecting) (cs : List Connection) :
    run (cs.map Action.making) b = { b with connections := b.connections ++ cs } := by
  induction cs generalizing b with
  | nil => simp [run]
  | cons c rest ih =>
    have step : (Action.making c).apply b = { b with connections := b.connections ++ [c] } := by
      simp only [Action.making, Action.apply, after, connect]
      rw [bind_of_ok (ensurePhase_ok collecting), modify_run]
    change run (rest.map Action.making) ((Action.making c).apply b) = _
    rw [step]
    refine (ih (b := { b with connections := b.connections ++ [c] }) collecting).trans ?_
    rw [List.append_assoc, List.singleton_append]

/-- Connections that are made one after the other may be made in any order. -/
theorem Reordered.of_perm {b : Bridge} (collecting : b.phase = .collecting)
    {cs cs' : List Connection} (h : cs.Perm cs') :
    Reordered id (run (cs.map Action.making) b) (run (cs'.map Action.making) b) := by
  rw [run_making collecting, run_making collecting]
  refine ⟨rfl, rfl, ?_⟩
  simpa [Connection.moved] using h.append_left b.connections

namespace Reordered

variable {move : Host.SignalId → Host.SignalId} {b b' : Bridge}

theorem targets (h : Reordered move b b') :
    (b.connections.map (·.target)).Perm (b'.connections.map (·.target)) := by
  simpa [Connection.moved, Function.comp_def] using h.connections.map (·.target)

theorem signals (h : Reordered move b b') : (Ports.signals b).Perm (Ports.signals b') := by
  have perm := h.targets.map (signalBehind b.guest)
  rw [List.map_map, List.map_map] at perm
  rw [Ports.signals, Ports.signals, ← h.guest]
  exact perm

/-- Both bridges have the same ports, with the same names unless two signals want one. -/
theorem portOf_moved (h : Reordered move b b') (p : Ports b) (p' : Ports b')
    (apart : (p.stages.names.keys.map b.guest.wantedName).Nodup) (c : Connection) :
    p.portOf c = p'.portOf (c.moved move) := by
  have behind : signalBehind b'.guest (c.moved move).target = signalBehind b.guest c.target := by
    rw [h.guest]
    rfl
  rw [Ports.portOf, Ports.portOf, behind]
  exact p.stages.portOf_same p'.stages h.guest (.of_perm h.targets) apart _

theorem emit_alike (h : Reordered move b b') :
    (∃ text e, emit b = .ok text e) ↔ ∃ text e, emit b' = .ok text e := by
  have emits : ∀ b : Bridge, (∃ text e, emit b = .ok text e) ↔ b.phase = .collecting ∧
      ∃ g, b.guest.generate b.name (b.connections.map (·.target)) = .ok g := by
    intro b
    constructor
    · rintro ⟨text, e, he⟩
      obtain ⟨phase, g, hg, -⟩ := emit_eq_ok.mp he
      exact ⟨phase, g, hg⟩
    · rintro ⟨phase, g, hg⟩
      exact ⟨_, _, emit_eq_ok.mpr ⟨phase, g, hg, rfl, rfl⟩⟩
  have accepted := (Netlist.generate_same (m := b.guest) (.of_perm h.targets) b.name b'.name).1
  rw [emits, emits, accepted, h.phase, h.guest]

end Reordered

/-- Sealed bridges are built alike. -/
theorem buildInstance_alike {move : Host.SignalId → Host.SignalId} {b b' e e' d d' : Bridge}
    {text text' : String} (reordered : Reordered move b b') (emission : emit b = .ok text e)
    (emission' : emit b' = .ok text' e') (later : Sealed e d) (later' : Sealed e' d')
    (sources : SourcesAlike move d d') :
    ((∃ inst built, buildInstance d = .ok inst built) ↔
      ∃ inst built, buildInstance d' = .ok inst built) ∧
    ∀ g, b.guest.generate b.name (b.connections.map (·.target)) = .ok g →
      (g.names.keys.map b.guest.wantedName).Nodup → ∀ inst built inst' built',
      buildInstance d = .ok inst built → buildInstance d' = .ok inst' built' →
      BoundAlike move d built d' built' inst inst' := by
  obtain ⟨-, -, -, connections, -⟩ := emit_ports emission
  have sealed : d.connections = b.connections := later.connections.trans connections
  rw [SourcesAlike, sealed] at sources
  have moved : ∀ {k}, k ∈ b'.connections → ∃ c ∈ b.connections, c.moved move = k := fun hk =>
    List.mem_map.mp (reordered.connections.mem_iff.mpr hk)
  obtain ⟨p, hg, found, builds, made⟩ := buildInstance_sealed emission later
    fun k hk hi => (sources k hk hi).imp fun _ hs => hs.1
  obtain ⟨p', -, found', builds', made'⟩ := buildInstance_sealed emission' later' fun k hk hi => by
    obtain ⟨c, hc, rfl⟩ := moved hk
    exact (sources c hc hi).imp fun _ hs => hs.2
  refine ⟨by rw [builds, builds', reordered.signals.nodup_iff], ?_⟩
  intro g hg' apart inst built inst' built' hbuild hbuild'
  obtain rfl := Except.ok.inj (hg.symm.trans hg')
  obtain ⟨labels, bound⟩ := made inst built hbuild
  obtain ⟨labels', bound'⟩ := made' inst' built' hbuild'
  have port := reordered.portOf_moved p p' apart
  refine ⟨labels.trans (.trans ?_ labels'.symm), fun c hc => ?_⟩
  · have perm := reordered.connections.map fun k => (p'.portOf k).label
    rw [List.map_map] at perm
    exact (List.map_congr_left fun c _ => congrArg PortInfo.label (port c)).symm ▸ perm
  · rw [sealed] at hc
    have hc' : c.moved move ∈ b'.connections :=
      reordered.connections.mem_iff.mp (List.mem_map_of_mem hc)
    obtain ⟨id, hid, wired⟩ := bound c hc
    obtain ⟨id', hid', wired'⟩ := bound' _ hc'
    rw [← port c] at hid' wired'
    have found_moved : d'.portMap.lookup c.target = .ok (p.portOf c) :=
      (found' _ hc').trans (congrArg Except.ok (port c).symm)
    refine ⟨p.portOf c, id, id', found c hc, found_moved, hid, wired, hid', wired', fun hi => ?_⟩
    obtain ⟨s, hs, hs'⟩ := sources c hc hi
    exact (wired.twin hi hs).trans (wired'.twin hi hs').symm

/-- Targets that lead to the same signals are accepted alike and become ports with the same
directions; unless two emitted signals want one name, each has the name that it wants. So the
order in which the connections of a bridge are made shows neither in whether it can be emitted
and built nor, unless two signals want one name, in the labels of the instance and what they
are bound to. -/
theorem connection_order_is_immaterial :
    (∀ (m : Netlist) (name : String) (targets targets' : List Target),
      m.SameSignals targets targets' →
      ((∃ g, m.generate name targets = .ok g) ↔ ∃ g, m.generate name targets' = .ok g) ∧
      ∀ g g', m.generate name targets = .ok g → m.generate name targets' = .ok g' →
        m.SameInterface g g') ∧
    ∀ (move : Host.SignalId → Host.SignalId) (b b' : Bridge), Reordered move b b' →
      ((∃ text e, emit b = .ok text e) ↔ ∃ text e, emit b' = .ok text e) ∧
      ∀ text e text' e' d d', emit b = .ok text e → emit b' = .ok text' e' →
        Sealed e d → Sealed e' d' → SourcesAlike move d d' →
        ((∃ inst built, buildInstance d = .ok inst built) ↔
          ∃ inst built, buildInstance d' = .ok inst built) ∧
        ∀ g, b.guest.generate b.name (b.connections.map (·.target)) = .ok g →
          (g.names.keys.map b.guest.wantedName).Nodup → ∀ inst built inst' built',
          buildInstance d = .ok inst built → buildInstance d' = .ok inst' built' →
          BoundAlike move d built d' built' inst inst' :=
  ⟨fun _ name _ _ same => Netlist.generate_same same name name, fun _ _ _ reordered =>
    ⟨reordered.emit_alike, fun _ _ _ _ _ _ emission emission' later later' sources =>
      buildInstance_alike reordered emission emission' later later' sources⟩⟩

/-- A clock and a register that is connected with an inverter. -/
def clockedBridge : Bridge where
  name := "core"
  host := { name := "top", signals := ⟨#[⟨"sys_clk", .bit⟩, ⟨"count", ⟨4, true⟩⟩]⟩ }
  guest := Guest.Netlist.clockedPorts

def clockedConnections : List Connection :=
  [⟨⟨0⟩, .clock "sync", false⟩, ⟨⟨1⟩, .signal ⟨2⟩, true⟩]

theorem clocked_connections_in_any_order :
    (Netlist.clockedPorts.SameSignals Netlist.clockedTargets [.signal ⟨0⟩, .signal ⟨2⟩] ∧
      ∃ g g', Netlist.clockedPorts.generate "top" Netlist.clockedTargets = .ok g ∧
        Netlist.clockedPorts.generate "top" [.signal ⟨0⟩, .signal ⟨2⟩] = .ok g' ∧
        g.ports ≠ g'.ports ∧ Netlist.clockedPorts.SameInterface g g') ∧
    ∃ text e text' e' inst built inst' built',
      emit (run (clockedConnections.map Action.making) clockedBridge) = .ok text e ∧
      emit (run (clockedConnections.reverse.map Action.making) clockedBridge) = .ok text' e' ∧
      SourcesAlike id e e' ∧ buildInstance e = .ok inst built ∧
      buildInstance e' = .ok inst' built' ∧ BoundAlike id e built e' built' inst inst' := by
  obtain ⟨modules, bridges⟩ := connection_order_is_immaterial
  refine ⟨?_, ?_⟩
  · have same : Netlist.clockedPorts.SameSignals Netlist.clockedTargets
        [.signal ⟨0⟩, .signal ⟨2⟩] := by
      intro result
      have signals : Netlist.clockedTargets.map Netlist.clockedPorts.resolve =
          [.ok ⟨2⟩, .ok ⟨0⟩, .ok ⟨2⟩, .ok ⟨0⟩] := rfl
      simp only [signals, List.map_cons, List.map_nil, Netlist.resolve, List.mem_cons]
      tauto
    obtain ⟨g, g', hg, hg', ports⟩ : ∃ g g',
        Netlist.clockedPorts.generate "top" Netlist.clockedTargets = .ok g ∧
        Netlist.clockedPorts.generate "top" [.signal ⟨0⟩, .signal ⟨2⟩] = .ok g' ∧
        g.ports ≠ g'.ports := ⟨_, _, rfl, rfl, by decide⟩
    exact ⟨same, g, g', hg, hg', ports, (modules _ "top" _ _ same).2 g g' hg hg'⟩
  · let b := run (clockedConnections.map Action.making) clockedBridge
    have reordered : Reordered id b
        (run (clockedConnections.reverse.map Action.making) clockedBridge) :=
      .of_perm rfl (List.reverse_perm _).symm
    obtain ⟨emits, builds⟩ := bridges id _ _ reordered
    obtain ⟨text, e, emission⟩ : ∃ text e, emit b = .ok text e := ⟨_, _, rfl⟩
    obtain ⟨text', e', emission'⟩ := emits.mp ⟨text, e, emission⟩
    obtain ⟨-, host, connections⟩ := Build.EmittedFrom.keeps (.inr ⟨text, emission⟩)
    obtain ⟨-, host', -⟩ := Build.EmittedFrom.keeps (.inr ⟨text', emission'⟩)
    have alike : SourcesAlike id e e' := by
      have inverted : ∀ c ∈ b.connections, c.invert = true → c.source = ⟨1⟩ := by decide
      intro c hc hi
      rw [host, host', inverted c (connections ▸ hc) hi]
      exact ⟨_, rfl, rfl⟩
    obtain ⟨same, bound⟩ := builds text e text' e' e e' emission emission' (.of_emit emission)
      (.of_emit emission') alike
    obtain ⟨inst, built, hbuild⟩ : ∃ inst built, buildInstance e = .ok inst built := by
      obtain ⟨-, -, -, distinct, -⟩ := buildInstance_sealed emission (.of_emit emission)
        fun c hc hi => (alike c (connections.symm ▸ hc) hi).imp fun _ hs => hs.1
      exact distinct.mpr (by decide +kernel)
    obtain ⟨inst', built', hbuild'⟩ := same.mp ⟨inst, built, hbuild⟩
    obtain ⟨g, hg, apart⟩ : ∃ g, b.guest.generate b.name (b.connections.map (·.target)) = .ok g ∧
        (g.names.keys.map b.guest.wantedName).Nodup := ⟨_, rfl, by decide +kernel⟩
    exact ⟨text, e, text', e', inst, built, inst', built', emission, emission', alike, hbuild,
      hbuild', bound g hg apart inst built inst' built' hbuild hbuild'⟩

end Bridge

end NetBridge
