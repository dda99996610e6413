import NetBridge.Proofs.Arena
import NetBridge.Proofs.Bridge.Finalization
import NetBridge.Proofs.Bridge.Instance
import NetBridge.Proofs.Bridge.Leaf
import NetBridge.Proofs.Host.Evaluation
import NetBridge.Proofs.Shape

/-! # What a connection does to a value

A direct connection passes values on, and an inverted one complements them within the
width of its source. That holds of every evaluation of the host, as long as no other
connection drives the same source. -/
namespace NetBridge

namespace Bridge

open Host (Valuation)

/-- In every evaluation of the host one end of a port has what crosses it from the other
end: the inner end is in the instance and the outer end is outside. -/
def Carries (host : Host.Netlist) (d : PortDirection) (invert : Bool) (width : Nat)
    (inner outer : Host.SignalId) : Prop :=
  ∀ inputs values : Valuation, host.evaluate? inputs = some values →
    match d with
    | .input => values.read inner = Word.crossed invert width (values.read outer)
    | .output => values.read outer = Word.crossed invert width (values.read inner)

/-- The port signal of a binding: the source itself, or a signal of its own with an
inverter that nothing later disturbs. -/
inductive Joined (host : Host.Netlist) (x : Binding) : Host.SignalId → Prop
  | direct : x.invert = false → Joined host x x.source
  | inverted {id : Host.SignalId} {s t : Host.Signal} (before after : List Host.Assign) :
    x.invert = true → host.signal? x.source = some s → host.signal? id = some t →
    t.shape = s.shape → id ≠ x.source → host.assignments = before ++ x.inverter id :: after →
    (∀ a ∈ after, a.target ≠ x.source ∧ a.target ≠ id) → Joined host x id

/-- Further signals and assignments that keep away from a binding leave it joined. -/
theorem Joined.extends {host later : Host.Netlist} {x : Binding} {id : Host.SignalId}
    (h : Joined host x id) (grown : host.signals.Extends later.signals)
    {more : List Host.Assign} (added : later.assignments = host.assignments ++ more)
    (away : x.invert = true → ∀ a ∈ more, a.target ≠ x.source ∧ a.target ≠ id) :
    Joined later x id := by
  cases h with
  | direct hi => exact .direct hi
  | inverted before after hi hs ht shape other place undisturbed =>
    refine .inverted before (after ++ more) hi (grown hs) (grown ht) shape other ?_
      (List.forall_mem_append.mpr ⟨undisturbed, away hi⟩)
    rw [added, place, List.append_assoc, List.cons_append]

/-- A joined binding carries values, complemented if it is inverted. -/
theorem Joined.carries {host : Host.Netlist} {x : Binding} {id : Host.SignalId} {s : Host.Signal}
    (h : Joined host x id) (hs : host.signal? x.source = some s) :
    Carries host x.direction x.invert s.shape.width id x.source := by
  intro inputs values heval
  cases h with
  | direct hi =>
    rw [hi]
    cases x.direction <;> rfl
  | @inverted _ s' t before after hi hs' ht shape other place undisturbed =>
    obtain rfl := Option.some.inj (hs'.symm.trans hs)
    rw [hi]
    cases hd : x.direction with
    | input =>
      have inverter : x.inverter id = ⟨id, .not (.signal x.source)⟩ := by
        rw [Binding.inverter, hd]
      rw [inverter] at place
      have holds := Host.Netlist.evaluate?_holds place (by simpa [Host.Expr.reads] using other)
        (fun a ha => by simpa [Host.Expr.reads] using (undisturbed a ha).symm) heval
      simpa [Host.Netlist.shapeOf, ht, shape, Host.Expr.eval, Shape.truncate, Shape.mask,
        Word.crossed] using holds
    | output =>
      have inverter : x.inverter id = ⟨x.source, .not (.signal id)⟩ := by
        rw [Binding.inverter, hd]
      rw [inverter] at place
      have holds := Host.Netlist.evaluate?_holds place
        (by simpa [Host.Expr.reads] using other.symm)
        (fun a ha => by simpa [Host.Expr.reads] using undisturbed a ha) heval
      simpa [Host.Netlist.shapeOf, hs, Host.Expr.eval, Shape.truncate, Shape.mask,
        Word.crossed] using holds

/-- A bound signal is joined, and the assignment for it drives the source or a new signal. -/
theorem bound_joined {x : Binding} {b b' : Bridge} {id : Host.SignalId}
    (h : bound x b = .ok id b') : Joined b'.host x id ∧
      b.host.signals.Extends b'.host.signals ∧
      (x.invert = true → b.host.signals.contains id = false ∧ b'.host.signals.contains id = true) ∧
      ∃ more, b'.host.assignments = b.host.assignments ++ more ∧
        ∀ a ∈ more, b.host.signals.contains a.target = false ∨ a.target = x.source := by
  cases hi : x.invert with
  | false =>
    rw [bound_direct hi] at h
    obtain ⟨rfl, rfl⟩ := EStateM.Result.ok.inj h
    exact ⟨.direct hi, .refl _, by simp, [], by simp, by simp⟩
  | true =>
    obtain ⟨s, hs⟩ := bound_source hi h
    rw [bound_inverted hi hs] at h
    obtain ⟨rfl, rfl⟩ := EStateM.Result.ok.inj h
    have grown := Arena.Extends.push b.host.signals ⟨s!"{s.name}_inv", s.shape⟩
    have last := Arena.get?_push_nextKey b.host.signals ⟨s!"{s.name}_inv", s.shape⟩
    have other : b.host.signals.nextKey ≠ x.source := fun same => by
      have there := Arena.contains_of_get? hs
      rw [← same, Arena.contains_nextKey] at there
      cases there
    refine ⟨.inverted _ [] hi (grown hs) last rfl other rfl (by simp), grown, fun _ =>
      ⟨Arena.contains_nextKey _, Arena.contains_of_get? last⟩, _, rfl,
      List.forall_mem_singleton.mpr ?_⟩
    rcases x.inverter_eq b.host.signals.nextKey with ha | ha <;> rw [ha]
    · exact .inl (Arena.contains_nextKey _)
    · exact .inr rfl

/-- All ports of an instance are joined, if no two bindings have the same source. -/
theorem bindAll_joined {inst inst' : Host.Instance} {bs : List Binding} {b b' : Bridge}
    (h : bindAll inst bs b = .ok inst' b') (labels : (bs.map (·.label)).Nodup)
    (new : ∀ x ∈ bs, x.label ∉ inst.ports.keys) (sources : (bs.map (·.source)).Nodup)
    (there : ∀ x ∈ bs, b.host.signals.contains x.source = true) :
    b.host.signals.Extends b'.host.signals ∧
    (∃ more, b'.host.assignments = b.host.assignments ++ more ∧
      ∀ a ∈ more, b.host.signals.contains a.target = false ∨ a.target ∈ bs.map (·.source)) ∧
    ∀ x ∈ bs, ∃ id, inst'.port? x.label = some id ∧ Joined b'.host x id := by
  induction bs generalizing inst b with
  | nil =>
    obtain ⟨-, rfl⟩ := EStateM.Result.ok.inj h
    exact ⟨.refl _, ⟨[], by simp, by simp⟩, by simp⟩
  | cons x rest ih =>
    obtain ⟨id, b₁, hx, h⟩ := bind_eq_ok.mp h
    obtain ⟨joined, grown, fresh, first, hfirst, firstTargets⟩ := bound_joined hx
    obtain ⟨-, labelsRest⟩ := List.nodup_cons.mp labels
    obtain ⟨hsource, sourcesRest⟩ := List.nodup_cons.mp sources
    obtain ⟨hthere, thereRest⟩ := List.forall_mem_cons.mp there
    have newRest := new_after_bind labels new id
    obtain ⟨grownRest, ⟨more, hmore, targets⟩, joinedRest⟩ := ih h labelsRest newRest sourcesRest
      fun y hy => grown.contains (thereRest y hy)
    have here : inst'.port? x.label = some id := bindAll_first h labels new
    -- What is assigned for the others keeps away from this source and from the new signal.
    have away : x.invert = true → ∀ a ∈ more, a.target ≠ x.source ∧ a.target ≠ id := by
      intro hi a ha
      obtain ⟨old, now⟩ := fresh hi
      rcases targets a ha with unallocated | hmem
      · refine ⟨fun same => ?_, fun same => ?_⟩
        · rw [same, grown.contains hthere] at unallocated
          cases unallocated
        · rw [same, now] at unallocated
          cases unallocated
      · refine ⟨fun same => hsource (by rwa [same] at hmem), fun same => ?_⟩
        obtain ⟨y, hy, heq⟩ := List.mem_map.mp hmem
        have allocated := thereRest y hy
        rw [heq, same, old] at allocated
        cases allocated
    refine ⟨grown.trans grownRest, ⟨first ++ more, ?_, ?_⟩, List.forall_mem_cons.mpr
      ⟨⟨id, here, joined.extends grownRest hmore away⟩, joinedRest⟩⟩
    · rw [hmore, hfirst, List.append_assoc]
    · refine List.forall_mem_append.mpr ⟨fun a ha => (firstTargets a ha).imp_right fun h =>
        List.mem_cons.mpr (.inl h), fun a ha => ?_⟩
      rcases targets a ha with unallocated | hmem
      · refine .inl ?_
        cases hc : b.host.signals.contains a.target with
        | false => rfl
        | true => exact absurd (grown.contains hc) (by simp [unallocated])
      · exact .inr (List.mem_cons_of_mem _ hmem)

/-- Every connection has its binding, and no label comes twice. -/
theorem bindings_spec {map : PortMap} {seen : List String} {cs : List Connection}
    {bs : List Binding} (h : bindings map seen cs = .ok bs) :
    (bs.map (·.label)).Nodup ∧ (∀ x ∈ bs, x.label ∉ seen) ∧
      ∀ c ∈ cs, ∃ port, map.lookup c.target = .ok port ∧ bindingTo port c ∈ bs := by
  induction cs generalizing seen bs with
  | nil =>
    obtain rfl := Except.ok.inj h
    exact ⟨List.nodup_nil, by simp, by simp⟩
  | cons c rest ih =>
    obtain ⟨port, bs', hport, new, hrest, rfl⟩ := bindings_cons h
    obtain ⟨nodup, unseen, found⟩ := ih hrest
    refine ⟨List.nodup_cons.mpr ⟨?_, nodup⟩, List.forall_mem_cons.mpr ⟨new, fun x hx =>
      fun hmem => unseen x hx (List.mem_cons_of_mem _ hmem)⟩, List.forall_mem_cons.mpr
      ⟨⟨port, hport, List.mem_cons_self⟩, fun d hd => ?_⟩⟩
    · intro hmem
      obtain ⟨x, hx, heq⟩ := List.mem_map.mp hmem
      exact unseen x hx (heq ▸ List.mem_cons_self)
    · obtain ⟨p, hp, hmem⟩ := found d hd
      exact ⟨p, hp, List.mem_cons_of_mem _ hmem⟩

/-- What a built instance makes of its connections in an evaluation of the host. -/
theorem buildInstance_carries {b b' : Bridge} {inst : Host.Instance}
    (h : buildInstance b = .ok inst b') (sources : (b.connections.map (·.source)).Nodup)
    (there : ∀ c ∈ b.connections, b.host.signals.contains c.source = true)
    {c : Connection} (hc : c ∈ b.connections) {s : Host.Signal}
    (hs : b.host.signal? c.source = some s) :
    ∃ port id, b.portMap.lookup c.target = .ok port ∧ inst.port? port.label = some id ∧
      Carries b'.host port.direction c.invert s.shape.width id c.source := by
  obtain ⟨bs, b₁, hb, hbind, rfl⟩ := buildInstance_binds h
  obtain ⟨labels, -, found⟩ := bindings_spec hb
  have ends : bs.map (·.source) = b.connections.map (·.source) := by
    have both := congrArg (List.map Prod.fst) (bindings_ends hb)
    rwa [List.map_map, List.map_map] at both
  have thereAll : ∀ x ∈ bs, b.host.signals.contains x.source = true := by
    intro x hx
    have hmem : x.source ∈ b.connections.map (·.source) := ends ▸ List.mem_map_of_mem hx
    obtain ⟨d, hd, heq⟩ := List.mem_map.mp hmem
    exact heq ▸ there d hd
  obtain ⟨grown, -, joined⟩ := bindAll_joined hbind labels (by simp [Table.keys])
    (ends ▸ sources) thereAll
  obtain ⟨port, hport, hx⟩ := found c hc
  obtain ⟨id, hid, hjoined⟩ := joined _ hx
  exact ⟨port, id, hport, hid, hjoined.carries (grown hs)⟩

/-- The signals of a pad that has been adapted for the first time, and an instance that is
built later from a bridge in which no two connections have the same source. -/
structure Realized (pad : Host.Pad) (direction : Direction) (rate : Nat)
    (signals : Table Role Guest.SignalId) (sealed : Bridge) (inst : Host.Instance)
    (built : Bridge) : Prop where
  adapted : ∃ name signature b b', b.phase = .collecting ∧ Table.get? b.pads pad.signal = none ∧
    b.host.Stands (.unsignedBits pad.width) pad.signal ∧
    adaptLeaf name pad direction rate b = .ok (.leaf name signature signals) b' ∧
    b'.host.signals.Extends sealed.host.signals ∧ b'.connections ⊆ sealed.connections
  emitted : sealed.phase = .emitted
  sources : (sealed.connections.map (·.source)).Nodup
  allocated : ∀ c ∈ sealed.connections, sealed.host.signals.contains c.source = true
  construction : buildInstance sealed = .ok inst built

/-- The signals of the roles of a fresh pad are connected, and data is inverted if the pad
is. -/
theorem adaptLeaf_connected {name : String} {pad : Host.Pad} {direction : Direction} {rate : Nat}
    {b b' : Bridge} {signature : Signature} {signals : Table Role Guest.SignalId} {s : Host.Signal}
    (collecting : b.phase = .collecting) (new : Table.get? b.pads pad.signal = none)
    (hs : b.host.signal? pad.signal = some s)
    (h : adaptLeaf name pad direction rate b = .ok (.leaf name signature signals) b') :
    ∀ p ∈ signals, Connected b' ⟨name, pad.signal, s.shape⟩ pad.inverted p := by
  cases hroles : modeRoles direction rate with
  | error e => cases (adaptLeaf_unsupported hroles).symm.trans h
  | ok roles =>
    by_cases idle : roles = []
    · subst idle
      obtain ⟨same, -⟩ := EStateM.Result.ok.inj ((adaptLeaf_idle hroles).symm.trans h)
      obtain ⟨-, -, rfl⟩ := Capability.leaf.inj same
      simp
    · obtain ⟨made, b₁, -, -, connected, -, -, -, hrun⟩ :=
        adaptFresh_run name collecting (modeRoles?_of_ok hroles) hs
      rw [adaptLeaf_fresh hroles idle new, hrun] at h
      split at h
      · cases h
      · obtain ⟨same, rfl⟩ := EStateM.Result.ok.inj h
        obtain ⟨-, -, rfl⟩ := Capability.leaf.inj same
        exact fun p hp => connected p (mem_inRoleOrder hp)

/-- Pad data crosses the port that the instance has for its role. -/
theorem Realized.carries {pad : Host.Pad} {direction : Direction} {rate : Nat}
    {signals : Table Role Guest.SignalId} {sealed built : Bridge} {inst : Host.Instance}
    (h : Realized pad direction rate signals sealed inst built) {r : Role} {g : Guest.SignalId}
    (hr : Table.get? signals r = some g) (data : r.isData = true) :
    ∃ outer port inner, ⟨outer, .signal g, pad.inverted⟩ ∈ sealed.connections ∧
      sealed.portMap.lookup (.signal g) = .ok port ∧ inst.port? port.label = some inner ∧
      Carries built.host port.direction pad.inverted pad.width inner outer := by
  obtain ⟨name, signature, b, b', collecting, new, ⟨hostName, hs⟩, adaptation, grown, kept⟩ :=
    h.adapted
  obtain ⟨outer, ⟨outerName, stands⟩, hc⟩ :=
    adaptLeaf_connected collecting new hs adaptation (r, g) (Table.mem_of_get? hr)
  rw [data, Bool.and_true] at hc
  obtain ⟨port, inner, hport, hinner, carries⟩ :=
    buildInstance_carries h.construction h.sources h.allocated (kept hc) (grown stands)
  have width : r.width pad.width = pad.width := if_pos data
  refine ⟨outer, port, inner, kept hc, hport, hinner, ?_⟩
  have shape : (PadSite.roleShape ⟨name, pad.signal, .unsignedBits pad.width⟩ r).width = pad.width :=
    width
  rwa [shape] at carries

end Bridge

end NetBridge
