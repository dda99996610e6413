import NetBridge.Proofs.Bridge.Collision
import NetBridge.Proofs.Bridge.Run
import NetBridge.Proofs.Host.Instance

/-! # Instances of generated modules

An instance that is built binds every port of the generated module once, to the source
of the connection that asked for the port or to a new signal behind an inverter. -/
namespace NetBridge.Bridge

open Guest (Generated)

/-- Signals that were there are still there, with the same name and shape. -/
def Grows (before after : Host.Netlist) : Prop :=
  ∀ id, before.signals.contains id = true →
    after.signals.contains id = true ∧ after.signal? id = before.signal? id

theorem Grows.refl (host : Host.Netlist) : Grows host host := fun _ h => ⟨h, rfl⟩

theorem Grows.trans {a b c : Host.Netlist} (hab : Grows a b) (hbc : Grows b c) : Grows a c := by
  intro id h
  obtain ⟨hb, hab⟩ := hab id h
  obtain ⟨hc, hbc⟩ := hbc id hb
  exact ⟨hc, hbc.trans hab⟩

theorem Grows.addSignal (host : Host.Netlist) (name : String) (shape : Shape) :
    Grows host (host.addSignal name shape).2 := by
  intro id h
  refine ⟨?_, Arena.get?_push_of_contains host.signals ⟨name, shape⟩ h⟩
  simp only [Arena.contains, decide_eq_true_eq] at h
  simp only [Host.Netlist.addSignal, Arena.contains, Arena.push, Array.size_push, decide_eq_true_eq]
  omega

/-- A signal that was not there before and looks like the source. -/
structure Fresh (before after : Host.Netlist) (source id : Host.SignalId) : Prop where
  new : before.signals.contains id = false
  shape : ∃ s t, after.signal? source = some s ∧ after.signal? id = some t ∧ t.shape = s.shape

theorem Fresh.mono {a b c d : Host.Netlist} {source id : Host.SignalId} (h : Fresh b c source id)
    (hab : Grows a b) (hcd : Grows c d) : Fresh a d source id := by
  obtain ⟨s, t, hs, ht, heq⟩ := h.shape
  have there : ∀ {i : Host.SignalId} {x}, c.signal? i = some x → d.signal? i = some x := by
    intro i x hx
    have hc : c.signals.contains i = true := by
      rw [← Arena.get?_isSome]
      exact Option.isSome_iff_exists.mpr ⟨x, hx⟩
    exact (hcd i hc).2.trans hx
  refine ⟨?_, s, t, there hs, there ht, heq⟩
  cases ha : a.signals.contains id with
  | false => rfl
  | true => exact absurd (hab id ha).1 (by simp [h.new])

/-- A connection is bound to its source, or to a fresh signal if it is inverted. -/
def BoundTo (before after : Host.Netlist) (source : Host.SignalId) (invert : Bool)
    (id : Host.SignalId) : Prop :=
  if invert then Fresh before after source id else id = source

theorem BoundTo.mono {a b c d : Host.Netlist} {source id : Host.SignalId} {invert : Bool}
    (h : BoundTo b c source invert id) (hab : Grows a b) (hcd : Grows c d) :
    BoundTo a d source invert id := by
  cases invert with
  | false => exact h
  | true => exact Fresh.mono h hab hcd

theorem bound_ok {x : Binding} {b b' : Bridge} {id : Host.SignalId} (h : bound x b = .ok id b') :
    Grows b.host b'.host ∧ BoundTo b.host b'.host x.source x.invert id ∧
      (x.invert = true → b'.host.signals.contains id = true) := by
  cases hi : x.invert with
  | false =>
    rw [bound, if_neg (by simp [hi])] at h
    obtain ⟨rfl, rfl⟩ := EStateM.Result.ok.inj h
    exact ⟨.refl _, rfl, by simp⟩
  | true =>
    have hrun := hostSignal_run b x.source
    cases hs : b.host.signal? x.source with
    | none =>
      rw [hs] at hrun
      rw [bound, if_pos hi, bind_of_error hrun] at h
      cases h
    | some s =>
      rw [hs] at hrun
      rw [bound, if_pos hi, bind_of_ok hrun, onHost_run] at h
      obtain ⟨rfl, rfl⟩ := EStateM.Result.ok.inj h
      let name := s!"{s.name}_inv"
      let grown := (b.host.addSignal name s.shape).2
      have grows : Grows b.host grown := .addSignal b.host name s.shape
      have there : b.host.signals.contains x.source = true := by
        rw [← Arena.get?_isSome]
        exact Option.isSome_iff_exists.mpr ⟨s, hs⟩
      have fresh : Fresh b.host grown x.source b.host.signals.nextKey :=
        ⟨by simp [Arena.contains, Arena.nextKey], s, ⟨name, s.shape⟩,
          (grows x.source there).2.trans hs, Arena.get?_push_nextKey _ _, rfl⟩
      have last : grown.signals.contains b.host.signals.nextKey = true := by
        simp [grown, Host.Netlist.addSignal, Arena.contains, Arena.nextKey, Arena.push]
      -- The assignment that comes with the inverter leaves the signals alone.
      cases hd : x.direction with
      | input => exact ⟨grows, Fresh.mk fresh.new fresh.shape, fun _ => last⟩
      | output => exact ⟨grows, Fresh.mk fresh.new fresh.shape, fun _ => last⟩

structure BoundAll (before after : Host.Netlist) (inst inst' : Host.Instance)
    (bs : List Binding) : Prop where
  name : inst'.moduleName = inst.moduleName
  labels : inst'.ports.keys.Perm (bs.map (·.label) ++ inst.ports.keys)
  kept : ∀ label, label ∉ bs.map (·.label) → inst'.port? label = inst.port? label
  grows : Grows before after
  bound : ∀ x ∈ bs, ∃ id, inst'.port? x.label = some id ∧
    BoundTo before after x.source x.invert id
  /-- No two inverters share their new signal. -/
  apart : ((bs.filter (·.invert)).map fun x => inst'.port? x.label).Nodup

/-- The labels of the other bindings are still new once the first one is bound. -/
theorem new_after_bind {inst : Host.Instance} {x : Binding} {rest : List Binding}
    (labels : ((x :: rest).map (·.label)).Nodup)
    (new : ∀ y ∈ x :: rest, y.label ∉ inst.ports.keys) (id : Host.SignalId) :
    ∀ y ∈ rest, y.label ∉ (inst.bind x.label id).ports.keys := by
  intro y hy hmem
  have keys := Host.Instance.keys_insert_perm id (new x List.mem_cons_self)
  rcases List.mem_cons.mp (keys.mem_iff.mp hmem) with heq | hold
  · exact (List.nodup_cons.mp labels).1 (List.mem_map.mpr ⟨y, hy, heq⟩)
  · exact new y (List.mem_cons_of_mem x hy) hold

theorem bindAll_ok {inst inst' : Host.Instance} {bs : List Binding} {b b' : Bridge}
    (h : bindAll inst bs b = .ok inst' b') (nodup : (bs.map (·.label)).Nodup)
    (new : ∀ x ∈ bs, x.label ∉ inst.ports.keys) : BoundAll b.host b'.host inst inst' bs := by
  induction bs generalizing inst b with
  | nil =>
    obtain ⟨rfl, rfl⟩ := EStateM.Result.ok.inj h
    exact ⟨rfl, .refl _, fun _ _ => rfl, .refl _, by simp, by simp⟩
  | cons x rest ih =>
    cases hx : Bridge.bound x b with
    | error e b₁ =>
      rw [bindAll, bind_of_error hx] at h
      cases h
    | ok id b₁ =>
      rw [bindAll, bind_of_ok hx] at h
      obtain ⟨grows, isBound, last⟩ := bound_ok hx
      obtain ⟨hlabel, hrest⟩ := List.nodup_cons.mp nodup
      have keys : (inst.bind x.label id).ports.keys.Perm (x.label :: inst.ports.keys) :=
        Host.Instance.keys_insert_perm id (new x List.mem_cons_self)
      have all := ih h hrest (new_after_bind nodup new id)
      have here : inst'.port? x.label = some id := by
        rw [all.kept x.label hlabel, Host.Instance.port?_bind, if_pos rfl]
      refine ⟨all.name, ?_, ?_, grows.trans all.grows, ?_, ?_⟩
      · have step := all.labels.trans (keys.append_left (rest.map (·.label)))
        exact step.trans List.perm_middle
      · intro label hlabel
        obtain ⟨hne, hnot⟩ : label ≠ x.label ∧ label ∉ rest.map (·.label) := by
          simpa using hlabel
        rw [all.kept label hnot, Host.Instance.port?_bind, if_neg (Ne.symm hne)]
      · intro y hy
        rcases List.mem_cons.mp hy with rfl | hy
        · exact ⟨id, here, isBound.mono (.refl _) all.grows⟩
        · obtain ⟨i, hi, hbound⟩ := all.bound y hy
          exact ⟨i, hi, hbound.mono grows (.refl _)⟩
      · cases hi : x.invert with
        | false => simpa [hi] using all.apart
        | true =>
          rw [List.filter_cons_of_pos hi, List.map_cons]
          refine List.nodup_cons.mpr ⟨?_, all.apart⟩
          intro hmem
          obtain ⟨y, hy, heq⟩ := List.mem_map.mp hmem
          obtain ⟨hy, hyi⟩ := List.mem_filter.mp hy
          obtain ⟨i, hport, hbound⟩ := all.bound y hy
          obtain rfl : i = id := Option.some.inj (hport.symm.trans (heq.trans here))
          have fresh : Fresh b₁.host b'.host y.source i := by
            simpa [BoundTo, show y.invert = true from hyi] using hbound
          exact absurd (last hi) (by simp [fresh.new])

/-- The first label stays bound to its signal. -/
theorem bindAll_first {inst inst' : Host.Instance} {x : Binding} {rest : List Binding}
    {b b' : Bridge} {id : Host.SignalId}
    (h : bindAll (inst.bind x.label id) rest b = .ok inst' b')
    (labels : ((x :: rest).map (·.label)).Nodup)
    (new : ∀ y ∈ x :: rest, y.label ∉ inst.ports.keys) : inst'.port? x.label = some id := by
  obtain ⟨hlabel, labelsRest⟩ := List.nodup_cons.mp labels
  rw [(bindAll_ok h labelsRest (new_after_bind labels new id)).kept x.label hlabel,
    Host.Instance.port?_bind, if_pos rfl]

/-- The signal that the port of a connection is bound to. -/
def signalAt (m : Guest.Netlist) (g : Generated) (inst : Host.Instance) (c : Connection) :
    Option Host.SignalId :=
  match m.resolve c.target with
  | .ok id => do inst.port? ((← Table.get? g.ports id).label (← Table.get? g.names id))
  | .error _ => none

/-- The generated module has a port of this direction and name. -/
def HasPort (g : Generated) (d : PortDirection) (name : String) : Prop :=
  ∃ id, Table.get? g.ports id = some d ∧ Table.get? g.names id = some name

/-- An instance binds exactly the ports of a generated module, as the connections say. -/
structure BindsPorts (m : Guest.Netlist) (g : Generated) (cs : List Connection)
    (before after : Host.Netlist) (inst : Host.Instance) : Prop where
  name : inst.moduleName = g.verilog.name
  labels : ∀ label, label ∈ inst.ports.keys ↔ ∃ d name, HasPort g d name ∧ label = d.label name
  nodup : inst.ports.keys.Nodup
  count : inst.ports.length = cs.length
  bound : ∀ c ∈ cs, ∃ id, signalAt m g inst c = some id ∧ BoundTo before after c.source c.invert id
  apart : ((cs.filter (·.invert)).map (signalAt m g inst)).Nodup
  kept : Grows before after
  parsed : ∀ label ∈ inst.ports.keys, ∃ d name, PortDirection.parseLabel label = some (d, name) ∧
    HasPort g d name
  listed : ∀ d name id, (name, id) ∈ inst.portsWith d ↔ inst.port? (d.label name) = some id
  named : ∀ d name, name ∈ (inst.portsWith d).map Prod.fst ↔ HasPort g d name
  once : ∀ d, ((inst.portsWith d).map Prod.fst).Nodup

theorem Ports.hasPort_iff {b : Bridge} (p : Ports b) (name : String) {d : PortDirection}
    {n : String} : HasPort (p.stages.generated name) d n ↔
      ∃ c ∈ b.connections, p.portOf c = ⟨n, d⟩ := by
  constructor
  · rintro ⟨id, hd, hn⟩
    have hport : id ∈ p.stages.ports.keys := Table.mem_keys_of_get? hd
    obtain ⟨t, ht, hr⟩ := p.stages.portsFor.requested id hport
    obtain ⟨c, hc, rfl⟩ := List.mem_map.mp ht
    have behind : signalBehind b.guest c.target = id := by simp [signalBehind, hr]
    have direction := (p.stages.get?_ports hport).symm.trans hd
    have named := (p.stages.get?_names_eq (p.stages.port_named hport)).symm.trans hn
    refine ⟨c, hc, ?_⟩
    rw [Ports.portOf, behind, Guest.Netlist.Stages.portOf, Option.some.inj direction,
      Option.some.inj named]
  · rintro ⟨c, hc, h⟩
    have hport := p.isPort c hc
    obtain ⟨rfl, rfl⟩ := PortInfo.mk.inj h
    exact ⟨_, p.stages.get?_ports hport, p.stages.get?_names_eq (p.stages.port_named hport)⟩

theorem Ports.signalAt_eq {b : Bridge} (p : Ports b) (name : String) (inst : Host.Instance)
    {c : Connection} (hc : c ∈ b.connections) :
    signalAt b.guest (p.stages.generated name) inst c = inst.port? (p.portOf c).label := by
  have hport := p.isPort c hc
  have hd : Table.get? (p.stages.generated name).ports (signalBehind b.guest c.target) = _ :=
    p.stages.get?_ports hport
  have hn : Table.get? (p.stages.generated name).names (signalBehind b.guest c.target) = _ :=
    p.stages.get?_names_eq (p.stages.port_named hport)
  rw [signalAt, p.resolved c hc]
  simp only [hd, hn]
  rfl

/-- What is bound for every connection, told about the generated module. -/
theorem Ports.bindsPorts {b : Bridge} (p : Ports b) {before after : Host.Netlist}
    {inst : Host.Instance} (nodup : (b.connections.map fun c => (p.portOf c).label).Nodup)
    (all : BoundAll before after ⟨b.name, []⟩ inst
      (b.connections.map fun c => bindingTo (p.portOf c) c)) :
    BindsPorts b.guest (p.stages.generated b.name) b.connections before after inst := by
  have perm : inst.ports.keys.Perm (b.connections.map fun c => (p.portOf c).label) := by
    simpa [Table.keys, bindingTo, Function.comp_def] using all.labels
  have keys_nodup : inst.ports.keys.Nodup := perm.nodup_iff.mpr nodup
  have labels : ∀ label, label ∈ inst.ports.keys ↔
      ∃ d name, HasPort (p.stages.generated b.name) d name ∧ label = d.label name := by
    intro label
    rw [perm.mem_iff, List.mem_map]
    constructor
    · rintro ⟨c, hc, rfl⟩
      exact ⟨_, _, (p.hasPort_iff b.name).mpr ⟨c, hc, rfl⟩, rfl⟩
    · rintro ⟨d, name, h, rfl⟩
      obtain ⟨c, hc, heq⟩ := (p.hasPort_iff b.name).mp h
      exact ⟨c, hc, by rw [heq]; rfl⟩
  have listed : ∀ d name id, (name, id) ∈ inst.portsWith d ↔ inst.port? (d.label name) = some id :=
    fun d name id => Host.Instance.mem_portsWith keys_nodup
  refine ⟨all.name, labels, keys_nodup, ?_, ?_, ?_, all.grows, ?_, listed, ?_,
    fun d => Host.Instance.portsWith_nodup keys_nodup d⟩
  · simpa [Table.keys] using perm.length_eq
  · intro c hc
    obtain ⟨id, hid, hbound⟩ := all.bound _ (List.mem_map_of_mem hc)
    exact ⟨id, (p.signalAt_eq b.name inst hc).trans hid, hbound⟩
  · have inverted : (b.connections.filter (·.invert)).map
        (signalAt b.guest (p.stages.generated b.name) inst) =
        (b.connections.filter (·.invert)).map fun c => inst.port? (p.portOf c).label :=
      List.map_congr_left fun c hc => p.signalAt_eq b.name inst (List.mem_filter.mp hc).1
    rw [inverted]
    simpa [List.filter_map, bindingTo, Function.comp_def] using all.apart
  · intro label hlabel
    obtain ⟨d, name, hport, rfl⟩ := (labels label).mp hlabel
    exact ⟨d, name, PortDirection.parseLabel_label d name, hport⟩
  · intro d name
    have here : name ∈ (inst.portsWith d).map Prod.fst ↔ d.label name ∈ inst.ports.keys := by
      rw [← Table.get?_isSome_iff, Option.isSome_iff_exists, List.mem_map]
      constructor
      · rintro ⟨⟨n, id⟩, hmem, rfl⟩
        exact ⟨id, (listed d n id).mp hmem⟩
      · rintro ⟨id, hid⟩
        exact ⟨(name, id), (listed d name id).mpr hid, rfl⟩
    rw [here, labels]
    constructor
    · rintro ⟨e, n, hport, heq⟩
      obtain ⟨rfl, rfl⟩ := PortDirection.label_injective heq
      exact hport
    · exact fun hport => ⟨d, name, hport, rfl⟩

/-- However a bridge was filled and whatever is added after its emission, building the
instance meets no internal error, and an instance that is built binds exactly the
ports of the generated module. -/
theorem built_instance_binds_ports {b₀ emitted : Bridge} {text : String} (earlier later : List Action)
    (emission : emit (run earlier b₀) = .ok text emitted) :
    (∀ e d, buildInstance (run later emitted) ≠ .error (.internal e) d) ∧
    ∀ inst built, buildInstance (run later emitted) = .ok inst built →
      ∃ g, (run earlier b₀).guest.generate (run earlier b₀).name
          ((run earlier b₀).connections.map (·.target)) = .ok g ∧ text = g.text ∧
        BindsPorts (run earlier b₀).guest g (run earlier b₀).connections (run later emitted).host
          built.host inst := by
  have later_sealed : Sealed emitted (run later emitted) := (Sealed.of_emit emission).run later
  obtain ⟨p, hg, -, outcome⟩ := bindings_sealed emission later_sealed
  have htext : text = (p.stages.generated (run earlier b₀).name).text := by
    obtain ⟨-, g, hg', rfl, -⟩ := emit_eq_ok.mp emission
    rw [Except.ok.inj (hg'.symm.trans hg)]
  cases hrep : firstRepeat? [] (Ports.signals (run earlier b₀)) with
  | some id =>
    rw [hrep] at outcome
    have result := buildInstance_of_error later_sealed.phase outcome
    constructor
    · intro e d h
      cases (EStateM.Result.error.inj (result.symm.trans h)).1
    · intro inst built h
      cases result.symm.trans h
  | none =>
    rw [hrep] at outcome
    have result := buildInstance_of_ok later_sealed.phase outcome
    have labels : ((run earlier b₀).connections.map fun c => (p.portOf c).label).Nodup := by
      have hlabels := p.firstRepeat?_labels
      rw [hrep] at hlabels
      simpa using (firstRepeat?_eq_none_iff [] _ List.nodup_nil).mp hlabels
    cases hb : bindAll ⟨(run later emitted).name, []⟩
        ((run earlier b₀).connections.map fun c => bindingTo (p.portOf c) c) (run later emitted) with
    | error e d =>
      rw [bind_of_error hb] at result
      obtain ⟨i, rfl⟩ := bindAll_error hb
      constructor
      · intro e' d' h
        cases (EStateM.Result.error.inj (result.symm.trans h)).1
      · intro inst built h
        cases result.symm.trans h
    | ok inst d =>
      rw [bind_of_ok hb, bind_of_ok (modify_run _), pure_run] at result
      constructor
      · intro e' d' h
        cases result.symm.trans h
      · intro inst' built h
        obtain ⟨rfl, rfl⟩ := EStateM.Result.ok.inj (result.symm.trans h)
        have hname : (run later emitted).name = (run earlier b₀).name := by
          obtain ⟨q, -, -, -, hname, -⟩ := emit_ports emission
          exact later_sealed.name.trans hname
        have all := bindAll_ok hb (by simpa [bindingTo, Function.comp_def] using labels)
          (by simp [Table.keys])
        rw [hname] at all
        exact ⟨_, hg, htext, p.bindsPorts labels all⟩

/-- A clock domain, an input, and a register that is connected through an inverter. -/
def registerActions : List Action :=
  [.declareDomain "sys", .addGuestSignal "a" .bit 0, .addGuestSignal "y" (.unsignedBits 4) 0,
    .driveGuest (some "sync") ⟨3⟩ (.signal ⟨2⟩), .importFromGuest ⟨3⟩ true,
    .importFromGuest ⟨2⟩ false]

def emptyBridge : Bridge := { name := "core", host := { name := "top" } }

theorem register_is_built : ∃ text emitted inst built g,
    emit (run registerActions emptyBridge) = .ok text emitted ∧
    buildInstance (run [.addHostSignal "late" .bit] emitted) = .ok inst built ∧
    BindsPorts (run registerActions emptyBridge).guest g
      (run registerActions emptyBridge).connections
      (run [.addHostSignal "late" .bit] emitted).host built.host inst := by
  have succeeds : (match emit (run registerActions emptyBridge) with
      | .ok _ emitted => match buildInstance (run [.addHostSignal "late" .bit] emitted) with
        | .ok _ _ => true
        | .error _ _ => false
      | .error _ _ => false) = true := by decide +kernel
  split at succeeds
  · rename_i text emitted emission
    split at succeeds
    · rename_i inst built construction
      obtain ⟨g, -, -, binds⟩ :=
        (built_instance_binds_ports registerActions _ emission).2 inst built construction
      exact ⟨text, emitted, inst, built, g, emission, construction, binds⟩
    · cases succeeds
  · cases succeeds

end NetBridge.Bridge
