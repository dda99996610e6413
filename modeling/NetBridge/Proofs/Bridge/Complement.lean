import Mathlib.Data.List.Forall2
import NetBridge.Proofs.Bridge.Gathering
import NetBridge.Proofs.Bridge.Inversion
import NetBridge.Proofs.Number

/-! # Complements of many connections at once

An instance inverts all of its inverted connections by value: every one of them gets an
inverter of its own, turned the way its port goes, and none of them disturbs another. -/
namespace NetBridge

namespace Word

/-- The lowest bits of the first word are the complements of those of the second, and it
has no others. -/
def Complements (width : Nat) (v w : Word) : Prop :=
  ∀ i, v.getLsbD i = (decide (i < width) && !w.getLsbD i)

theorem crossed_complements {width : Nat} (narrow : width ≤ 64) (w : Word) :
    Complements width (crossed true width w) w := by
  intro i
  rw [crossed, if_pos rfl, BitVec.getLsbD_and, BitVec.getLsbD_not, getLsbD_ones,
    Nat.min_eq_left narrow]
  by_cases h : i < width
  · simp [h, Nat.lt_of_lt_of_le h narrow]
  · simp [h]

end Word

namespace Bridge

open Host (Valuation)

/-- The binding is the one that the port of the connection asks for. -/
def BindsTo (map : PortMap) (c : Connection) (x : Binding) : Prop :=
  ∃ port, map.lookup c.target = .ok port ∧ x = bindingTo port c

theorem bindings_bindTo {map : PortMap} {seen : List String} {cs : List Connection}
    {bs : List Binding} (h : bindings map seen cs = .ok bs) : List.Forall₂ (BindsTo map) cs bs := by
  induction cs generalizing seen bs with
  | nil =>
    obtain rfl := Except.ok.inj h
    exact .nil
  | cons c rest ih =>
    obtain ⟨port, bs', hport, -, hrest, rfl⟩ := bindings_cons h
    exact .cons ⟨port, hport, rfl⟩ (ih hrest)

/-- The assignment is the inverter of the connection: it drives the new signal that an
input is bound to, or the source from the new signal that an output is bound to. -/
def Inverts (map : PortMap) (host : Host.Netlist) (inst : Host.Instance) (c : Connection)
    (a : Host.Assign) : Prop :=
  ∃ port id, map.lookup c.target = .ok port ∧ inst.port? port.label = some id ∧
    host.signals.contains id = false ∧
    a = match port.direction with
      | .input => ⟨id, .not (.signal c.source)⟩
      | .output => ⟨c.source, .not (.signal id)⟩

theorem Inverts.earlier {map : PortMap} {host later : Host.Netlist} {inst : Host.Instance}
    {c : Connection} {a : Host.Assign} (h : Inverts map later inst c a)
    (grown : host.signals.Extends later.signals) : Inverts map host inst c a := by
  obtain ⟨port, id, hport, hid, new, ha⟩ := h
  refine ⟨port, id, hport, hid, ?_, ha⟩
  cases there : host.signals.contains id with
  | false => rfl
  | true => exact absurd (grown.contains there) (by simp [new])

/-- What drives a new signal or the source of one of the connections. -/
def Drives (host : Host.Netlist) (cs : List Connection) (a : Host.Assign) : Prop :=
  host.signals.contains a.target = false ∨ a.target ∈ cs.map (·.source)

theorem Drives.cons {host later : Host.Netlist} {cs : List Connection} {a : Host.Assign}
    (h : Drives later cs a) (grown : host.signals.Extends later.signals) (c : Connection) :
    Drives host (c :: cs) a := by
  rcases h with new | source
  · cases there : host.signals.contains a.target with
    | false => exact .inl there
    | true => exact absurd (grown.contains there) (by simp [new])
  · exact .inr (List.mem_cons_of_mem _ source)

/-- The inverter of the first of several connections drives the signal that is new with it
or the source, and no source of another one. -/
theorem inverter_drives {host : Host.Netlist} {c : Connection} {cs : List Connection}
    (sources : ((c :: cs).map (·.source)).Nodup)
    (there : ∀ d ∈ c :: cs, host.signals.contains d.source = true) (port : PortInfo)
    (twin : Host.Signal) {a : Host.Assign}
    (ha : a = (bindingTo port c).inverter host.signals.nextKey) :
    (host.signals.push twin).contains a.target = true ∧ a.target ∉ cs.map (·.source) ∧
      Drives host (c :: cs) a := by
  obtain ⟨hsource, -⟩ := List.nodup_cons.mp sources
  obtain ⟨hthere, thereRest⟩ := List.forall_mem_cons.mp there
  have target : a.target = host.signals.nextKey ∨ a.target = c.source := by
    rcases (bindingTo port c).inverter_eq host.signals.nextKey with h | h <;>
      rw [ha, h] <;> simp [bindingTo]
  rcases target with ht | ht <;> rw [Drives, ht]
  · refine ⟨Arena.contains_of_get? (Arena.get?_push_nextKey _ twin), fun source => ?_,
      .inl (Arena.contains_nextKey _)⟩
    obtain ⟨d, hd, hkey⟩ := List.mem_map.mp source
    have old := thereRest d hd
    rw [hkey, Arena.contains_nextKey] at old
    cases old
  · exact ⟨(Arena.Extends.push _ twin).contains hthere, hsource, .inr List.mem_cons_self⟩

/-- Binding adds one inverter for each inverted connection, and no two of them drive one
signal. -/
theorem bindAll_inverts {map : PortMap} {inst inst' : Host.Instance} {cs : List Connection}
    {bs : List Binding} (bind : List.Forall₂ (BindsTo map) cs bs) {b b' : Bridge}
    (h : bindAll inst bs b = .ok inst' b') (labels : (bs.map (·.label)).Nodup)
    (new : ∀ x ∈ bs, x.label ∉ inst.ports.keys) (sources : (cs.map (·.source)).Nodup)
    (there : ∀ c ∈ cs, b.host.signals.contains c.source = true) :
    ∃ assigns, b'.host.assignments = b.host.assignments ++ assigns ∧
      List.Forall₂ (Inverts map b.host inst') (cs.filter (·.invert)) assigns ∧
      (assigns.map (·.target)).Nodup ∧
      ∀ a ∈ assigns, b'.host.signals.contains a.target = true ∧ Drives b.host cs a := by
  induction bind generalizing inst b with
  | nil =>
    obtain ⟨-, rfl⟩ := EStateM.Result.ok.inj h
    exact ⟨[], by simp, .nil, List.nodup_nil, by simp⟩
  | @cons c x cs rest hx hrest ih =>
    obtain ⟨port, hport, rfl⟩ := hx
    obtain ⟨id, b₁, first, others⟩ := bind_eq_ok.mp h
    obtain ⟨hsource, sourcesRest⟩ := List.nodup_cons.mp sources
    obtain ⟨hthere, thereRest⟩ := List.forall_mem_cons.mp there
    have labelsRest := (List.nodup_cons.mp labels).2
    have newRest := new_after_bind labels new id
    have grows := (bindAll_ok others labelsRest newRest).grows
    cases hi : c.invert with
    | false =>
      rw [bound_direct hi] at first
      obtain ⟨rfl, rfl⟩ := EStateM.Result.ok.inj first
      obtain ⟨assigns, hassigns, inverts, apart, drives⟩ :=
        ih others labelsRest newRest sourcesRest thereRest
      rw [List.filter_cons_of_neg (by simp [hi])]
      exact ⟨assigns, hassigns, inverts, apart,
        fun a ha => (drives a ha).imp_right fun d => d.cons (.refl _) c⟩
    | true =>
      obtain ⟨s, hs⟩ := bound_source (x := bindingTo port c) hi first
      rw [bound_inverted hi hs] at first
      obtain ⟨rfl, rfl⟩ := EStateM.Result.ok.inj first
      have grown := Arena.Extends.push b.host.signals ⟨s!"{s.name}_inv", s.shape⟩
      obtain ⟨assigns, hassigns, inverts, apart, drives⟩ := ih others labelsRest newRest
        sourcesRest fun d hd => grown.contains (thereRest d hd)
      let a := (bindingTo port c).inverter b.host.signals.nextKey
      obtain ⟨allocated, other, drivesFirst⟩ := inverter_drives sources there port
        ⟨s!"{s.name}_inv", s.shape⟩ (rfl : a = _)
      have inverter : Inverts map b.host inst' c a :=
        ⟨port, _, hport, bindAll_first others labels new, Arena.contains_nextKey _, rfl⟩
      refine ⟨a :: assigns, hassigns.trans (List.append_assoc ..), ?_, ?_,
        List.forall_mem_cons.mpr ⟨⟨(grows _ allocated).1, drivesFirst⟩, fun a' ha' =>
          (drives a' ha').imp_right fun d => d.cons grown c⟩⟩
      · rw [List.filter_cons_of_pos hi]
        exact .cons inverter (inverts.imp fun d a h => h.earlier grown)
      · refine List.nodup_cons.mpr ⟨fun again => ?_, apart⟩
        obtain ⟨a', ha', same⟩ := List.mem_map.mp again
        have drives' := (drives a' ha').2
        rw [Drives, show a'.target = a.target from same] at drives'
        rcases drives' with new | source
        · cases new.symm.trans allocated
        · exact other source

/-- What a built instance makes of the connections of a bridge whose host had no
assignments. -/
structure Inverted (b : Bridge) (inst : Host.Instance) (b' : Bridge) : Prop where
  /-- A connection that is not inverted is bound to its source. -/
  direct : ∀ c ∈ b.connections, c.invert = false → ∃ port,
    b.portMap.lookup c.target = .ok port ∧ inst.port? port.label = some c.source
  /-- In every evaluation an inverted input has the complement of its source, and the source
  of an inverted output has the complement of the output. -/
  complements : ∀ inputs : Valuation, ∃ values, b'.host.evaluate? inputs = some values ∧
    (∀ id, b'.host.driver? id = none → values.read id = inputs.read id) ∧
    ∀ c ∈ b.connections, c.invert = true → ∃ port id s, b.portMap.lookup c.target = .ok port ∧
      inst.port? port.label = some id ∧ b.host.signal? c.source = some s ∧
      match port.direction with
      | .input => Word.Complements s.shape.width (values.read id) (values.read c.source)
      | .output => Word.Complements s.shape.width (values.read c.source) (values.read id)
  /-- There is one inverter for each inverted connection, and no other assignment. -/
  inverters : List.Forall₂ (Inverts b.portMap b.host inst) (b.connections.filter (·.invert))
    b'.host.assignments
  drivers : (b'.host.assignments.map (·.target)).Nodup
  signals : b.host.signals.Extends b'.host.signals
  primitives : b'.host.primitives = b.host.primitives

/-- Inversion holds by value, for all connections of a bridge at once. -/
theorem inversion_holds_by_value {b b' : Bridge} {inst : Host.Instance}
    (unassigned : b.host.assignments = []) (sources : (b.connections.map (·.source)).Nodup)
    (narrow : ∀ c ∈ b.connections, ∃ s, b.host.signal? c.source = some s ∧ s.shape.width ≤ 64)
    (h : buildInstance b = .ok inst b') : Inverted b inst b' := by
  have there : ∀ c ∈ b.connections, b.host.signals.contains c.source = true := by
    intro c hc
    obtain ⟨s, hs, -⟩ := narrow c hc
    exact Arena.contains_of_get? hs
  obtain ⟨bs, b₁, hb, hbind, hb'⟩ := buildInstance_binds h
  obtain ⟨labels, -, found⟩ := bindings_spec hb
  have all := bindAll_ok hbind labels (by simp [Table.keys])
  obtain ⟨assigns, hassigns, inverts, apart, drives⟩ := bindAll_inverts (bindings_bindTo hb) hbind
    labels (by simp [Table.keys]) sources there
  rw [unassigned, List.nil_append] at hassigns
  subst hb'
  exact {
    direct := fun c hc hi => by
      obtain ⟨port, hport, hx⟩ := found c hc
      obtain ⟨id, hid, bound⟩ := all.bound _ hx
      obtain rfl : id = c.source := by simpa [BoundTo, bindingTo, hi] using bound
      exact ⟨port, hport, hid⟩
    complements := fun inputs => by
      obtain ⟨values, hvalues⟩ := Host.Netlist.evaluate?_isSome (m := b₁.host)
        (fun a ha => (drives a (hassigns ▸ ha)).1) inputs
      refine ⟨values, hvalues, fun id free => ?_, fun c hc hi => ?_⟩
      · refine Host.Netlist.evaluate?_undriven (fun a ha same => ?_) hvalues
        exact absurd (List.find?_eq_none.mp free a ha) (by simp [same])
      · obtain ⟨s, hs, hwidth⟩ := narrow c hc
        obtain ⟨port, id, hport, hid, carries⟩ := buildInstance_carries h sources there hc hs
        refine ⟨port, id, s, hport, hid, hs, ?_⟩
        have crossing := carries inputs values hvalues
        rw [hi] at crossing
        cases hd : port.direction with
        | input =>
          rw [hd] at crossing
          exact crossing ▸ Word.crossed_complements hwidth _
        | output =>
          rw [hd] at crossing
          exact crossing ▸ Word.crossed_complements hwidth _
    inverters := hassigns ▸ inverts
    drivers := hassigns ▸ apart
    signals := fun id s hs => (all.grows id (Arena.contains_of_get? hs)).2.trans hs
    primitives := by
      obtain ⟨host, inverters, rfl⟩ := bindAll_inverters (bindings_ends hb) hbind
      exact inverters.primitives }

/-- An inverted input, an inverted output that is driven with it, and a direct input. -/
def mixedBridge : Bridge := stateAfter emit
  { name := "core"
    host := {
      name := "top"
      signals := ⟨#[⟨"a", .unsignedBits 4⟩, ⟨"y", .unsignedBits 4⟩, ⟨"b", .bit⟩]⟩ }
    guest := {
      signals := ⟨#[⟨"a", .unsignedBits 4, 0⟩, ⟨"y", .unsignedBits 4, 0⟩, ⟨"b", .bit, 0⟩]⟩
      statements := [⟨⟨1⟩, .signal ⟨0⟩, none⟩] }
    connections := [⟨⟨0⟩, .signal ⟨0⟩, true⟩, ⟨⟨1⟩, .signal ⟨1⟩, true⟩, ⟨⟨2⟩, .signal ⟨2⟩, false⟩] }

theorem mixedBridge_is_inverted : mixedBridge.host.assignments = [] ∧
    (mixedBridge.connections.map (·.source)).Nodup ∧
    (∀ c ∈ mixedBridge.connections, ∃ s, mixedBridge.host.signal? c.source = some s ∧
      s.shape.width ≤ 64) ∧
    ∃ inst b', buildInstance mixedBridge = .ok inst b' ∧ b'.host.assignments.length = 2 ∧
      Inverted mixedBridge inst b' := by
  have unassigned : mixedBridge.host.assignments = [] := by decide +kernel
  have sources : (mixedBridge.connections.map (·.source)).Nodup := by decide +kernel
  have narrow : ∀ c ∈ mixedBridge.connections, ∃ s, mixedBridge.host.signal? c.source = some s ∧
      s.shape.width ≤ 64 := by
    have widths : ∀ c ∈ mixedBridge.connections,
        (mixedBridge.host.signal? c.source).any (·.shape.width ≤ 64) = true := by decide +kernel
    intro c hc
    have width := widths c hc
    cases hs : mixedBridge.host.signal? c.source with
    | none => simp [hs] at width
    | some s => exact ⟨s, rfl, by simpa [hs] using width⟩
  have succeeds : (match buildInstance mixedBridge with
      | .ok _ b' => b'.host.assignments.length == 2
      | .error _ _ => false) = true := by decide +kernel
  split at succeeds
  · rename_i inst b' h
    exact ⟨unassigned, sources, narrow, inst, b', h, by simpa using succeeds,
      inversion_holds_by_value unassigned sources narrow h⟩
  · cases succeeds

end Bridge

end NetBridge
