import NetBridge.Host.Evaluation
import NetBridge.Proofs.Bridge.Prescription
import NetBridge.Proofs.Bridge.Rejection
import NetBridge.Proofs.Guest.Built

/-! # What adapted pads and declared domains add

A pad that is adapted for the first time adds what its mode prescribes to the host, and
connects each exposed signal to a guest signal of its own. A declared domain connects
its two wires to a guest domain that was not there before. -/
namespace NetBridge

namespace Host

/-- The wires of some domains. -/
def wires (domains : Table String Domain) : List SignalId :=
  domains.flatMap fun p => [p.2.clk, p.2.rst]

theorem wires_append (ds es : Table String Domain) : wires (ds ++ es) = wires ds ++ wires es :=
  List.flatMap_append

namespace Netlist

/-- The wires of a domain are made on its first use, and nothing else is. -/
theorem domain_adds (m : Netlist) (name : String) :
    ∃ signals domains made, (m.domain name).2 = { m with signals, domains } ∧
      m.signals.Adds signals made ∧ wires domains = wires m.domains ++ made ∧
      m.domains ⊆ domains ∧ (name, (m.domain name).1) ∈ domains := by
  rw [domain]
  cases h : Table.get? m.domains name with
  | some d =>
    exact ⟨m.signals, m.domains, [], rfl, .refl _, (List.append_nil _).symm, List.Subset.refl _,
      Table.mem_of_get? h⟩
  | none =>
    refine ⟨_, _, _, rfl, (Arena.Adds.push m.signals _).append (Arena.Adds.push _ _), ?_,
      List.subset_append_left _ _, List.mem_append_right _ List.mem_cons_self⟩
    rw [wires_append]
    rfl

end Netlist

end Host

namespace Bridge

open Host (Pad Primitive SignalId)

/-- Connections from these sources to new signals of the guest. -/
structure Imports (guest guest' : Guest.Netlist) (cs : List Connection)
    (sources : List SignalId) : Prop where
  sources : cs.map (·.source) = sources
  targets : ∃ ids, cs.map (·.target) = ids.map Guest.Target.signal ∧
    guest.signals.Adds guest'.signals ids
  domains : guest'.domains = guest.domains

theorem sources_roleConnections (inverted : Bool) {signals : Table Role Guest.SignalId}
    {exposed : List SignalId} (same : signals.length = exposed.length) :
    (roleConnections inverted signals exposed).map (·.source) = exposed := by
  rw [roleConnections, List.map_map]
  exact List.map_snd_zip (Nat.le_of_eq same.symm)

theorem targets_roleConnections (inverted : Bool) {signals : Table Role Guest.SignalId}
    {exposed : List SignalId} (same : signals.length = exposed.length) :
    (roleConnections inverted signals exposed).map (·.target) =
      signals.values.map Guest.Target.signal := by
  have values : signals.values = ((signals.zip exposed).map Prod.fst).map Prod.snd := by
    rw [List.map_fst_zip (Nat.le_of_eq same)]
    rfl
  rw [values, roleConnections]
  simp

/-- The connections of an equipped pad lead from the exposed signals to new ones of the guest. -/
theorem Equips.imports {site : PadSite} {inverted : Bool} {direction : Direction} {rate : Nat}
    {roles : List Role} {b b' : Bridge} (h : Equips site inverted direction rate roles b b')
    (known : modeRoles? direction rate = some roles) : ∃ logical made exposed prims,
      site.Synthesized direction rate b.host logical made exposed prims b'.host ∧
      ∃ cs, b'.connections = b.connections ++ cs ∧ Imports b.guest b'.guest cs exposed := by
  obtain ⟨logical, made, exposed, prims, synthesized, connections⟩ := h.made
  have same : (b.roleSignals roles).length = exposed.length := by
    have found := congrArg List.length (synthesized.found roles known)
    simpa [roleSignals] using found
  refine ⟨logical, made, exposed, prims, synthesized, _, connections,
    sources_roleConnections inverted same, ⟨b.guest.signals.nextKeys roles.length, ?_, ?_⟩, ?_⟩
  · rw [targets_roleConnections inverted same, values_roleSignals]
  · have adds := Arena.Adds.appended b.guest.signals (roles.map site.guestSignal)
    rw [List.length_map] at adds
    rwa [h.guest]
  · rw [h.guest]

/-- A pad in a mode, with what has been made for it. -/
structure Placement where
  pad : SignalId
  direction : Direction
  rate : Nat
  made : List SignalId
  exposed : List SignalId
  primitives : List Primitive

/-- The placement is what the mode prescribes. -/
def Placement.Fits (p : Placement) (host : Host.Netlist) : Prop :=
  Prescribed p.pad (host.shapeOf p.pad).width p.direction p.rate p.made p.exposed p.primitives

/-- The second bridge is the first one with one pad more. -/
structure Places (b b' : Bridge) (p : Placement) : Prop where
  fits : p.Fits b.host
  new : p.pad ∉ b.pads.keys
  phase : b'.phase = b.phase
  adds : b.host.signals.Adds b'.host.signals p.made
  primitives : b'.host.primitives = b.host.primitives ++ p.primitives
  domains : b'.host.domains = b.host.domains
  connections : ∃ cs, b'.connections = b.connections ++ cs ∧ Imports b.guest b'.guest cs p.exposed
  pads : ∃ c, b'.pads = b.pads ++ [(p.pad, ⟨p.direction, p.rate, c⟩)]

section Leaf

theorem checkCapability_keeps {c : Capability} {b b' : Bridge} {u : Unit}
    (h : checkCapability c b = .ok u b') : b' = b := by
  rcases checkCapability_checks c b with checked | ⟨e, failed⟩
  · exact (EStateM.Result.ok.inj (h.symm.trans checked)).2
  · cases failed.symm.trans h

variable {name : String} {pad : Pad} {direction : Direction} {rate : Nat} {b b' : Bridge}
  {s : Host.Signal} {c : Capability}

theorem adaptFresh_places {roles : List Role} (collecting : b.phase = .collecting)
    (known : modeRoles? direction rate = some roles) (hs : b.host.signal? pad.signal = some s)
    (new : pad.signal ∉ b.pads.keys) (h : adaptFresh name pad direction rate roles b = .ok c b') :
    ∃ p : Placement, p.pad = pad.signal ∧ Places b b' p := by
  obtain ⟨b₁, equips, hrun⟩ := adaptFresh_equips name collecting known hs
  obtain ⟨logical, made, exposed, prims, synthesized, connections⟩ := equips.imports known
  have makes := synthesized.makes
  rw [hrun] at h
  split at h
  · cases h
  · obtain ⟨rfl, rfl⟩ := EStateM.Result.ok.inj h
    refine ⟨⟨pad.signal, direction, rate, made, exposed, prims⟩, rfl, ?_, new, equips.grown.phase,
      makes.adds, ?_, ?_, connections, ⟨_, by rw [equips.pads]⟩⟩
    · rw [Placement.Fits, Host.Netlist.shapeOf, hs]
      exact synthesized.prescribed
    · rw [makes.rest]
    · rw [makes.rest]

/-- An adaptation that succeeds finds a pad that needs nothing or has been adapted
already, or it adds the pad. -/
theorem adaptLeaf_places (collecting : b.phase = .collecting)
    (hs : b.host.signal? pad.signal = some s) (h : adaptLeaf name pad direction rate b = .ok c b') :
    b' = b ∨ ∃ p : Placement, p.pad = pad.signal ∧ Places b b' p := by
  cases adaptLeaf_adapts h with
  | idle | cached => exact .inl rfl
  | fresh _ known new made =>
    exact .inr (adaptFresh_places collecting known hs (Table.get?_eq_none_iff.mp new) made)

theorem LeafRequest.adapt_places {l : LeafRequest} (collecting : b.phase = .collecting)
    (hs : b.host.signal? l.pad.signal = some s) (h : l.adapt b = .ok c b') :
    b' = b ∨ ∃ p : Placement, p.pad = l.pad.signal ∧ Places b b' p := by
  obtain ⟨-, direction, rate, -, adapted⟩ := LeafRequest.adapt_eq_ok h
  exact adaptLeaf_places collecting hs adapted

end Leaf

/-- The guest domain that a host domain drives. -/
def guestDomain (name : String) : String :=
  if name = hostTopDomain then Guest.Netlist.topDomain else name

/-- The second bridge is the first one with one domain more. -/
structure Declares (b b' : Bridge) (name : String) (domain : Host.Domain) : Prop where
  phase : b'.phase = b.phase
  pads : b'.pads = b.pads
  primitives : b'.host.primitives = b.host.primitives
  adds : ∃ made, b.host.signals.Adds b'.host.signals made ∧
    Host.wires b'.host.domains = Host.wires b.host.domains ++ made
  kept : b.host.domains ⊆ b'.host.domains
  listed : (name, domain) ∈ b'.host.domains
  new : guestDomain name ∉ b.guest.domains.keys
  guest : b'.guest.domains.keys = b.guest.domains.keys ++ [guestDomain name]
  grown : b.guest.signals.Extends b'.guest.signals
  connections : b'.connections = b.connections ++
    [⟨domain.clk, .clock (guestDomain name), false⟩, ⟨domain.rst, .reset (guestDomain name), false⟩]

/-- A domain that cannot be declared leaves nothing behind. -/
theorem declareDomain_declares (name : String) {b : Bridge} (collecting : b.phase = .collecting) :
    (∃ e, declareDomain name b = .error e b) ∨
    ∃ b' domain, declareDomain name b = .ok () b' ∧ Declares b b' name domain := by
  cases hguest : b.guest.addDomain (guestDomain name) with
  | error e =>
    refine .inl ⟨.guest e, ?_⟩
    have refused : ofGuest (b.guest.addDomain (guestDomain name)) b = .error (.guest e) b := by
      rw [hguest, ofGuest_error]
    rw [declareDomain, bind_of_ok (ensurePhase_ok collecting), bind_of_ok get_run]
    exact bind_of_error refused
  | ok made =>
    obtain ⟨d, guest⟩ := made
    obtain ⟨new, -, domains, signals⟩ := Guest.Built.addDomain_ok hguest
    obtain ⟨hostSignals, hostDomains, made, hhost, adds, wires, kept, listed⟩ :=
      b.host.domain_adds name
    have added : ofGuest (b.guest.addDomain (guestDomain name)) b = .ok (d, guest) b := by
      rw [hguest, ofGuest_ok]
    have wired : onHost (·.domain name) { b with guest } =
        .ok (b.host.domain name).1 { b with guest, host := (b.host.domain name).2 } := onHost_run _
    let domain := (b.host.domain name).1
    have run : declareDomain name b = .ok () { b with
        guest
        host := (b.host.domain name).2
        connections := b.connections ++ [⟨domain.clk, .clock (guestDomain name), false⟩] ++
          [⟨domain.rst, .reset (guestDomain name), false⟩] } := by
      rw [declareDomain, bind_of_ok (ensurePhase_ok collecting), bind_of_ok get_run]
      refine (bind_of_ok added).trans ?_
      dsimp only
      rw [bind_of_ok (modify_run _), bind_of_ok wired]
      have still : { b with guest, host := (b.host.domain name).2 }.phase = .collecting := collecting
      exact (bind_of_ok (connect_ok still)).trans (connect_ok still)
    refine .inr ⟨_, domain, run, ?_⟩
    rw [hhost]
    refine ⟨rfl, rfl, rfl, ⟨made, adds, wires⟩, kept, listed, new, ?_, ?_, ?_⟩
    · change guest.domains.keys = _
      rw [domains, Table.keys_append]
      rfl
    · change b.guest.signals.Extends guest.signals
      rw [signals]
      exact (Arena.Extends.push _ _).trans (.push _ _)
    · exact List.append_assoc ..

end Bridge

end NetBridge
