import Mathlib.Data.List.Flatten
import Mathlib.Data.List.Perm.Subperm
import NetBridge.Proofs.Bridge.Gathering
import NetBridge.Proofs.Bridge.Placement

/-! # Wiring of pads

Requests and declared domains wire every pad at most once: to the pad side of one
primitive, or to one connection. A ledger says what has been made so far, for which
pad, and that no signal in it stands twice. -/
namespace NetBridge

open Host (Pad PadTree Primitive SignalId wires)

/-- What the primitives of a netlist touch has been allocated, and its domains share no
wire. -/
structure Host.Netlist.Sound (m : Host.Netlist) : Prop where
  terminals : ∀ p ∈ m.primitives, ∀ id ∈ p.terminals, m.signals.contains id = true
  wires : m.signals.Holds (wires m.domains)

namespace Bridge

/-- The guest has what the target leads to. -/
def Leads (m : Guest.Netlist) : Guest.Target → Prop
  | .signal id => m.signals.contains id = true
  | .clock domain | .reset domain => domain ∈ m.domains.keys

theorem Leads.grows {m m' : Guest.Netlist} {t : Guest.Target} (h : Leads m t)
    (signals : m.signals.Extends m'.signals) (domains : m.domains.keys ⊆ m'.domains.keys) :
    Leads m' t := by
  cases t with
  | signal id => exact signals.contains h
  | clock name => exact domains h
  | reset name => exact domains h

/-- What has been made since the bridge was new: the pads that were handed out, the
placements of those that have been adapted, and the domains that were declared. -/
structure Ledger (host : Host.Netlist) (pads : List Pad) (b : Bridge) (ps : List Placement)
    (ds : Table String Host.Domain) : Prop where
  collecting : b.phase = .collecting
  grown : host.signals.Extends b.host.signals
  stands : ∀ pad ∈ pads, b.host.Stands (.unsignedBits pad.width) pad.signal
  fits : ∀ p ∈ ps, p.Fits b.host
  cached : b.pads.map (fun q => (q.1, q.2.direction, q.2.rate)) =
    ps.map fun p => (p.pad, p.direction, p.rate)
  once : (ps.map (·.pad)).Nodup
  handedOut : ps.map (·.pad) ⊆ pads.map (·.signal)
  primitives : b.host.primitives = host.primitives ++ ps.flatMap (·.primitives)
  /-- The pads, what was made for them and the wires of the domains are different signals. -/
  holds : b.host.signals.Holds
    (pads.map (·.signal) ++ ps.flatMap (·.made) ++ wires b.host.domains)
  new : ∀ id ∈ pads.map (·.signal) ++ ps.flatMap (·.made), host.signals.contains id = false
  declared : ds ⊆ b.host.domains
  domains : ds.map (guestDomain ·.1) = b.guest.domains.keys
  domainsOnce : b.guest.domains.keys.Nodup
  sources : (b.connections.map (·.source)).Perm (ps.flatMap (·.exposed) ++ wires ds)
  targets : (b.connections.map (·.target)).Nodup
  leads : ∀ t ∈ b.connections.map (·.target), Leads b.guest t

theorem Placement.Fits.extends {p : Placement} {host host' : Host.Netlist} {pad : Pad}
    (h : p.Fits host) (stands : host.Stands (.unsignedBits pad.width) pad.signal)
    (same : p.pad = pad.signal) (grown : host.signals.Extends host'.signals) : p.Fits host' := by
  obtain ⟨name, hs⟩ := stands
  rw [Fits, same, Host.Netlist.shapeOf, hs] at h
  rw [Fits, same, Host.Netlist.shapeOf, Host.Netlist.signal?, grown hs]
  exact h

namespace Ledger

variable {host : Host.Netlist} {pads : List Pad} {b b' : Bridge} {ps : List Placement}
  {ds : Table String Host.Domain}

theorem start (sound : host.Sound) (name : String) :
    Ledger host [] { name, host } [] [] where
  collecting := rfl
  grown := .refl _
  stands := by simp
  fits := by simp
  cached := rfl
  once := List.nodup_nil
  handedOut := by simp
  primitives := by simp
  holds := sound.wires
  new := by simp
  declared := by simp
  domains := rfl
  domainsOnce := List.nodup_nil
  sources := .nil
  targets := List.nodup_nil
  leads := by simp

theorem keys_pads (h : Ledger host pads b ps ds) : b.pads.keys = ps.map (·.pad) := by
  have firsts := congrArg (List.map Prod.fst) h.cached
  simpa [Table.keys, Function.comp_def] using firsts

/-- Placements still fit when signals are added. -/
theorem fits_extends (h : Ledger host pads b ps ds) {later : Host.Netlist}
    (grown : b.host.signals.Extends later.signals) : ∀ p ∈ ps, p.Fits later := by
  intro p hp
  obtain ⟨pad, hpad, same⟩ := List.mem_map.mp (h.handedOut (List.mem_map_of_mem hp))
  exact (h.fits p hp).extends (h.stands pad hpad) same.symm grown

/-- The platform hands out further pads. -/
theorem hand_out (h : Ledger host pads b ps ds) {signals : Arena Host.Signal} {more : List Pad}
    (out : Platform.HandsOut b.host { b.host with signals } more) :
    Ledger host (pads ++ more) { b with host := { b.host with signals } } ps ds where
  collecting := h.collecting
  grown := h.grown.trans out.adds.grown
  stands := List.forall_mem_append.mpr
    ⟨fun pad hpad => (h.stands pad hpad).extends out.adds.grown, out.stands⟩
  fits := h.fits_extends out.adds.grown
  cached := h.cached
  once := h.once
  handedOut := by
    rw [List.map_append]
    exact fun id hid => List.mem_append_left _ (h.handedOut hid)
  primitives := h.primitives
  holds := by
    refine (h.holds.adds out.adds).perm ?_
    rw [List.map_append]
    grind
  new := by
    have old := List.forall_mem_append.mp h.new
    rw [List.map_append]
    exact List.forall_mem_append.mpr
      ⟨List.forall_mem_append.mpr ⟨old.1, out.adds.new_since h.grown⟩, old.2⟩
  declared := h.declared
  domains := h.domains
  domainsOnce := h.domainsOnce
  sources := h.sources
  targets := h.targets
  leads := h.leads

/-- A pad that was handed out is adapted. -/
theorem place (h : Ledger host pads b ps ds) {p : Placement} (places : Places b b' p)
    (handedOut : p.pad ∈ pads.map (·.signal)) : Ledger host pads b' (ps ++ [p]) ds := by
  obtain ⟨cs, hcs, imports⟩ := places.connections
  obtain ⟨ids, targets, adds⟩ := imports.targets
  obtain ⟨c, hpads⟩ := places.pads
  obtain ⟨pad, hpad, same⟩ := List.mem_map.mp handedOut
  exact {
    collecting := places.phase.trans h.collecting
    grown := h.grown.trans places.adds.grown
    stands := fun pad hpad => (h.stands pad hpad).extends places.adds.grown
    fits := List.forall_mem_append.mpr ⟨h.fits_extends places.adds.grown,
      List.forall_mem_singleton.mpr
        (places.fits.extends (h.stands pad hpad) same.symm places.adds.grown)⟩
    cached := by
      rw [hpads, List.map_append, h.cached, List.map_append]
      rfl
    once := by
      have new := places.new
      rw [h.keys_pads] at new
      rw [List.map_append]
      exact List.nodup_append.mpr ⟨h.once, List.nodup_singleton _, by grind⟩
    handedOut := by
      rw [List.map_append]
      exact List.append_subset.mpr ⟨h.handedOut, by simpa using handedOut⟩
    primitives := by
      rw [places.primitives, h.primitives, List.flatMap_append, List.append_assoc]
      simp
    holds := by
      rw [places.domains]
      refine (h.holds.adds places.adds).perm ?_
      rw [List.flatMap_append]
      grind
    new := by
      have old := List.forall_mem_append.mp h.new
      rw [List.flatMap_append]
      refine List.forall_mem_append.mpr ⟨old.1, List.forall_mem_append.mpr ⟨old.2, ?_⟩⟩
      simpa using places.adds.new_since h.grown
    declared := by
      rw [places.domains]
      exact h.declared
    domains := by
      rw [imports.domains]
      exact h.domains
    domainsOnce := by
      rw [imports.domains]
      exact h.domainsOnce
    sources := by
      rw [hcs, List.map_append, imports.sources, List.flatMap_append]
      refine (h.sources.append_right _).trans ?_
      grind
    targets := by
      rw [hcs, List.map_append, targets]
      refine List.nodup_append.mpr ⟨h.targets, adds.nodup.map fun _ _ h => by injection h, ?_⟩
      rintro t ht _ added rfl
      obtain ⟨id, hid, rfl⟩ := List.mem_map.mp added
      have there : b.guest.signals.contains id = true := h.leads _ ht
      rw [adds.new id hid] at there
      cases there
    leads := by
      rw [hcs, List.map_append, targets]
      refine List.forall_mem_append.mpr
        ⟨fun t ht => (h.leads t ht).grows adds.grown (by rw [imports.domains]; simp), ?_⟩
      intro t ht
      obtain ⟨id, hid, rfl⟩ := List.mem_map.mp ht
      exact adds.there id hid }

/-- A domain is declared. -/
theorem declare (h : Ledger host pads b ps ds) {name : String} {domain : Host.Domain}
    (declares : Declares b b' name domain) :
    Ledger host pads b' ps (ds ++ [(name, domain)]) := by
  obtain ⟨made, adds, hwires⟩ := declares.adds
  have absent : ∀ t ∈ b.connections.map (·.target), t ≠ .clock (guestDomain name) ∧
      t ≠ .reset (guestDomain name) := fun t ht =>
    ⟨fun same => declares.new (by simpa [Leads, same] using h.leads t ht),
      fun same => declares.new (by simpa [Leads, same] using h.leads t ht)⟩
  exact {
    collecting := declares.phase.trans h.collecting
    grown := h.grown.trans adds.grown
    stands := fun pad hpad => (h.stands pad hpad).extends adds.grown
    fits := h.fits_extends adds.grown
    cached := by
      rw [declares.pads]
      exact h.cached
    once := h.once
    handedOut := h.handedOut
    primitives := declares.primitives.trans h.primitives
    holds := by
      rw [hwires, ← List.append_assoc]
      exact h.holds.adds adds
    new := h.new
    declared := List.append_subset.mpr
      ⟨fun d hd => declares.kept (h.declared hd), by simpa using declares.listed⟩
    domains := by
      rw [declares.guest, List.map_append, h.domains]
      rfl
    domainsOnce := by
      rw [declares.guest]
      exact List.nodup_append.mpr ⟨h.domainsOnce, List.nodup_singleton _,
        by have new := declares.new; grind⟩
    sources := by
      rw [declares.connections, List.map_append, Host.wires_append, ← List.append_assoc]
      exact h.sources.append_right _
    targets := by
      rw [declares.connections, List.map_append]
      refine List.nodup_append.mpr ⟨h.targets, by simp, ?_⟩
      intro t ht u hu same
      have avoided := absent t ht
      rw [same] at avoided
      simp_all
    leads := by
      rw [declares.connections, List.map_append]
      refine List.forall_mem_append.mpr
        ⟨fun t ht => (h.leads t ht).grows declares.grown (by rw [declares.guest]; simp), ?_⟩
      simp [Leads, declares.guest] }

/-- Nothing was made for one pad that was made for another one, and no wire is among it. -/
theorem reach_nodup (h : Ledger host pads b ps ds) :
    (ps.flatMap fun p => p.pad :: p.made).Nodup ∧
      ∀ id ∈ ps.flatMap fun p => p.pad :: p.made, id ∉ wires b.host.domains := by
  obtain ⟨owned, -, apart⟩ := List.nodup_append.mp h.holds.nodup
  obtain ⟨-, made, padsApart⟩ := List.nodup_append.mp owned
  have perm := List.map_append_flatMap_perm ps (·.pad) (·.made)
  constructor
  · refine perm.nodup_iff.mp (List.nodup_append.mpr ⟨h.once, made, fun id hid => ?_⟩)
    exact padsApart id (h.handedOut hid)
  · intro id hid wire
    rcases List.mem_append.mp (perm.mem_iff.mpr hid) with hpad | hmade
    · exact apart id (List.mem_append_left _ (h.handedOut hpad)) id wire rfl
    · exact apart id (List.mem_append_right _ hmade) id wire rfl

/-- A pad is reached from its own placement alone. -/
theorem reached (h : Ledger host pads b ps ds) {pad : Pad} (hpad : pad ∈ pads) {p : Placement}
    (hp : p ∈ ps) (reach : pad.signal ∈ p.pad :: p.made) : p.pad = pad.signal := by
  rcases List.mem_cons.mp reach with same | made
  · exact same.symm
  · obtain ⟨owned, -, -⟩ := List.nodup_append.mp h.holds.nodup
    have apart := (List.nodup_append.mp owned).2.2
    exact absurd rfl (apart _ (List.mem_map_of_mem hpad) _ (List.mem_flatMap.mpr ⟨p, hp, made⟩))

theorem sources_nodup (h : Ledger host pads b ps ds) :
    (b.connections.map (·.source)).Nodup := by
  obtain ⟨reach, noWire⟩ := h.reach_nodup
  obtain ⟨each, apart⟩ := List.nodup_flatMap.mp reach
  have exposed : (ps.flatMap (·.exposed)).Nodup := by
    refine List.nodup_flatMap.mpr ⟨fun p hp => ?_, apart.imp_of_mem fun hp hq disjoint => ?_⟩
    · exact (h.fits p hp).exposed_nodup (List.nodup_cons.mp (each p hp)).2
    · exact fun id hid hid' =>
        disjoint ((h.fits _ hp).exposed_subset hid) ((h.fits _ hq).exposed_subset hid')
  have wiresOnce : (wires b.host.domains).Nodup := (List.nodup_append.mp h.holds.nodup).2.1
  have declared : (wires ds).Nodup := by
    have dsOnce : ds.Nodup := by
      have names := h.domainsOnce
      rw [← h.domains] at names
      exact names.of_map
    obtain ⟨sub, perm, sublist⟩ := dsOnce.subperm h.declared
    exact (perm.flatMap_right _).nodup_iff.mp ((sublist.flatMap _).nodup wiresOnce)
  refine h.sources.nodup_iff.mpr (List.nodup_append.mpr ⟨exposed, declared, ?_⟩)
  rintro id hid _ wire rfl
  obtain ⟨p, hp, hexposed⟩ := List.mem_flatMap.mp hid
  obtain ⟨d, hd, hwire⟩ := List.mem_flatMap.mp wire
  exact noWire id (List.mem_flatMap.mpr ⟨p, hp, (h.fits p hp).exposed_subset hexposed⟩)
    (List.mem_flatMap.mpr ⟨d, h.declared hd, hwire⟩)

/-- A pad that no placement is for is in no primitive and behind no connection. -/
theorem untouched (h : Ledger host pads b ps ds) (sound : host.Sound) {pad : Pad}
    (hpad : pad ∈ pads) {qs : List Placement} (part : qs ⊆ ps)
    (others : ∀ p ∈ qs, p.pad ≠ pad.signal) :
    (∀ q ∈ host.primitives ++ qs.flatMap (·.primitives), pad.signal ∉ q.terminals) ∧
      pad.signal ∉ qs.flatMap (·.exposed) ++ wires ds := by
  have signal : pad.signal ∈ pads.map (·.signal) := List.mem_map_of_mem hpad
  refine ⟨List.forall_mem_append.mpr ⟨fun q hq touched => ?_, fun q hq touched => ?_⟩, ?_⟩
  · have old := sound.terminals q hq _ touched
    rw [h.new _ (List.mem_append_left _ signal)] at old
    cases old
  · obtain ⟨p, hp, hq⟩ := List.mem_flatMap.mp hq
    have reach := (h.fits p (part hp)).terminals_subset (List.mem_flatMap.mpr ⟨q, hq, touched⟩)
    exact others p hp (h.reached hpad (part hp) reach)
  · intro source
    rcases List.mem_append.mp source with exposed | wire
    · obtain ⟨p, hp, hexposed⟩ := List.mem_flatMap.mp exposed
      exact others p hp (h.reached hpad (part hp) ((h.fits p (part hp)).exposed_subset hexposed))
    · obtain ⟨d, hd, hwire⟩ := List.mem_flatMap.mp wire
      have apart := (List.nodup_append.mp h.holds.nodup).2.2
      exact apart _ (List.mem_append_left _ signal) _
        (List.mem_flatMap.mpr ⟨d, h.declared hd, hwire⟩) rfl

end Ledger

/-- The signal is wired to nothing, to the pad side of one primitive, or to one
connection. -/
inductive WiredOnce (primitives : List Primitive) (sources : List SignalId) (id : SignalId) : Prop
  | untouched : (∀ q ∈ primitives, id ∉ q.terminals) → id ∉ sources →
    WiredOnce primitives sources id
  | primitive (before : List Primitive) (p : Primitive) (after : List Primitive) :
    primitives = before ++ p :: after → p.padSide? = some id → p.terminals.count id = 1 →
    (∀ q ∈ before ++ after, id ∉ q.terminals) → id ∉ sources → WiredOnce primitives sources id
  | connection : sources.count id = 1 → (∀ q ∈ primitives, id ∉ q.terminals) →
    WiredOnce primitives sources id

theorem Ledger.wiredOnce {host : Host.Netlist} {pads : List Pad} {b : Bridge}
    {ps : List Placement} {ds : Table String Host.Domain} (h : Ledger host pads b ps ds)
    (sound : host.Sound) {pad : Pad} (hpad : pad ∈ pads) :
    WiredOnce b.host.primitives (b.connections.map (·.source)) pad.signal := by
  rw [h.primitives]
  by_cases placed : ∃ p ∈ ps, p.pad = pad.signal
  · obtain ⟨p, hp, same⟩ := placed
    obtain ⟨before, after, rfl⟩ := List.append_of_mem hp
    have others : ∀ q ∈ before ++ after, q.pad ≠ pad.signal := by
      have once := h.once
      rw [List.map_append, List.map_cons, ← same] at *
      grind
    have part : before ++ after ⊆ before ++ p :: after := by grind
    obtain ⟨primitives, sources⟩ := h.untouched sound hpad part others
    have new : p.pad ∉ p.made := by
      have each := (List.nodup_flatMap.mp h.reach_nodup.1).1 p hp
      exact (List.nodup_cons.mp each).1
    rcases (h.fits p hp).pad_wired new with none | ⟨q, rest, hq, side, count, free, hidden⟩
    · have free : ∀ q ∈ host.primitives ++ (before ++ p :: after).flatMap (·.primitives),
          pad.signal ∉ q.terminals := by
        rw [List.flatMap_append, List.flatMap_cons, none, List.nil_append, ← List.flatMap_append]
        exact primitives
      by_cases source : pad.signal ∈ b.connections.map (·.source)
      · exact .connection (List.count_eq_one_of_mem h.sources_nodup source) free
      · exact .untouched free source
    · rw [same] at side count free hidden
      refine .primitive (host.primitives ++ before.flatMap (·.primitives)) q
        (rest ++ after.flatMap (·.primitives)) (by simp [hq]) side count ?_ ?_
      · rw [List.flatMap_append] at primitives
        grind
      · rw [h.sources.mem_iff]
        rw [List.flatMap_append] at sources
        simp only [List.flatMap_append, List.flatMap_cons]
        grind
  · have others : ∀ p ∈ ps, p.pad ≠ pad.signal := fun p hp same => placed ⟨p, hp, same⟩
    obtain ⟨primitives, sources⟩ := h.untouched sound hpad (List.Subset.refl ps) others
    exact .untouched primitives (mt h.sources.mem_iff.mp sources)

section Steps

variable {host : Host.Netlist} {pads : List Pad} {b b' : Bridge}

/-- Some ledger describes the bridge. -/
def Accounted (host : Host.Netlist) (pads : List Pad) (b : Bridge) : Prop :=
  ∃ ps ds, Ledger host pads b ps ds

namespace Accounted

theorem adaptEach (h : Accounted host pads b) {ls : List LeafRequest} (part : ls.map (·.pad) ⊆ pads)
    {cs : List Capability} (run : LeafRequest.adaptEach ls b = .ok cs b') :
    Accounted host pads b' := by
  induction ls generalizing b cs with
  | nil =>
    obtain ⟨-, rfl⟩ := EStateM.Result.ok.inj run
    exact h
  | cons l rest ih =>
    obtain ⟨c, b₁, first, later⟩ := bind_eq_ok.mp run
    obtain ⟨cs', b₂, others, last⟩ := bind_eq_ok.mp later
    obtain ⟨-, rfl⟩ := EStateM.Result.ok.inj last
    obtain ⟨hpad, partRest⟩ := List.cons_subset.mp part
    obtain ⟨ps, ds, ledger⟩ := h
    obtain ⟨name, hs⟩ := ledger.stands l.pad hpad
    refine ih ?_ partRest others
    rcases LeafRequest.adapt_places ledger.collecting hs first with rfl | ⟨p, same, places⟩
    · exact ⟨ps, ds, ledger⟩
    · exact ⟨ps ++ [p], ds, ledger.place places (same ▸ List.mem_map_of_mem hpad)⟩

mutual

/-- A request reaches the leaves of its pads. -/
theorem pads_ofPad (name : String) (direction : Option DirectionSpec) (rate : Option RateSpec) :
    ∀ tree : PadTree, (LeafRequest.ofPad name direction rate tree).map (·.pad) = tree.leaves
  | .leaf _ => rfl
  | .group fields => pads_ofFields name direction rate fields

theorem pads_ofFields (name : String) (direction : Option DirectionSpec) (rate : Option RateSpec) :
    ∀ fields : List (String × PadTree),
      (LeafRequest.ofFields name direction rate fields).map (·.pad) = FieldTree.fieldLeaves fields
  | [] => rfl
  | (field, tree) :: rest => by
    rw [LeafRequest.ofFields, List.map_append, pads_ofPad _ _ _ tree, pads_ofFields name direction
      rate rest, FieldTree.fieldLeaves]

end

/-- An adaptation of pads that were handed out, failed or not. -/
theorem adapt (h : Accounted host pads b) (name : String) (direction : Option DirectionSpec)
    (rate : Option RateSpec) {tree : PadTree} (part : tree.leaves ⊆ pads) :
    Accounted host pads (after (Bridge.adapt name direction rate tree) b) := by
  obtain ⟨ps, ds, ledger⟩ := h
  have stops := adapt_stops name direction rate tree ledger.collecting
  rw [← pads_ofPad name direction rate tree] at part
  rw [after]
  cases run : Bridge.adapt name direction rate tree b with
  | ok c b' =>
    rw [run] at stops
    obtain ⟨cs, each⟩ := stops
    exact adaptEach ⟨ps, ds, ledger⟩ part each
  | error e b' =>
    rw [run] at stops
    obtain ⟨done, rest, cs, b₁, leaves, each, left⟩ := stops
    rw [leaves, List.map_append] at part
    have accounted := adaptEach ⟨ps, ds, ledger⟩ (List.append_subset.mp part).1 each
    rcases left with rfl | ⟨l, more, rfl, rfl | ⟨-, _, _, -, s, _, hs, narrow, -⟩⟩
    · exact accounted
    · exact accounted
    -- The platform declares its pads as wide as it makes their signals.
    · obtain ⟨ps, ds, ledger⟩ := accounted
      obtain ⟨name, stands⟩ := ledger.stands l.pad (by grind)
      obtain rfl := Option.some.inj (hs.symm.trans stands)
      exact absurd rfl narrow

theorem declareDomain (h : Accounted host pads b) (name : String) :
    Accounted host pads (after (Bridge.declareDomain name) b) := by
  obtain ⟨ps, ds, ledger⟩ := h
  rcases declareDomain_declares name ledger.collecting with ⟨e, failed⟩ | ⟨b', domain, done, declares⟩
  · rw [after, failed]
    exact ⟨ps, ds, ledger⟩
  · rw [after, done]
    exact ⟨ps, _, ledger.declare declares⟩

end Accounted

end Steps

end Bridge

namespace Platform

/-- The pads that have been handed out. -/
def pads (p : Platform) : List Pad := p.allocated.flatMap (·.2.leaves)

end Platform

namespace Build

open Bridge (Accounted Ledger Placement WiredOnce)

variable {σ : Type}

/-- A request for pads, or for a clock domain. -/
inductive Demand where
  | request (name : String) (index : Option Nat) (direction : Option DirectionSpec)
      (rate : Option RateSpec)
  | declareDomain (name : String)

/-- The build that a demand leaves behind, failed or not. -/
def Demand.apply : Demand → Build σ → Build σ
  | request name index direction rate, s => stateAfter (Build.request name index direction rate) s
  | declareDomain name, s => stateAfter (onBridge (Bridge.declareDomain name)) s

def serve (demands : List Demand) (s : Build σ) : Build σ :=
  demands.foldl (fun s d => d.apply s) s

/-- Each resource has been handed out at most once, and a ledger describes the bridge. -/
structure Tracked (host : Host.Netlist) (s : Build σ) : Prop where
  keys : s.platform.allocated.keys.Nodup
  accounted : Accounted host s.platform.pads s.bridge

theorem Tracked.request {host : Host.Netlist} {s : Build σ} (h : Tracked host s) (name : String)
    (index : Option Nat) (direction : Option DirectionSpec) (rate : Option RateSpec) :
    Tracked host (stateAfter (Build.request name index direction rate) s) := by
  rcases request_cases name index direction rate s with same | ⟨pads, platform, host', granted, result⟩
  · rw [same]
    exact h
  · rw [result]
    rcases Platform.request_ok granted with ⟨earlier, rfl, rfl⟩ | ⟨new, rfl, out, signals, rfl⟩
    · refine ⟨h.keys, h.accounted.adapt _ _ _ fun pad hpad => ?_⟩
      exact List.mem_flatMap.mpr ⟨_, Table.mem_of_get? earlier, hpad⟩
    · obtain ⟨ps, ds, ledger⟩ := h.accounted
      have grown : (s.platform.allocated ++ [((name, index), pads)]).flatMap (·.2.leaves) =
          s.platform.pads ++ pads.leaves := by simp [Platform.pads]
      refine ⟨?_, Accounted.adapt ?_ _ _ _ ?_⟩
      · change (Table.keys (s.platform.allocated ++ [((name, index), pads)])).Nodup
        rw [← Table.set_of_notMem (Table.get?_eq_none_iff.mp new)]
        exact Table.nodup_keys_set h.keys _ _
      · rw [Platform.pads, grown]
        exact ⟨ps, ds, ledger.hand_out out⟩
      · rw [Platform.pads, grown]
        exact List.subset_append_right _ _

theorem Tracked.apply {host : Host.Netlist} {s : Build σ} (h : Tracked host s) (d : Demand) :
    Tracked host (d.apply s) := by
  cases d with
  | request name index direction rate => exact h.request name index direction rate
  | declareDomain name =>
    rw [Demand.apply, stateAfter_onBridge]
    exact ⟨h.keys, h.accounted.declareDomain name⟩

theorem Tracked.serve {host : Host.Netlist} {s : Build σ} (h : Tracked host s)
    (demands : List Demand) : Tracked host (serve demands s) := by
  induction demands generalizing s with
  | nil => exact h
  | cons d rest ih => exact ih (h.apply d)

/-- How the pads of a build are wired that started with this host. -/
structure Wired (host : Host.Netlist) (s : Build σ) : Prop where
  /-- Each resource has been handed out at most once, and each pad has a signal of its own. -/
  handedOut : s.platform.allocated.keys.Nodup ∧ (s.platform.pads.map (·.signal)).Nodup
  pads : ∀ pad ∈ s.platform.pads,
    WiredOnce s.bridge.host.primitives (s.bridge.connections.map (·.source)) pad.signal
  sources : (s.bridge.connections.map (·.source)).Nodup
  targets : (s.bridge.connections.map (·.target)).Nodup
  /-- The primitives are what the mode of each adapted pad prescribes, pad by pad. -/
  primitives : ∃ ps : List Placement,
    s.bridge.pads.map (fun q => (q.1, q.2.direction, q.2.rate)) =
      ps.map (fun p => (p.pad, p.direction, p.rate)) ∧
    s.bridge.pads.keys.Nodup ∧ s.bridge.pads.keys ⊆ s.platform.pads.map (·.signal) ∧
    (∀ p ∈ ps, p.Fits s.bridge.host) ∧ (ps.flatMap (·.made)).Nodup ∧
    s.bridge.host.primitives = host.primitives ++ ps.flatMap (·.primitives)

theorem Tracked.wired {host : Host.Netlist} {s : Build σ} (h : Tracked host s)
    (sound : host.Sound) : Wired host s := by
  obtain ⟨ps, ds, ledger⟩ := h.accounted
  have owned := (List.nodup_append.mp ledger.holds.nodup).1
  exact {
    handedOut := ⟨h.keys, (List.nodup_append.mp owned).1⟩
    pads := fun pad hpad => ledger.wiredOnce sound hpad
    sources := ledger.sources_nodup
    targets := ledger.targets
    primitives := ⟨ps, ledger.cached, ledger.keys_pads ▸ ledger.once,
      ledger.keys_pads ▸ ledger.handedOut, ledger.fits, (List.nodup_append.mp owned).2.1,
      ledger.primitives⟩ }

/-- Whatever is demanded of a new bridge and a new platform, in whatever order and with
whatever success, no pad is wired twice. -/
theorem no_pad_is_wired_twice {host : Host.Netlist} (sound : host.Sound) (name : String)
    (board : Board) (storage : σ) (demands : List Demand) :
    Wired host (serve demands ⟨{ name, host }, { board }, storage⟩) := by
  have start : Tracked host (⟨{ name, host }, { board }, storage⟩ : Build σ) :=
    ⟨List.nodup_nil, [], [], .start sound name⟩
  exact (start.serve demands).wired sound

/-- A host with a register of its own. -/
def registerHost : Host.Netlist where
  name := "top"
  signals := ⟨#[⟨"d", .bit⟩, ⟨"q", .bit⟩, ⟨"clk", .bit⟩]⟩
  primitives := [.sdrInput ⟨0⟩ ⟨1⟩ ⟨2⟩]

def busBoard : Board where
  resources := [⟨"io", none, .mk (some 4) false []⟩,
    ⟨"bus", none, .mk none false [("cs", .mk (some 1) true []), ("d", .mk (some 8) false [])]⟩]

/-- The second request of the single resource repeats the first one and the third one is
a conflict. The bus fails in its second field, and both domains want the same guest domain. -/
def busDemands : List Demand :=
  [.declareDomain "sys", .request "io" none (some (.leaf .inout)) (some (.leaf 1)),
    .request "io" none (some (.leaf .inout)) (some (.leaf 1)),
    .request "io" none (some (.leaf .input)) none,
    .request "bus" none (some (.group [("cs", .leaf .output), ("d", .leaf .inout)])) (some (.leaf 2)),
    .declareDomain "sync"]

def busBuild : Build Disk :=
  serve busDemands ⟨{ name := "core", host := registerHost }, { board := busBoard }, {}⟩

theorem bus_pads_are_wired_once : registerHost.Sound ∧ busBuild.platform.pads.length = 3 ∧
    busBuild.bridge.pads.length = 2 ∧ busBuild.bridge.host.primitives.length = 5 ∧
    busBuild.bridge.connections.length = 10 ∧ Wired registerHost busBuild := by
  have sound : registerHost.Sound := ⟨by simp [registerHost, Primitive.terminals]; decide, .nil _⟩
  have wired : Wired registerHost busBuild :=
    no_pad_is_wired_twice sound "core" busBoard ({} : Disk) busDemands
  exact ⟨sound, by decide +kernel, by decide +kernel, by decide +kernel, by decide +kernel, wired⟩

end Build

end NetBridge
