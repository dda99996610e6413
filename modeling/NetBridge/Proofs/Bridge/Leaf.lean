import NetBridge.Proofs.Bridge.Operation
import NetBridge.Proofs.Bridge.Prescription
import NetBridge.Proofs.Capability.Signature
import NetBridge.Proofs.Guest.Built
import NetBridge.Proofs.Pad.Mode

/-! # Adapting a single pad

A pad that has not been adapted is equipped for its mode: it gets its host signals, and a
guest signal for each role. Its capability fails its own check only where the pad is declared
with another width than its host signal has. A capability is an empty one, or the one that
the pad has already, or a new one. -/
namespace NetBridge.Bridge

open Host (Pad SignalId)

/-- A later state of a bridge in the same phase, where signals may have been added. -/
structure Grown (b b' : Bridge) : Prop where
  phase : b'.phase = b.phase
  host : b.host.signals.Extends b'.host.signals
  guest : b.guest.signals.Extends b'.guest.signals

theorem Grown.refl (b : Bridge) : Grown b b := ⟨rfl, .refl _, .refl _⟩

theorem Grown.trans {a b c : Bridge} (hab : Grown a b) (hbc : Grown b c) : Grown a c :=
  ⟨hbc.phase.trans hab.phase, hab.host.trans hbc.host, hab.guest.trans hbc.guest⟩

theorem hostSignal_ok {b : Bridge} {id : Host.SignalId} {s : Host.Signal}
    (h : b.host.signal? id = some s) : hostSignal id b = .ok s b := by
  rw [hostSignal, bind_of_ok get_run, h]
  rfl

theorem hostSignal_error {b : Bridge} {id : Host.SignalId} (h : b.host.signal? id = none) :
    hostSignal id b = .error (.unallocated id.index) b := by
  rw [hostSignal, bind_of_ok get_run, h]
  rfl

theorem connect_ok {b : Bridge} {source : Host.SignalId} {target : Guest.Target} {invert : Bool}
    (collecting : b.phase = .collecting) : connect source target invert b =
      .ok () { b with connections := b.connections ++ [⟨source, target, invert⟩] } :=
  bind_of_ok (ensurePhase_ok collecting)

theorem importFromHost_ok {b : Bridge} {id : Host.SignalId} {s : Host.Signal} {name : String}
    {invert : Bool} (collecting : b.phase = .collecting) (h : b.host.signal? id = some s) :
    importFromHost id (some name) invert b = .ok b.guest.signals.nextKey { b with
      guest := (b.guest.addSignal name s.shape).2
      connections := b.connections ++ [⟨id, .signal b.guest.signals.nextKey, invert⟩] } := by
  rw [importFromHost, bind_of_ok (ensurePhase_ok collecting), bind_of_ok (hostSignal_ok h),
    bind_of_ok (modifyGet_run _)]
  exact bind_of_ok (connect_ok (b := { b with guest := (b.guest.addSignal name s.shape).2 })
    collecting)

/-- The guest has a signal for the role, under its name and with its shape. -/
def Imported (b : Bridge) (site : PadSite) (p : Role × Guest.SignalId) : Prop :=
  ∃ reset, b.guest.signals.get? p.2 =
    some ⟨s!"{site.name}_{p.1.text}", site.roleShape p.1, reset⟩

/-- A host signal of its shape is connected to the signal of the role. Data is inverted on
the way if the pad is. -/
def Connected (b : Bridge) (site : PadSite) (inverted : Bool) (p : Role × Guest.SignalId) :
    Prop :=
  ∃ id, b.host.Stands (site.roleShape p.1) id ∧
    ⟨id, .signal p.2, inverted && p.1.isData⟩ ∈ b.connections

theorem checkCapability_run (c : Capability) (b : Bridge) : checkCapability c b =
    match c.mismatch? b.guest with
    | some detail => .error (.signatureMismatch c.name detail) b
    | none => .ok () b := by
  rw [checkCapability, bind_of_ok get_run]
  cases c.mismatch? b.guest <;> rfl

/-- The guest signal that is made for a role. -/
def PadSite.guestSignal (s : PadSite) (r : Role) : Guest.Signal :=
  ⟨s!"{s.name}_{r.text}", s.roleShape r, 0⟩

/-- The guest signals that roles are given next. -/
def roleSignals (b : Bridge) (roles : List Role) : Table Role Guest.SignalId :=
  roles.zip (b.guest.signals.nextKeys roles.length)

/-- The connections from host signals to the guest signals of roles. -/
def roleConnections (inverted : Bool) (signals : Table Role Guest.SignalId)
    (sources : List SignalId) : List Connection :=
  (signals.zip sources).map fun p => ⟨p.2, .signal p.1.2, inverted && p.1.1.isData⟩

theorem keys_roleSignals (b : Bridge) (roles : List Role) : (b.roleSignals roles).keys = roles :=
  List.map_fst_zip (by simp)

theorem values_roleSignals (b : Bridge) (roles : List Role) :
    (b.roleSignals roles).values = b.guest.signals.nextKeys roles.length :=
  List.map_snd_zip (by simp)

/-- The source of a role is the host signal that is exposed for it. -/
theorem mem_roleConnections (inverted : Bool) {logical : List (Role × SignalId)}
    {signals : Table Role Guest.SignalId} {exposed : List SignalId}
    (found : signals.keys.map (Table.get? logical) = exposed.map some)
    {p : Role × Guest.SignalId} (hp : p ∈ signals) :
    ∃ id, Table.get? logical p.1 = some id ∧
      ⟨id, .signal p.2, inverted && p.1.isData⟩ ∈ roleConnections inverted signals exposed := by
  induction signals generalizing exposed with
  | nil => cases hp
  | cons q rest ih =>
    cases exposed with
    | nil => cases found
    | cons id exposed =>
      obtain ⟨hid, hrest⟩ := List.cons.inj found
      rcases List.mem_cons.mp hp with rfl | hp
      · exact ⟨id, hid, List.mem_cons_self⟩
      · exact (ih hrest hp).imp fun _ h => ⟨h.1, List.mem_cons_of_mem _ h.2⟩

/-- Where each role has its host signal, the import succeeds and adds one signal and one
connection for each role. -/
theorem importRoles_run {b : Bridge} {site : PadSite} (inverted : Bool)
    {logical : List (Role × SignalId)} {roles : List Role} {exposed : List SignalId}
    (collecting : b.phase = .collecting)
    (found : roles.map (Table.get? logical) = exposed.map some)
    (supplied : site.Supplies roles b.host logical) :
    importRoles site.name inverted logical roles b = .ok (b.roleSignals roles) { b with
      guest := { b.guest with signals := b.guest.signals.append (roles.map site.guestSignal) }
      connections := b.connections ++
        roleConnections inverted (b.roleSignals roles) exposed } := by
  induction roles generalizing b exposed with
  | nil => simp [importRoles, roleSignals, roleConnections, pure_run]
  | cons r rest ih =>
    cases exposed with
    | nil => cases found
    | cons id exposed =>
      obtain ⟨hid, hrest⟩ := List.cons.inj found
      obtain ⟨⟨id', hid', name, hs⟩, others⟩ := PadSite.supplies_cons.mp supplied
      obtain rfl := Option.some.inj (hid.symm.trans hid')
      let b₁ : Bridge := { b with
        guest := { b.guest with signals := b.guest.signals.push (site.guestSignal r) }
        connections := b.connections ++
          [⟨id, .signal b.guest.signals.nextKey, inverted && r.isData⟩] }
      have imported : importFromHost id (some s!"{site.name}_{r.text}") (inverted && r.isData) b =
          .ok b.guest.signals.nextKey b₁ := by
        rw [importFromHost_ok collecting hs, Guest.Netlist.addSignal, Guest.Built.truncate_zero]
        rfl
      have signals : b.roleSignals (r :: rest) =
          (r, b.guest.signals.nextKey) :: b₁.roleSignals rest := by
        rw [roleSignals, List.length_cons, Arena.nextKeys_succ _ (site.guestSignal r)]
        rfl
      simp only [importRoles, hid]
      rw [bind_of_ok imported, bind_of_ok (ih (b := b₁) collecting hrest others), signals,
        List.map_cons, Arena.append_cons]
      simp [b₁, roleConnections, pure_run]

/-- The second bridge is the first one where a pad has been equipped for a mode: on the host
everything is made that the mode prescribes, and for each role the guest has one signal more,
connected to the host signal that is exposed for the role. Data is inverted on the way if the
pad is. Nothing has been kept for the pad. -/
structure Equips (site : PadSite) (inverted : Bool) (direction : Direction) (rate : Nat)
    (roles : List Role) (b b' : Bridge) : Prop where
  made : ∃ logical made exposed prims,
    site.Synthesized direction rate b.host logical made exposed prims b'.host ∧
      b'.connections = b.connections ++ roleConnections inverted (b.roleSignals roles) exposed
  guest : b'.guest =
    { b.guest with signals := b.guest.signals.append (roles.map site.guestSignal) }
  rest : b' = { b with host := b'.host, guest := b'.guest, connections := b'.connections }

namespace Equips

variable {site : PadSite} {inverted : Bool} {direction : Direction} {rate : Nat}
  {roles : List Role} {b b' : Bridge}

theorem pads (h : Equips site inverted direction rate roles b b') : b'.pads = b.pads := by
  rw [h.rest]

theorem grown (h : Equips site inverted direction rate roles b b') : Grown b b' where
  phase := by rw [h.rest]
  host := by
    obtain ⟨_, _, _, _, synthesized, -⟩ := h.made
    exact synthesized.makes.adds.grown
  guest := by
    rw [h.guest]
    exact (Arena.Adds.appended _ _).grown

theorem imported (h : Equips site inverted direction rate roles b b') :
    ∀ p ∈ b.roleSignals roles, Imported b' site p := by
  intro p hp
  refine ⟨0, ?_⟩
  rw [h.guest]
  refine Arena.get?_of_mem_zip (p := (site.guestSignal p.1, p.2)) ?_
  rw [List.length_map, List.zip_map_left]
  exact List.mem_map.mpr ⟨p, hp, rfl⟩

theorem connected (h : Equips site inverted direction rate roles b b')
    (known : modeRoles? direction rate = some roles)
    (stands : b.host.Stands site.shape site.pad) :
    ∀ p ∈ b.roleSignals roles, Connected b' site inverted p := by
  intro p hp
  obtain ⟨logical, made, exposed, prims, synthesized, connections⟩ := h.made
  have run := synthesized.makes.run
  obtain ⟨extended, supplied⟩ := PadSite.synthesize_yields known b.host b'.host (by
    rw [run]
    exact .refl _)
  rw [run] at supplied
  have hr : p.1 ∈ roles := by
    have hkey : p.1 ∈ (b.roleSignals roles).keys := List.mem_map_of_mem hp
    rwa [keys_roleSignals] at hkey
  have found : (b.roleSignals roles).keys.map (Table.get? logical) = exposed.map some := by
    rw [keys_roleSignals]
    exact synthesized.found roles known
  obtain ⟨id, hid, connection⟩ := mem_roleConnections inverted found hp
  obtain ⟨id', hid', stood⟩ := supplied (stands.extends synthesized.makes.adds.grown) p.1 hr
  obtain rfl := Option.some.inj (hid.symm.trans hid')
  refine ⟨id, stood, ?_⟩
  rw [connections]
  exact List.mem_append_right _ connection

end Equips

section Fresh

variable (name : String) {pad : Pad} {direction : Direction} {rate : Nat} {roles : List Role}
  {b : Bridge} {s : Host.Signal}

theorem keys_inRoleOrder (signals : Table Role Guest.SignalId) :
    (inRoleOrder signals).keys = Role.all.filter (· ∈ signals.keys) :=
  Table.keys_filterMap Role.all signals

theorem mem_inRoleOrder {signals : Table Role Guest.SignalId} {p : Role × Guest.SignalId}
    (h : p ∈ inRoleOrder signals) : p ∈ signals := by
  obtain ⟨r, -, hr⟩ := List.mem_filterMap.mp h
  obtain ⟨id, hid, rfl⟩ := Option.map_eq_some_iff.mp hr
  exact Table.mem_of_get? hid

/-- Where a pad is declared with the width of its host signal, its capability matches its
signature. -/
theorem Equips.matched {inverted : Bool} {b' : Bridge} {width : Nat}
    (h : Equips ⟨name, pad.signal, s.shape⟩ inverted direction rate roles b b')
    (known : modeRoles? direction rate = some roles) (same : width = s.shape.width) :
    (Capability.leaf name (.ofRoles roles ⟨width, s.shape.signed⟩)
      (inRoleOrder (b.roleSignals roles))).mismatch? b'.guest = none := by
  refine Capability.mismatch?_leaf (modeRoles?_nodup known) ?_ (fun r => ?_) fun p hp => ?_
  · rw [keys_inRoleOrder]
    exact Role.nodup_all.filter _
  · simp [keys_inRoleOrder, keys_roleSignals, Role.mem_all]
  · obtain ⟨reset, hget⟩ := h.imported p (mem_inRoleOrder hp)
    simp [Guest.Netlist.shapeOf, Guest.Netlist.signal?, hget, PadSite.roleShape, same]

/-- A pad without a host signal is not adapted. -/
theorem adaptFresh_unallocated (h : b.host.signal? pad.signal = none) :
    adaptFresh name pad direction rate roles b = .error (.unallocated pad.signal.index) b := by
  rw [adaptFresh, bind_of_error (hostSignal_error h)]

/-- A fresh pad is equipped for its mode. Then its capability is kept, if it matches its
signature. -/
theorem adaptFresh_equips (collecting : b.phase = .collecting)
    (known : modeRoles? direction rate = some roles) (hs : b.host.signal? pad.signal = some s) :
    ∃ b', Equips ⟨name, pad.signal, s.shape⟩ pad.inverted direction rate roles b b' ∧
      let capability := Capability.leaf name (.ofRoles roles ⟨pad.width, s.shape.signed⟩)
        (inRoleOrder (b.roleSignals roles))
      adaptFresh name pad direction rate roles b =
        match capability.mismatch? b'.guest with
        | some detail => .error (.signatureMismatch name detail) b'
        | none => .ok capability
            { b' with pads := b'.pads ++ [(pad.signal, ⟨direction, rate, capability⟩)] } := by
  let site : PadSite := ⟨name, pad.signal, s.shape⟩
  obtain ⟨logical, made, exposed, prims, host, synthesized⟩ :=
    site.synthesize_makes direction rate b.host
  have run := synthesized.makes.run
  have supplied : site.Supplies roles host logical := by
    obtain ⟨-, supplied⟩ := PadSite.synthesize_yields (s := site) known b.host host (by
      rw [run]
      exact .refl _)
    rw [run] at supplied
    exact supplied ⟨s.name, synthesized.makes.adds.grown hs⟩
  have imported := importRoles_run (b := { b with host }) pad.inverted collecting
    (synthesized.found roles known) supplied
  have equipped : onHost (site.synthesize direction rate).run b = .ok logical { b with host } := by
    rw [onHost_run, run]
  let b' : Bridge := { b with
    host
    guest := { b.guest with signals := b.guest.signals.append (roles.map site.guestSignal) }
    connections := b.connections ++ roleConnections pad.inverted (b.roleSignals roles) exposed }
  refine ⟨b', ⟨⟨logical, made, exposed, prims, synthesized, rfl⟩, rfl, rfl⟩, ?_⟩
  intro capability
  rw [adaptFresh, bind_of_ok (hostSignal_ok hs), bind_of_ok equipped]
  refine (bind_of_ok imported).trans ?_
  have checked := checkCapability_run capability b'
  cases h : capability.mismatch? b'.guest with
  | none =>
    rw [h] at checked
    exact bind_of_ok checked
  | some detail =>
    rw [h] at checked
    exact bind_of_error checked

/-- What becomes of a fresh pad: its roles are imported, and then the capability is kept
if it matches its signature, as it does where the widths agree. -/
theorem adaptFresh_run (collecting : b.phase = .collecting)
    (known : modeRoles? direction rate = some roles) (hs : b.host.signal? pad.signal = some s) :
    ∃ (signals : Table Role Guest.SignalId) (b' : Bridge), signals.keys = roles ∧
      (∀ p ∈ signals, Imported b' ⟨name, pad.signal, s.shape⟩ p) ∧
      (∀ p ∈ signals, Connected b' ⟨name, pad.signal, s.shape⟩ pad.inverted p) ∧ Grown b b' ∧
      b'.pads = b.pads ∧
      (let capability := Capability.leaf name (.ofRoles roles ⟨pad.width, s.shape.signed⟩)
        (inRoleOrder signals)
      (pad.width = s.shape.width → capability.mismatch? b'.guest = none) ∧
      adaptFresh name pad direction rate roles b =
        match capability.mismatch? b'.guest with
        | some detail => .error (.signatureMismatch name detail) b'
        | none => .ok capability
            { b' with pads := b'.pads ++ [(pad.signal, ⟨direction, rate, capability⟩)] }) := by
  obtain ⟨b', equips, hrun⟩ := adaptFresh_equips name collecting known hs
  exact ⟨b.roleSignals roles, b', keys_roleSignals b roles, equips.imported,
    equips.connected known ⟨s.name, hs⟩, equips.grown, equips.pads, equips.matched name known, hrun⟩

/-- A new capability has a signal for each role of its mode, has passed its own check, and is
kept for the pad. -/
theorem adaptFresh_eq_ok {name : String} {b' : Bridge} {c : Capability}
    (collecting : b.phase = .collecting) (hroles : modeRoles? direction rate = some roles)
    (h : adaptFresh name pad direction rate roles b = .ok c b') :
    ∃ s signals, b.host.signal? pad.signal = some s ∧
      c = .leaf name (.ofRoles roles ⟨pad.width, s.shape.signed⟩) signals ∧
      signals.keys = Role.all.filter (· ∈ roles) ∧
      (∀ p ∈ signals, Imported b' ⟨name, pad.signal, s.shape⟩ p) ∧
      c.mismatch? b'.guest = none ∧ Grown b b' ∧
      b'.pads = b.pads ++ [(pad.signal, ⟨direction, rate, c⟩)] := by
  cases hs : b.host.signal? pad.signal with
  | none => cases (adaptFresh_unallocated name hs).symm.trans h
  | some s =>
    obtain ⟨signals, b₁, hkeys, imported, -, grown, hpads, -, hrun⟩ :=
      adaptFresh_run name collecting hroles hs
    rw [hrun] at h
    split at h
    · cases h
    · rename_i matched
      obtain ⟨rfl, rfl⟩ := EStateM.Result.ok.inj h
      refine ⟨s, inRoleOrder signals, rfl, rfl, by rw [keys_inRoleOrder, hkeys],
        fun p hp => imported p (mem_inRoleOrder hp), matched,
        ⟨grown.phase, grown.host, grown.guest⟩, ?_⟩
      rw [hpads]

end Fresh

section Any

variable {name : String} {pad : Pad} {direction : Direction} {rate : Nat} {b : Bridge}

theorem adaptLeaf_unsupported {e : UnsupportedMode} (h : modeRoles direction rate = .error e) :
    adaptLeaf name pad direction rate b = .error (.unsupportedPad e) b := by
  simp [adaptLeaf, h]

theorem adaptLeaf_idle (h : modeRoles direction rate = .ok []) :
    adaptLeaf name pad direction rate b = .ok (.leaf name [] []) b := by
  simp [adaptLeaf, h]

theorem adaptLeaf_fresh {roles : List Role} (h : modeRoles direction rate = .ok roles)
    (exposing : roles ≠ []) (new : Table.get? b.pads pad.signal = none) :
    adaptLeaf name pad direction rate b = adaptFresh name pad direction rate roles b := by
  cases roles with
  | nil => exact absurd rfl exposing
  | cons r rest =>
    simp only [adaptLeaf, h]
    rw [bind_of_ok get_run, new]

theorem adaptLeaf_cached {roles : List Role} {done : AdaptedPad}
    (h : modeRoles direction rate = .ok roles) (exposing : roles ≠ [])
    (old : Table.get? b.pads pad.signal = some done) :
    adaptLeaf name pad direction rate b =
      if done.direction = direction ∧ done.rate = rate then .ok done.capability b
      else .error (.padConflict done.capability.name done.direction done.rate direction rate) b := by
  cases roles with
  | nil => exact absurd rfl exposing
  | cons r rest =>
    simp only [adaptLeaf, h]
    rw [bind_of_ok get_run, old]
    dsimp only
    split <;> rfl

/-- The capability of a leaf that is adapted is an empty one, or the one that its pad has been
given in the same mode before, or a new one. -/
inductive Adapts (name : String) (pad : Pad) (direction : Direction) (rate : Nat) (b : Bridge) :
    Capability → Bridge → Prop
  | idle : direction = .idle → modeRoles? direction rate = some [] →
    Adapts name pad direction rate b (.leaf name [] []) b
  | cached {roles : List Role} {c : Capability} : direction ≠ .idle →
    modeRoles? direction rate = some roles →
    Table.get? b.pads pad.signal = some ⟨direction, rate, c⟩ → Adapts name pad direction rate b c b
  | fresh {roles : List Role} {c : Capability} {b' : Bridge} : direction ≠ .idle →
    modeRoles? direction rate = some roles → Table.get? b.pads pad.signal = none →
    adaptFresh name pad direction rate roles b = .ok c b' → Adapts name pad direction rate b c b'

theorem adaptLeaf_adapts {b' : Bridge} {c : Capability}
    (h : adaptLeaf name pad direction rate b = .ok c b') :
    Adapts name pad direction rate b c b' := by
  cases hroles : modeRoles direction rate with
  | error e => cases (adaptLeaf_unsupported hroles).symm.trans h
  | ok roles =>
    have known := modeRoles?_of_ok hroles
    by_cases idle : roles = []
    · subst idle
      obtain ⟨rfl, rfl⟩ := EStateM.Result.ok.inj ((adaptLeaf_idle hroles).symm.trans h)
      exact .idle ((modeRoles?_nil_iff known).mp rfl) known
    have active := mt (modeRoles?_nil_iff known).mpr idle
    cases hpad : Table.get? b.pads pad.signal with
    | none =>
      rw [adaptLeaf_fresh hroles idle hpad] at h
      exact .fresh active known hpad h
    | some done =>
      rw [adaptLeaf_cached hroles idle hpad] at h
      split at h
      · rename_i same
        obtain ⟨rfl, rfl⟩ := EStateM.Result.ok.inj h
        obtain ⟨rfl, rfl⟩ := same
        exact .cached active known hpad
      · cases h

/-- A leaf that is to have signals is the one that its pad is kept with. -/
theorem Adapts.recorded {b' : Bridge} {c : Capability}
    (h : Adapts name pad direction rate b c b') (collecting : b.phase = .collecting)
    (active : direction ≠ .idle) :
    Table.get? b'.pads pad.signal = some ⟨direction, rate, c⟩ := by
  cases h with
  | idle idle => exact absurd idle active
  | cached _ _ old => exact old
  | fresh _ known new made =>
    obtain ⟨s, signals, -, -, -, -, -, -, hpads⟩ := adaptFresh_eq_ok collecting known made
    rw [hpads, Table.get?_append, new]
    simp [Table.get?]

end Any

end NetBridge.Bridge
