import NetBridge.Proofs.Bridge.Collision
import NetBridge.Proofs.Bridge.Placement

/-! # What operations do to a bridge

The operations of a bridge are made of a few changes: connections are made while it collects,
and the two netlists grow. A relation that holds of these changes holds of every bridge and the
one that an operation leaves behind, failed or not. -/
namespace NetBridge

namespace Host.Netlist

theorem instances_domain (m : Netlist) (name : String) : (m.domain name).2.instances = m.instances := by
  rw [domain]
  cases Table.get? m.domains name <;> rfl

theorem extends_domain (m : Netlist) (name : String) :
    m.signals.Extends (m.domain name).2.signals := by
  obtain ⟨signals, domains, made, result, adds, -⟩ := m.domain_adds name
  rw [result]
  exact adds.grown

end Host.Netlist

namespace Bridge

/-- The relation holds of the changes that operations are made of. -/
structure Admits (R : Bridge → Bridge → Prop) : Prop where
  refl (b : Bridge) : R b b
  trans {a b c : Bridge} : R a b → R b c → R a c
  connection (b : Bridge) (c : Connection) : b.phase = .collecting →
    R b { b with connections := b.connections ++ [c] }
  host (b : Bridge) {host : Host.Netlist} : b.host.signals.Extends host.signals →
    host.instances = b.host.instances → R b { b with host }
  guest (b : Bridge) {guest : Guest.Netlist} : b.guest.signals.Extends guest.signals →
    R b { b with guest }

/-- The relation holds of what is done for a pad that has not been adapted before. -/
def AdmitsFresh (R : Bridge → Bridge → Prop) : Prop :=
  ∀ (name : String) (pad : Host.Pad) (direction : Direction) (rate : Nat) (roles : List Role)
    (b : Bridge), b.phase = .collecting → modeRoles? direction rate = some roles →
    R b (after (adaptFresh name pad direction rate roles) b)

namespace Admits

variable {R : Bridge → Bridge → Prop} {α β : Type} {b : Bridge}

theorem of_same (h : Admits R) {x : BridgeM α} (same : after x b = b) : R b (after x b) := by
  rw [same]
  exact h.refl b

theorem bind (h : Admits R) {x : BridgeM α} {f : α → BridgeM β} (hx : R b (after x b))
    (hf : ∀ a c, x b = .ok a c → R c (after (f a) c)) : R b (after (x >>= f) b) := by
  cases hrun : x b with
  | ok a c =>
    rw [after, hrun] at hx
    rw [after, bind_of_ok hrun]
    exact h.trans hx (hf a c hrun)
  | error e c =>
    rw [after, hrun] at hx
    rwa [after, bind_of_error hrun]

theorem get (h : Admits R) {f : Bridge → BridgeM β} (rest : R b (after (f b) b)) :
    R b (after (get >>= f) b) :=
  h.bind (h.refl b) fun _ _ hrun => by
    obtain ⟨rfl, rfl⟩ := EStateM.Result.ok.inj hrun
    exact rest

theorem ensurePhase (h : Admits R) {f : Unit → BridgeM β} {expected : Phase} {operation : Operation}
    (rest : b.phase = expected → R b (after (f ()) b)) :
    R b (after (Bridge.ensurePhase expected operation >>= f) b) := by
  by_cases hp : b.phase = expected
  · rw [after, bind_of_ok (ensurePhase_ok hp)]
    exact rest hp
  · exact h.of_same (by rw [after, bind_of_error (ensurePhase_error hp)])

theorem ofGuest (h : Admits R) {f : α → BridgeM β} {r : Except Guest.Error α}
    (rest : ∀ a, r = .ok a → R b (after (f a) b)) : R b (after (Bridge.ofGuest r >>= f) b) := by
  cases r with
  | ok a => exact rest a rfl
  | error e => exact h.refl b

theorem hostSignal (h : Admits R) {f : Host.Signal → BridgeM β} {id : Host.SignalId}
    (rest : ∀ s, b.host.signal? id = some s → R b (after (f s) b)) :
    R b (after (Bridge.hostSignal id >>= f) b) := by
  cases hs : b.host.signal? id with
  | none => exact h.of_same (by rw [after, bind_of_error (hostSignal_error hs)])
  | some s =>
    rw [after, bind_of_ok (hostSignal_ok hs)]
    exact rest s hs

theorem onHost (h : Admits R) {change : Host.Netlist → α × Host.Netlist}
    (grown : b.host.signals.Extends (change b.host).2.signals)
    (instances : (change b.host).2.instances = b.host.instances) :
    R b (after (Bridge.onHost change) b) :=
  h.host b grown instances

theorem addHostSignal (h : Admits R) (name : String) (shape : Shape) :
    R b (after (Bridge.onHost (·.addSignal name shape)) b) :=
  h.onHost (Arena.Extends.push _ _) rfl

theorem connect (h : Admits R) (source : Host.SignalId) (target : Guest.Target) (invert : Bool) :
    R b (after (Bridge.connect source target invert) b) :=
  h.ensurePhase fun collecting => h.connection b _ collecting

theorem declareDomain (h : Admits R) (name : String) : R b (after (Bridge.declareDomain name) b) := by
  refine h.ensurePhase fun _ => h.get (h.ofGuest fun made added => ?_)
  obtain ⟨-, -, -, signals⟩ := Guest.Built.addDomain_ok added
  refine h.bind (h.guest b ?_) fun _ _ _ => h.bind ?_ fun _ _ _ =>
    h.bind (h.connect ..) fun _ _ _ => h.connect ..
  · rw [signals]
    exact (Arena.Extends.push _ _).trans (.push _ _)
  · exact h.onHost (Host.Netlist.extends_domain _ name) (Host.Netlist.instances_domain _ name)

theorem importFromGuest (h : Admits R) (id : Guest.SignalId) (invert : Bool) :
    R b (after (Bridge.importFromGuest id invert) b) :=
  h.ensurePhase fun _ => h.get <| h.ofGuest fun _ _ => h.bind (h.addHostSignal ..) fun _ _ _ =>
    h.bind (h.connect ..) fun _ c _ => h.refl c

theorem importFromHost (h : Admits R) (id : Host.SignalId) (name : Option String) (invert : Bool) :
    R b (after (Bridge.importFromHost id name invert) b) :=
  h.ensurePhase fun _ => h.hostSignal fun _ _ =>
    h.bind (h.guest b (Arena.Extends.push _ _)) fun _ _ _ =>
    h.bind (h.connect ..) fun _ c _ => h.refl c

theorem importRoles (h : Admits R) (name : String) (inverted : Bool)
    (logical : List (Role × Host.SignalId)) (roles : List Role) :
    R b (after (Bridge.importRoles name inverted logical roles) b) := by
  induction roles generalizing b with
  | nil => exact h.refl b
  | cons role rest ih =>
    rw [Bridge.importRoles]
    cases Table.get? logical role with
    | none => exact h.refl b
    | some id => exact h.bind (h.importFromHost ..) fun _ _ _ => h.bind ih fun _ c _ => h.refl c

theorem checkCapability (h : Admits R) (c : Capability) :
    R b (after (Bridge.checkCapability c) b) := by
  refine h.of_same ?_
  rw [after, checkCapability_run]
  cases c.mismatch? b.guest <;> rfl

theorem synthesize (h : Admits R) (site : PadSite) (direction : Direction) (rate : Nat) :
    R b (after (Bridge.onHost (site.synthesize direction rate).run) b) := by
  obtain ⟨logical, made, exposed, prims, host, synthesized⟩ :=
    site.synthesize_makes direction rate b.host
  refine h.onHost ?_ ?_
  · rw [synthesized.makes.run]
    exact synthesized.makes.adds.grown
  · rw [synthesized.makes.run, synthesized.makes.rest]
    simp [Host.Netlist.instances, synthesized.prescribed.no_instances]

/-- A pad that is adapted is one more change. -/
theorem adaptFresh (h : Admits R) (keep : ∀ b p, R b { b with pads := b.pads ++ [p] }) :
    AdmitsFresh R := fun _ _ _ _ _ _ _ _ =>
  h.hostSignal fun _ _ => h.bind (h.synthesize ..) fun _ _ _ => h.bind (h.importRoles ..) fun _ _ _ =>
    h.bind (h.checkCapability _) fun _ c _ => h.bind (keep c _) fun _ d _ => h.refl d

theorem adaptLeaf (h : Admits R) (fresh : AdmitsFresh R) (name : String) (pad : Host.Pad)
    (direction : Direction) (rate : Nat) (collecting : b.phase = .collecting) :
    R b (after (Bridge.adaptLeaf name pad direction rate) b) := by
  rw [Bridge.adaptLeaf]
  split
  · exact h.refl b
  · exact h.refl b
  · rename_i roles _ hroles
    refine h.get ?_
    split
    · exact fresh name pad direction rate roles b collecting (modeRoles?_of_ok hroles)
    · split
      · exact h.refl b
      · exact h.refl b

mutual

theorem adapt (h : Admits R) (fresh : AdmitsFresh R) (name : String)
    (direction : Option DirectionSpec) (rate : Option RateSpec) :
    ∀ (pads : Host.PadTree) (b : Bridge), R b (after (Bridge.adapt name direction rate pads) b)
  | .leaf pad, b => by
    rw [Bridge.adapt]
    refine h.ensurePhase fun collecting => ?_
    rw [single, single]
    cases Spec.single? direction with
    | none => exact h.refl b
    | some direction =>
      cases Spec.single? rate with
      | none => exact h.refl b
      | some rate => exact h.adaptLeaf fresh name pad _ _ collecting
  | .group fields, b => by
    have checked {α : Type} (spec : Option (Spec α)) (c : Bridge) :
        R c (after (checkFields name (Table.keys fields) spec) c) := by
      rw [checkFields]
      cases Spec.strayField? spec (Table.keys fields) <;> exact h.refl c
    rw [Bridge.adapt]
    exact h.ensurePhase fun _ => h.bind (checked direction b) fun _ _ _ =>
      h.bind (checked rate _) fun _ _ _ =>
      h.bind (adaptFields h fresh name direction rate fields _) fun _ _ _ =>
      h.bind (h.checkCapability _) fun _ c _ => h.refl c

theorem adaptFields (h : Admits R) (fresh : AdmitsFresh R) (name : String)
    (direction : Option DirectionSpec) (rate : Option RateSpec) :
    ∀ (fields : List (String × Host.PadTree)) (b : Bridge),
      R b (after (Bridge.adaptFields name direction rate fields) b)
  | [], b => by
    rw [Bridge.adaptFields]
    exact h.refl b
  | (field, pad) :: rest, b => by
    rw [Bridge.adaptFields]
    exact h.bind (adapt h fresh _ _ _ pad b) fun _ _ _ =>
      h.bind (adaptFields h fresh name direction rate rest _) fun _ c _ => h.refl c

end

theorem emit (h : Admits R) (sealed : ∀ b netlist portMap, b.phase = .collecting →
    R b { b with netlist, portMap, phase := .emitted }) : R b (after Bridge.emit b) :=
  h.ensurePhase fun collecting => h.get <| h.ofGuest fun _ _ => sealed b _ _ collecting

theorem bound (h : Admits R) (x : Binding) : R b (after (Bridge.bound x) b) := by
  rw [Bridge.bound]
  split
  · refine h.hostSignal fun s _ => ?_
    cases x.direction <;> exact h.onHost (Arena.Extends.push _ _) rfl
  · exact h.refl b

theorem bindAll (h : Admits R) (inst : Host.Instance) (bs : List Binding) :
    R b (after (Bridge.bindAll inst bs) b) := by
  induction bs generalizing inst b with
  | nil => exact h.refl b
  | cons x rest ih => exact h.bind (h.bound x) fun _ _ _ => ih _

theorem buildInstance (h : Admits R) (spend : ∀ b, R b { b with phase := .instantiated }) :
    R b (after Bridge.buildInstance b) := by
  refine h.ensurePhase fun _ => h.get ?_
  cases bindings b.portMap [] b.connections with
  | error e => exact h.refl b
  | ok bs => exact h.bind (h.bindAll _ bs) fun _ c _ => h.bind (spend c) fun _ d _ => h.refl d

end Admits

end Bridge

end NetBridge
