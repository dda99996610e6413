import NetBridge.Proofs.Bridge.Repetition

/-! # The check that an adaptation makes

An adaptation compares what it has made with what it has declared. Where pads are declared as
wide as their host signals, which a platform sees to, nothing ever sets the two apart: a pad is
refused for what the request asks of it, or its capability is backed by signals of the guest. -/
namespace NetBridge

namespace Host

/-- The pad is declared as wide as its host signal. -/
def Pad.FitsIn (pad : Pad) (m : Netlist) : Prop :=
  ∃ s, m.signal? pad.signal = some s ∧ pad.width = s.shape.width

theorem Pad.FitsIn.extends {pad : Pad} {m later : Netlist} (h : pad.FitsIn m)
    (grown : m.signals.Extends later.signals) : pad.FitsIn later :=
  h.imp fun _ ⟨hs, width⟩ => ⟨grown hs, width⟩

end Host

/-- The request is at fault, and not what has been made for it. -/
def BridgeError.Declines : BridgeError → Prop
  | unsupportedPad _ | padConflict .. | specShape _ | missingMember .. | phaseViolation .. => True
  | _ => False

namespace Bridge

open Host (Pad PadTree)
open LeafRequest (ofPad ofFields)

/-- A leaf that has exactly the roles of a mode. Behind each of them is a guest signal, shaped as
the signature declares it: like the host signal of the pad, or a single bit if it carries no
data. -/
def Backed (b : Bridge) (pad : Host.SignalId) (direction : Direction) (rate : Nat)
    (c : Capability) : Prop :=
  ∃ name roles s signals, modeRoles? direction rate = some roles ∧
    b.host.signal? pad = some s ∧ c = .leaf name (.ofRoles roles s.shape) signals ∧
    signals.keys = Role.all.filter (· ∈ roles) ∧
    ∀ p ∈ signals, ∃ g, b.guest.signal? p.2 = some g ∧
      g.shape = (if p.1.isData then s.shape else .bit) ∧
      Table.get? c.signature p.1.text = some (.port p.1.flow g.shape)

/-- All capabilities that have been kept for pads are backed. -/
def Sound (b : Bridge) : Prop :=
  ∀ p ∈ b.pads, Backed b p.1 p.2.direction p.2.rate p.2.capability

/-- No signal is lost, and what was backed still is. -/
structure Evolves (b b' : Bridge) : Prop where
  host : b.host.signals.Extends b'.host.signals
  guest : b.guest.signals.Extends b'.guest.signals
  sound : Sound b → Sound b'

section Backed

variable {b b' : Bridge} {pad : Host.SignalId} {direction : Direction} {rate : Nat}
  {c : Capability}

theorem Backed.extends (h : Backed b pad direction rate c)
    (host : b.host.signals.Extends b'.host.signals)
    (guest : b.guest.signals.Extends b'.guest.signals) : Backed b' pad direction rate c := by
  obtain ⟨name, roles, s, signals, known, hs, hc, keys, backed⟩ := h
  refine ⟨name, roles, s, signals, known, host hs, hc, keys, fun p hp => ?_⟩
  obtain ⟨g, hg, shape⟩ := backed p hp
  exact ⟨g, guest hg, shape⟩

theorem Backed.distinct (h : Backed b pad direction rate c) : c.signature.Distinct := by
  obtain ⟨name, roles, s, signals, known, -, rfl, -⟩ := h
  exact Signature.distinct_ofRoles (modeRoles?_nodup known) s.shape

theorem Backed.idle {s : Host.Signal} (name : String) (known : modeRoles? direction rate = some [])
    (hs : b.host.signal? pad = some s) : Backed b pad direction rate (.leaf name [] []) :=
  ⟨name, [], s, [], known, hs, rfl, by simp [Table.keys], by simp⟩

end Backed

namespace Evolves

variable {a b c : Bridge}

theorem of_pads (host : a.host.signals.Extends b.host.signals)
    (guest : a.guest.signals.Extends b.guest.signals) (pads : b.pads = a.pads) : Evolves a b :=
  ⟨host, guest, fun sound p hp => (sound p (pads ▸ hp)).extends host guest⟩

theorem refl (b : Bridge) : Evolves b b := ⟨.refl _, .refl _, id⟩

theorem trans (hab : Evolves a b) (hbc : Evolves b c) : Evolves a c :=
  ⟨hab.host.trans hbc.host, hab.guest.trans hbc.guest, fun sound => hbc.sound (hab.sound sound)⟩

theorem admits : Admits Evolves where
  refl := refl
  trans := trans
  connection _ _ _ := .of_pads (.refl _) (.refl _) rfl
  host _ _ grown _ := .of_pads grown (.refl _) rfl
  guest _ _ grown := .of_pads (.refl _) grown rfl

end Evolves

section Fresh

variable {name : String} {pad : Pad} {direction : Direction} {rate : Nat} {roles : List Role}
  {b b' : Bridge} {c : Capability}

/-- What has passed the check is backed, whatever width the pad is declared with. -/
theorem adaptFresh_backed (collecting : b.phase = .collecting)
    (known : modeRoles? direction rate = some roles)
    (h : adaptFresh name pad direction rate roles b = .ok c b') :
    Evolves b b' ∧ Backed b' pad.signal direction rate c := by
  obtain ⟨s, signals, hs, rfl, keys, imported, passed, grown, hpads⟩ :=
    adaptFresh_eq_ok collecting known h
  have nodup := modeRoles?_nodup known
  have distinct : signals.keys.Nodup := by
    rw [keys]
    exact Role.nodup_all.filter _
  let site : PadSite := ⟨name, pad.signal, s.shape⟩
  -- The check compares shapes of the declared width with shapes that the host signal has.
  have shapes : ∀ r ∈ roles,
      (⟨r.width pad.width, r.isData && s.shape.signed⟩ : Shape) = site.roleShape r := by
    intro r hr
    obtain ⟨id, member, shape⟩ := Capability.shapeOf_of_mismatch? nodup distinct passed hr
    obtain ⟨reset, found⟩ := imported _ member
    rw [← shape]
    simp [Guest.Netlist.shapeOf, Guest.Netlist.signal?, found, site]
  have signature : Signature.ofRoles roles ⟨pad.width, s.shape.signed⟩ = .ofRoles roles s.shape := by
    rw [Signature.ofRoles_eq nodup, Signature.ofRoles_eq nodup]
    exact List.map_congr_left fun r hr => by
      rw [shapes r hr]
      rfl
  have backed : Backed b' pad.signal direction rate
      (.leaf name (.ofRoles roles ⟨pad.width, s.shape.signed⟩) signals) := by
    refine ⟨name, roles, s, signals, known, grown.host hs, by rw [signature], keys, ?_⟩
    intro p hp
    obtain ⟨reset, found⟩ := imported p hp
    have role : p.1 ∈ roles := by
      have listed := Table.mem_keys_of_mem hp
      rw [keys] at listed
      simpa using (List.mem_filter.mp listed).2
    refine ⟨_, found, site.roleShape_eq p.1, ?_⟩
    refine Table.get?_of_mem (Signature.distinct_ofRoles nodup _).1 ?_
    change _ ∈ Signature.ofRoles roles ⟨pad.width, s.shape.signed⟩
    rw [signature, Signature.ofRoles_eq nodup]
    exact List.mem_map_of_mem role
  refine ⟨⟨grown.host, grown.guest, fun sound p hp => ?_⟩, backed⟩
  rw [hpads] at hp
  rcases List.mem_append.mp hp with old | new
  · exact (sound p old).extends grown.host grown.guest
  · obtain rfl := List.mem_singleton.mp new
    exact backed

end Fresh

/-- A pad that fails the check leaves signals, and is not kept. -/
theorem Evolves.fresh : AdmitsFresh Evolves := by
  intro name pad direction rate roles b collecting known
  rw [after]
  cases hrun : Bridge.adaptFresh name pad direction rate roles b with
  | ok c b' => exact (adaptFresh_backed collecting known hrun).1
  | error e b' =>
    cases hs : b.host.signal? pad.signal with
    | none =>
      obtain ⟨-, rfl⟩ := EStateM.Result.error.inj ((adaptFresh_unallocated name hs).symm.trans hrun)
      exact .refl b
    | some s =>
      obtain ⟨signals, made, -, -, -, grown, hpads, -, run⟩ :=
        adaptFresh_run name collecting known hs
      rw [run] at hrun
      split at hrun
      · obtain ⟨-, rfl⟩ := EStateM.Result.error.inj hrun
        exact .of_pads grown.host grown.guest hpads
      · cases hrun

theorem Evolves.spans : Build.Spans Evolves :=
  { Evolves.admits with
    fresh := Evolves.fresh
    sealed := fun _ _ _ _ => .of_pads (.refl _) (.refl _) rfl
    spent := fun _ => .of_pads (.refl _) (.refl _) rfl
    finalized := fun _ _ => .of_pads (.refl _) (.refl _) rfl }

/-- The operation succeeds and does what it should, or declines. -/
inductive Answers {α : Type} (good : α → Bridge → Prop) :
    EStateM.Result BridgeError Bridge α → Prop
  | ok {a : α} {b : Bridge} : good a b → Answers good (.ok a b)
  | declined {e : BridgeError} {b : Bridge} : e.Declines → Answers good (.error e b)

namespace Answers

variable {α β : Type} {x : BridgeM α} {f : α → BridgeM β} {good : α → Bridge → Prop}
  {next : β → Bridge → Prop} {b : Bridge}

theorem mono {good' : α → Bridge → Prop} {r : EStateM.Result BridgeError Bridge α}
    (h : Answers good r) (weaker : ∀ a c, good a c → good' a c) : Answers good' r := by
  cases h with
  | ok does => exact .ok (weaker _ _ does)
  | declined fault => exact .declined fault

theorem bind (hx : Answers good (x b)) (hf : ∀ a c, good a c → Answers next (f a c)) :
    Answers next ((x >>= f) b) := by
  cases h : x b with
  | ok a c =>
    rw [h] at hx
    cases hx with
    | ok does =>
      rw [bind_of_ok h]
      exact hf a c does
  | error e c =>
    rw [h] at hx
    cases hx with
    | declined fault =>
      rw [bind_of_error h]
      exact .declined fault

theorem ensurePhase {expected : Phase} {operation : Operation} {g : Unit → BridgeM β}
    (h : b.phase = expected → Answers next (g () b)) :
    Answers next ((Bridge.ensurePhase expected operation >>= g) b) := by
  by_cases hp : b.phase = expected
  · rw [bind_of_ok (ensurePhase_ok hp)]
    exact h hp
  · rw [bind_of_error (ensurePhase_error hp)]
    exact .declined trivial

theorem single {name : String} {spec : Option (Spec α)} {g : Option α → BridgeM β}
    (h : ∀ value, Spec.single? spec = some value → Answers next (g value b)) :
    Answers next ((Bridge.single name spec >>= g) b) := by
  rw [Bridge.single]
  cases hspec : Spec.single? spec with
  | none => exact .declined trivial
  | some value => exact h value hspec

theorem checkFields {name : String} {fields : List String} {spec : Option (Spec α)}
    {g : Unit → BridgeM β} (h : Answers next (g () b)) :
    Answers next ((Bridge.checkFields name fields spec >>= g) b) := by
  rw [Bridge.checkFields]
  cases Spec.strayField? spec fields with
  | none => exact h
  | some field => exact .declined trivial

end Answers

section Leaf

variable {name : String} {pad : Pad} {direction : Direction} {rate : Nat} {b : Bridge}

theorem adaptFresh_answers {roles : List Role} (collecting : b.phase = .collecting)
    (known : modeRoles? direction rate = some roles) (fits : pad.FitsIn b.host) :
    Answers (fun c b' => Evolves b b' ∧ Backed b' pad.signal direction rate c)
      (adaptFresh name pad direction rate roles b) := by
  obtain ⟨s, hs, width⟩ := fits
  obtain ⟨signals, made, -, -, -, -, -, matched, run⟩ := adaptFresh_run name collecting known hs
  rw [matched width] at run
  rw [run]
  exact .ok (adaptFresh_backed collecting known run)

theorem adaptLeaf_answers (collecting : b.phase = .collecting) (sound : Sound b)
    (fits : pad.FitsIn b.host) :
    Answers (fun c b' => Evolves b b' ∧ Backed b' pad.signal direction rate c)
      (adaptLeaf name pad direction rate b) := by
  cases hroles : modeRoles direction rate with
  | error e =>
    rw [adaptLeaf_unsupported hroles]
    exact .declined trivial
  | ok roles =>
    have known := modeRoles?_of_ok hroles
    by_cases idle : roles = []
    · subst idle
      obtain ⟨s, hs, -⟩ := fits
      rw [adaptLeaf_idle hroles]
      exact .ok ⟨.refl b, .idle name known hs⟩
    cases hpad : Table.get? b.pads pad.signal with
    | none =>
      rw [adaptLeaf_fresh hroles idle hpad]
      exact adaptFresh_answers collecting known fits
    | some done =>
      rw [adaptLeaf_cached hroles idle hpad]
      split
      · rename_i same
        obtain ⟨rfl, rfl⟩ := same
        exact .ok ⟨.refl b, sound _ (Table.mem_of_get? hpad)⟩
      · exact .declined trivial

end Leaf

/-- The capability of a leaf is backed, in the mode that the request has for it. -/
def Meets (b : Bridge) (l : LeafRequest) (c : Capability) : Prop :=
  ∃ direction rate, l.mode? = some (direction, rate) ∧ Backed b l.pad.signal direction rate c

theorem Meets.evolves {b b' : Bridge} {l : LeafRequest} {c : Capability} (h : Meets b l c)
    (evolves : Evolves b b') : Meets b' l c := by
  obtain ⟨direction, rate, mode, backed⟩ := h
  exact ⟨direction, rate, mode, backed.extends evolves.host evolves.guest⟩

mutual

theorem adapt_answers (name : String) (direction : Option DirectionSpec)
    (rate : Option RateSpec) : ∀ (pads : PadTree) {b : Bridge}, Sound b →
      (∀ pad ∈ pads.leaves, pad.FitsIn b.host) →
      Answers (fun c b' => Evolves b b' ∧ c.signature.Distinct ∧ ∃ nodes,
          MadeOf name pads nodes c ∧ List.Forall₂ (Meets b') (ofPad name direction rate pads) nodes)
        (adapt name direction rate pads b)
  | .leaf pad, b, sound, fits => by
    rw [adapt]
    refine Answers.ensurePhase fun collecting => Answers.single fun d hd => Answers.single fun r hr => ?_
    have mode : LeafRequest.mode? ⟨name, pad, direction, rate⟩ = some (d.getD .idle, r.getD 0) :=
      LeafRequest.mode?_eq_some_iff.mpr ⟨d, r, hd, hr, rfl, rfl⟩
    refine (adaptLeaf_answers collecting sound (fits pad (List.mem_singleton_self pad))).mono ?_
    exact fun c b' ⟨evolves, backed⟩ =>
      ⟨evolves, backed.distinct, [c], .leaf, .cons ⟨_, _, mode, backed⟩ .nil⟩
  | .group fields, b, sound, fits => by
    rw [adapt]
    refine Answers.ensurePhase fun collecting => Answers.checkFields (Answers.checkFields ?_)
    refine (adaptFields_answers name direction rate fields sound fits).bind fun children b' h => ?_
    obtain ⟨evolves, distinct, nodes, made, meets⟩ := h
    -- What was declared for the group is what was built.
    obtain ⟨signature, checked⟩ := checkGroup_ok (b := b') distinct
    rw [bind_of_ok checked]
    exact .ok ⟨evolves, signature, nodes, .group made, meets⟩

theorem adaptFields_answers (name : String) (direction : Option DirectionSpec)
    (rate : Option RateSpec) : ∀ (fields : List (String × PadTree)) {b : Bridge}, Sound b →
      (∀ pad ∈ FieldTree.fieldLeaves fields, pad.FitsIn b.host) →
      Answers (fun children b' => Evolves b b' ∧ (∀ p ∈ children, p.2.signature.Distinct) ∧
          ∃ nodes, FieldsMadeOf name fields nodes children ∧
            List.Forall₂ (Meets b') (ofFields name direction rate fields) nodes)
        (adaptFields name direction rate fields b)
  | [], b, _, _ => by
    rw [adaptFields]
    exact .ok ⟨.refl b, by simp, [], .nil, .nil⟩
  | (field, pad) :: rest, b, sound, fits => by
    obtain ⟨fitsHere, fitsRest⟩ := List.forall_mem_append.mp fits
    rw [adaptFields]
    refine (adapt_answers _ _ _ pad sound fitsHere).bind fun c b₁ first => ?_
    obtain ⟨evolves, distinct, nodes, made, meets⟩ := first
    refine (adaptFields_answers name direction rate rest (evolves.sound sound)
      fun pad hpad => (fitsRest pad hpad).extends evolves.host).bind fun children b₂ others => ?_
    obtain ⟨evolvesRest, distinctRest, nodesRest, madeRest, meetsRest⟩ := others
    refine .ok ⟨evolves.trans evolvesRest, List.forall_mem_cons.mpr ⟨distinct, distinctRest⟩,
      nodes ++ nodesRest, .cons made madeRest, ?_⟩
    exact List.rel_append (meets.imp fun _ _ h => h.evolves evolvesRest) meetsRest

end

end Bridge

/-- What a platform makes for a layout fits, there and in every host that grows out of it. -/
theorem Platform.allocate_fits (logical : String) (layout : Layout) {host later : Host.Netlist}
    (grown : ((allocate logical layout).run host).2.signals.Extends later.signals) :
    ∀ pad ∈ ((allocate logical layout).run host).1.leaves, pad.FitsIn later := by
  intro pad hpad
  obtain ⟨name, found⟩ := (allocate_handsOut logical layout host).2.stands pad hpad
  exact ⟨_, grown found, rfl⟩

namespace Build

open Bridge (Answers Evolves Meets Sound)

variable {σ : Type}

/-- The action takes no signals from the netlists that the bridge lends out. -/
def Action.KeepsSignals : Action σ → Prop
  | changeGuest change => ∀ m : Guest.Netlist, m.signals.Extends (change m).signals
  | changeHost change => ∀ m : Host.Netlist, m.signals.Extends (change m).signals
  | _ => True

variable [Storage σ]

theorem Action.KeepsSignals.evolves {a : Action σ} (h : a.KeepsSignals) (outside : a.IsOutside)
    (s : Build σ) : Evolves s.bridge (a.apply s).bridge := by
  cases a with
  | changeGuest change => exact .of_pads (.refl _) (h _) rfl
  | changeHost change => exact .of_pads (h _) (.refl _) rfl
  | changePlatform | changeStorage => exact .refl _
  | _ => exact outside.elim

/-- Whatever has been done to a build before, failures included, its adaptations never fail their
own check, and run into nothing that should not happen: where each pad is declared as wide as its
host signal, signed or not, an adaptation only fails for what was asked of it. If it succeeds,
the capability consists of leaves that have exactly the roles of their modes, each with a guest
signal of the shape that is declared. A platform makes such pads for every layout. -/
theorem self_check_never_fires {s : Build σ} (unadapted : s.bridge.pads = [])
    {actions : List (Action σ)} (keeping : ∀ a ∈ actions, a.KeepsSignals) :
    (∀ (name : String) (direction : Option DirectionSpec) (rate : Option RateSpec)
        (pads : Host.PadTree), (∀ pad ∈ pads.leaves, pad.FitsIn (run actions s).bridge.host) →
      Answers (fun c b' => ∃ nodes, Bridge.MadeOf name pads nodes c ∧
          List.Forall₂ (Meets b') (Bridge.LeafRequest.ofPad name direction rate pads) nodes)
        (Bridge.adapt name direction rate pads (run actions s).bridge)) ∧
    ∀ (logical : String) (layout : Layout) (host later : Host.Netlist),
      ((Platform.allocate logical layout).run host).2.signals.Extends later.signals →
      ∀ pad ∈ ((Platform.allocate logical layout).run host).1.leaves, pad.FitsIn later := by
  have evolves : Evolves s.bridge (run actions s).bridge :=
    Evolves.spans.run (fun a ha outside s => (keeping a ha).evolves outside s) s
  have sound : Sound (run actions s).bridge := evolves.sound (by simp [Sound, unadapted])
  refine ⟨fun name direction rate pads fits => ?_, fun logical layout _ _ grown =>
    Platform.allocate_fits logical layout grown⟩
  exact (Bridge.adapt_answers name direction rate pads sound fits).mono fun _ _ h => h.2.2

/-- A clock and a signed word. -/
def signedBuild : Build Disk where
  bridge := {
    name := "core"
    host := { name := "top", signals := ⟨#[⟨"clk", .bit⟩, ⟨"q", ⟨4, true⟩⟩]⟩ } }
  platform := { board := {} }
  storage := {}

/-- Somebody takes the word for a wider one, in vain. -/
def misdeclaring : List (Action Disk) :=
  [.adapt "wide" (some (.leaf .inout)) (some (.leaf 1)) (.leaf ⟨⟨1⟩, 5, false⟩)]

def signedPads : Host.PadTree :=
  .group [("clk", .leaf ⟨⟨0⟩, 1, false⟩), ("q", .leaf ⟨⟨1⟩, 4, true⟩)]

def signedDirections : DirectionSpec := .group [("clk", .leaf .output), ("q", .leaf .drive)]

/-- Asked for as it is the word is adapted, with signed data. -/
theorem signed_pads_are_backed :
    signedBuild.bridge.pads = [] ∧ (∀ a ∈ misdeclaring, a.KeepsSignals) ∧
    (∀ pad ∈ signedPads.leaves, pad.FitsIn (run misdeclaring signedBuild).bridge.host) ∧
    ∃ c b' nodes,
      Bridge.adapt "pad_bus" (some signedDirections) (some (.leaf 1)) signedPads
        (run misdeclaring signedBuild).bridge = .ok c b' ∧
      Bridge.MadeOf "pad_bus" signedPads nodes c ∧
      List.Forall₂ (Meets b') (Bridge.LeafRequest.ofPad "pad_bus" (some signedDirections)
        (some (.leaf 1)) signedPads) nodes := by
  have unadapted : signedBuild.bridge.pads = [] := rfl
  have keeping : ∀ a ∈ misdeclaring, a.KeepsSignals := List.forall_mem_singleton.mpr trivial
  have clk : (run misdeclaring signedBuild).bridge.host.signal? ⟨0⟩ = some ⟨"clk", .bit⟩ := by
    decide +kernel
  have q : (run misdeclaring signedBuild).bridge.host.signal? ⟨1⟩ = some ⟨"q", ⟨4, true⟩⟩ := by
    decide +kernel
  have fits : ∀ pad ∈ signedPads.leaves, pad.FitsIn (run misdeclaring signedBuild).bridge.host :=
    List.forall_mem_cons.mpr ⟨⟨_, clk, rfl⟩, List.forall_mem_singleton.mpr ⟨_, q, rfl⟩⟩
  have answers := (self_check_never_fires unadapted keeping).1 "pad_bus" (some signedDirections)
    (some (.leaf 1)) signedPads fits
  have succeeds : (match Bridge.adapt "pad_bus" (some signedDirections) (some (.leaf 1)) signedPads
        (run misdeclaring signedBuild).bridge with
      | .ok .. => true
      | .error .. => false) = true := by decide +kernel
  refine ⟨unadapted, keeping, fits, ?_⟩
  split at succeeds
  · rename_i c b' h
    rw [h] at answers
    cases answers with
    | ok does =>
      obtain ⟨nodes, made, meets⟩ := does
      exact ⟨c, b', nodes, h, made, meets⟩
  · cases succeeds

end Build

end NetBridge
