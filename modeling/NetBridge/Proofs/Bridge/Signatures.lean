import NetBridge.Proofs.Bridge.Change

/-! # Signatures of adapted pads

No adapted pad has a signature that repeats a name: a bridge starts without any, and whatever
is done to it adds none. -/
namespace NetBridge.Bridge

open Host (Pad PadTree)
open LeafRequest (adaptEach)

/-- No signature of an adapted pad has two members of one name, at any depth. -/
def DistinctSignatures (b : Bridge) : Prop := ∀ p ∈ b.pads, p.2.capability.signature.Distinct

/-- A bridge that pads can be adapted in. -/
structure Ready (b : Bridge) : Prop where
  collecting : b.phase = .collecting
  signatures : b.DistinctSignatures

theorem adaptLeaf_ready {name : String} {pad : Pad} {direction : Direction} {rate : Nat}
    {b b' : Bridge} {c : Capability} (ready : Ready b)
    (h : adaptLeaf name pad direction rate b = .ok c b') : c.signature.Distinct ∧ Ready b' := by
  cases adaptLeaf_adapts h with
  | idle => exact ⟨⟨List.nodup_nil, trivial⟩, ready⟩
  | cached _ _ old => exact ⟨ready.signatures _ (Table.mem_of_get? old), ready⟩
  | fresh _ known _ made =>
    obtain ⟨s, signals, -, rfl, -, -, -, grown, hpads⟩ :=
      adaptFresh_eq_ok ready.collecting known made
    have distinct :=
      Signature.distinct_ofRoles (modeRoles?_nodup known) ⟨pad.width, s.shape.signed⟩
    refine ⟨distinct, grown.phase.trans ready.collecting, fun p hp => ?_⟩
    rw [hpads] at hp
    rcases List.mem_append.mp hp with old | new
    · exact ready.signatures p old
    · obtain rfl := List.mem_singleton.mp new
      exact distinct

theorem LeafRequest.adapt_ready {l : LeafRequest} {b b' : Bridge} {c : Capability} (ready : Ready b)
    (h : l.adapt b = .ok c b') : c.signature.Distinct ∧ Ready b' := by
  obtain ⟨-, direction, rate, -, adapted⟩ := LeafRequest.adapt_eq_ok h
  exact adaptLeaf_ready ready adapted

theorem LeafRequest.adaptEach_ready {ls : List LeafRequest} {b b' : Bridge} {cs : List Capability}
    (ready : Ready b) (h : adaptEach ls b = .ok cs b') : Ready b' := by
  induction ls generalizing b cs with
  | nil =>
    obtain ⟨-, rfl⟩ := EStateM.Result.ok.inj h
    exact ready
  | cons l rest ih =>
    obtain ⟨c, b₁, first, next⟩ := bind_eq_ok.mp h
    obtain ⟨ds, b₂, others, last⟩ := bind_eq_ok.mp next
    obtain ⟨-, rfl⟩ := EStateM.Result.ok.inj last
    exact ih (LeafRequest.adapt_ready ready first).2 others

/-- Whatever comes of an adaptation, it adds no signature that repeats a name. -/
theorem DistinctSignatures.adapt {b : Bridge} (h : b.DistinctSignatures) (name : String)
    (direction : Option DirectionSpec) (rate : Option RateSpec) (pads : PadTree) :
    (after (Bridge.adapt name direction rate pads) b).DistinctSignatures := by
  by_cases collecting : b.phase = .collecting
  · have stops := adapt_stops name direction rate pads collecting
    rw [after]
    cases hrun : Bridge.adapt name direction rate pads b with
    | ok c b' =>
      rw [hrun] at stops
      obtain ⟨cs, hcs⟩ := stops
      exact (LeafRequest.adaptEach_ready ⟨collecting, h⟩ hcs).signatures
    | error e b' =>
      rw [hrun] at stops
      obtain ⟨done, rest, cs, c, -, hdone, left⟩ := stops
      have before := (LeafRequest.adaptEach_ready ⟨collecting, h⟩ hdone).signatures
      rcases left with rfl | ⟨l, more, -, rfl | ⟨-, d, r, -, abandoned⟩⟩
      · exact before
      · exact before
      · exact fun p hp => before p (abandoned.pads ▸ hp)
  · rwa [after_adapt collecting]

/-- The operation leaves the adapted pads alone, failed or not. -/
def SparesPads {α : Type} (x : BridgeM α) : Prop := ∀ b, (after x b).pads = b.pads

namespace SparesPads

theorem admits : Admits fun b b' => b'.pads = b.pads where
  refl _ := rfl
  trans hab hbc := hbc.trans hab
  connection _ _ _ := rfl
  host _ _ _ _ := rfl
  guest _ _ _ := rfl

theorem connect (source : Host.SignalId) (target : Guest.Target) (invert : Bool) :
    SparesPads (Bridge.connect source target invert) := fun _ => admits.connect ..

theorem declareDomain (name : String) : SparesPads (Bridge.declareDomain name) :=
  fun _ => admits.declareDomain name

theorem importFromGuest (id : Guest.SignalId) (invert : Bool) :
    SparesPads (Bridge.importFromGuest id invert) := fun _ => admits.importFromGuest ..

theorem importFromHost (id : Host.SignalId) (name : Option String) (invert : Bool) :
    SparesPads (Bridge.importFromHost id name invert) := fun _ => admits.importFromHost ..

end SparesPads

theorem DistinctSignatures.apply {b : Bridge} (h : b.DistinctSignatures) (a : Action) :
    (a.apply b).DistinctSignatures := by
  have spared : ∀ {α : Type} {x : BridgeM α}, SparesPads x → (after x b).DistinctSignatures :=
    fun hx p hp => h p (hx b ▸ hp)
  cases a with
  | connect source target invert => exact spared (.connect source target invert)
  | declareDomain name => exact spared (.declareDomain name)
  | importFromGuest id invert => exact spared (.importFromGuest id invert)
  | importFromHost id name invert => exact spared (.importFromHost id name invert)
  | adapt name direction rate pad => exact h.adapt name direction rate pad
  | addGuestDomain name =>
    rw [Action.apply]
    split <;> exact h
  | addGuestSignal | driveGuest | addHostSignal | assignHost | addPrimitive | hostDomain => exact h

/-- So no bridge that starts without adapted pads ever has such a signature. -/
theorem DistinctSignatures.run {b : Bridge} (h : b.DistinctSignatures) (actions : List Action) :
    (run actions b).DistinctSignatures := by
  induction actions generalizing b with
  | nil => exact h
  | cons a rest ih => exact ih (h.apply a)

end NetBridge.Bridge
