import NetBridge.Proofs.Bridge.Aggregate
import NetBridge.Proofs.Bridge.Invariant

/-! # Adapting again

A pad is adapted for good. The same request gives the same capability whenever it is made
again, and makes nothing; a request for another mode is told which one the pad has, and
under which name it got it. -/
namespace NetBridge

namespace Bridge

open Host (Pad PadTree)
open LeafRequest (adaptEach ofPad ofFields)

section Lasting

variable {α β : Type} {x : BridgeM α} {f : α → BridgeM β} {b b' : Bridge}

/-- If the operation succeeds, it keeps what was adapted, and from then on it answers alike
and changes nothing. -/
def Lasting (x : BridgeM α) (b : Bridge) : Prop :=
  ∀ a b', x b = .ok a b' → Keeps b b' ∧ ∀ later, Keeps b' later → x later = .ok a later

namespace Lasting

theorem of_settles {refused : BridgeError → Bridge → Bridge → Prop} (h : Settles x refused b) :
    Lasting x b := by
  intro a b' hx
  rcases h with ⟨a', c, hrun, settled⟩ | ⟨e, c, hrun, -⟩
  · obtain ⟨rfl, rfl⟩ := EStateM.Result.ok.inj (hrun.symm.trans hx)
    exact settled
  · cases hrun.symm.trans hx

theorem of_error {e : BridgeError} (h : x b = .error e b') : Lasting x b := fun _ _ hx => by
  cases h.symm.trans hx

theorem pure (a : α) : Lasting (Pure.pure a) b := fun _ _ h => by
  obtain ⟨rfl, rfl⟩ := EStateM.Result.ok.inj h
  exact ⟨.refl _, fun _ _ => rfl⟩

theorem bind (hx : Lasting x b) (hf : ∀ a c, Lasting (f a) c) : Lasting (x >>= f) b := by
  intro a' b' h
  obtain ⟨a, c, first, next⟩ := bind_eq_ok.mp h
  obtain ⟨keeps, again⟩ := hx a c first
  obtain ⟨keepsNext, againNext⟩ := hf a c a' b' next
  refine ⟨keeps.trans keepsNext, fun later kept => ?_⟩
  rw [bind_of_ok (again later (keepsNext.trans kept))]
  exact againNext later kept

theorem ensurePhase (expected : Phase) (operation : Operation) :
    Lasting (Bridge.ensurePhase expected operation) b := by
  by_cases hp : b.phase = expected
  · intro a c h
    obtain ⟨rfl, rfl⟩ := EStateM.Result.ok.inj ((ensurePhase_ok hp).symm.trans h)
    exact ⟨.refl _, fun later kept => ensurePhase_ok (kept.phase.trans hp)⟩
  · exact of_error (ensurePhase_error hp)

theorem checkFields (name : String) (fields : List String) (spec : Option (Spec α)) :
    Lasting (Bridge.checkFields name fields spec) b := by
  rw [Bridge.checkFields]
  cases Spec.strayField? spec fields with
  | none => exact pure ()
  | some field => exact of_error (throw_run _)

/-- The check of a group looks at its children only. -/
theorem checkGroup (name : String) (signature : Signature) (fields : List (String × Capability)) :
    Lasting (checkCapability (.group name signature fields)) b := by
  have same (later : Bridge) : (Capability.group name signature fields).mismatch? later.guest =
      (Capability.group name signature fields).mismatch? b.guest := rfl
  cases hm : (Capability.group name signature fields).mismatch? b.guest with
  | none =>
    have passes (later : Bridge) :
        checkCapability (.group name signature fields) later = .ok () later := by
      rw [checkCapability_run, same, hm]
    intro a c h
    obtain ⟨rfl, rfl⟩ := EStateM.Result.ok.inj ((passes b).symm.trans h)
    exact ⟨.refl _, fun later _ => passes later⟩
  | some detail =>
    have fails : checkCapability (.group name signature fields) b =
        .error (.signatureMismatch name detail) b := by
      rw [checkCapability_run, hm]
      rfl
    exact of_error fails

end Lasting

end Lasting

mutual

theorem adapt_lasting (name : String) (direction : Option DirectionSpec) (rate : Option RateSpec) :
    ∀ (pads : PadTree) (b : Bridge), Lasting (adapt name direction rate pads) b
  | .leaf pad, b => by
    by_cases collecting : b.phase = .collecting
    · exact .of_settles (adapt_leaf_settles name pad direction rate collecting)
    · rw [adapt]
      exact .of_error (bind_of_error (ensurePhase_error collecting))
  | .group fields, b => by
    rw [adapt]
    exact (Lasting.ensurePhase _ _).bind fun _ _ => (Lasting.checkFields _ _ _).bind fun _ _ =>
      (Lasting.checkFields _ _ _).bind fun _ _ =>
      (adaptFields_lasting name direction rate fields _).bind fun _ _ =>
      (Lasting.checkGroup _ _ _).bind fun _ _ => .pure _

theorem adaptFields_lasting (name : String) (direction : Option DirectionSpec)
    (rate : Option RateSpec) : ∀ (fields : List (String × PadTree)) (b : Bridge),
      Lasting (adaptFields name direction rate fields) b
  | [], b => by
    rw [adaptFields]
    exact .pure _
  | (field, pad) :: rest, b => by
    rw [adaptFields]
    exact (adapt_lasting _ _ _ pad b).bind fun _ _ =>
      (adaptFields_lasting name direction rate rest _).bind fun _ _ => .pure _

end

theorem adapt_collecting {name : String} {direction : Option DirectionSpec}
    {rate : Option RateSpec} {pads : PadTree} {b b' : Bridge} {c : Capability}
    (h : adapt name direction rate pads b = .ok c b') : b.phase = .collecting := by
  cases pads with
  | leaf pad =>
    rw [adapt] at h
    obtain ⟨_, _, started, -⟩ := bind_eq_ok.mp h
    exact (ensurePhase_eq_ok started).1
  | group fields =>
    rw [adapt] at h
    obtain ⟨_, _, started, -⟩ := bind_eq_ok.mp h
    exact (ensurePhase_eq_ok started).1

theorem checkFields_keeps {α : Type} {name : String} {fields : List String}
    {spec : Option (Spec α)} {b b' : Bridge} {u : Unit}
    (h : checkFields name fields spec b = .ok u b') : b' = b := by
  rcases checkFields_run name fields spec b with passed | ⟨e, failed⟩
  · exact (EStateM.Result.ok.inj (passed.symm.trans h)).2.symm
  · cases failed.symm.trans h

mutual

/-- A capability consists of what adapting the leaves of the pad gives. -/
theorem adapt_nodes (name : String) (direction : Option DirectionSpec) (rate : Option RateSpec) :
    ∀ (pads : PadTree) {b b' : Bridge} {c : Capability},
      adapt name direction rate pads b = .ok c b' →
      ∃ nodes, MadeOf name pads nodes c ∧ adaptEach (ofPad name direction rate pads) b = .ok nodes b'
  | .leaf pad, b, b', c, h =>
    ⟨[c], .leaf, LeafRequest.adaptEach_cons (l := ⟨name, pad, direction, rate⟩) h rfl⟩
  | .group fields, b, b', c, h => by
    rw [adapt] at h
    obtain ⟨_, _, started, afterPhase⟩ := bind_eq_ok.mp h
    obtain ⟨-, rfl⟩ := ensurePhase_eq_ok started
    obtain ⟨_, _, directions, afterDirections⟩ := bind_eq_ok.mp afterPhase
    obtain rfl := checkFields_keeps directions
    obtain ⟨_, _, rates, afterRates⟩ := bind_eq_ok.mp afterDirections
    obtain rfl := checkFields_keeps rates
    obtain ⟨children, _, adapted, afterFields⟩ := bind_eq_ok.mp afterRates
    obtain ⟨_, _, checked, made⟩ := bind_eq_ok.mp afterFields
    obtain rfl := checkCapability_keeps checked
    obtain ⟨rfl, rfl⟩ := EStateM.Result.ok.inj made
    obtain ⟨nodes, made, leaves⟩ := adaptFields_nodes name direction rate fields adapted
    exact ⟨nodes, .group made, leaves⟩

theorem adaptFields_nodes (name : String) (direction : Option DirectionSpec)
    (rate : Option RateSpec) : ∀ (fields : List (String × PadTree)) {b b' : Bridge}
      {children : List (String × Capability)},
      adaptFields name direction rate fields b = .ok children b' →
      ∃ nodes, FieldsMadeOf name fields nodes children ∧
        adaptEach (ofFields name direction rate fields) b = .ok nodes b'
  | [], b, b', children, h => by
    rw [adaptFields] at h
    obtain ⟨rfl, rfl⟩ := EStateM.Result.ok.inj h
    exact ⟨[], .nil, rfl⟩
  | (field, pad) :: rest, b, b', children, h => by
    rw [adaptFields] at h
    obtain ⟨child, b₁, first, h⟩ := bind_eq_ok.mp h
    obtain ⟨others, b₂, second, h⟩ := bind_eq_ok.mp h
    obtain ⟨rfl, rfl⟩ := EStateM.Result.ok.inj h
    obtain ⟨nodes, made, leaves⟩ := adapt_nodes _ _ _ pad first
    obtain ⟨nodesRest, madeRest, leavesRest⟩ := adaptFields_nodes name direction rate rest second
    exact ⟨nodes ++ nodesRest, .cons made madeRest, LeafRequest.adaptEach_append leaves leavesRest⟩

end

/-- The leaf is to have signals. -/
def LeafRequest.exposes (l : LeafRequest) : Bool :=
  match l.mode? with
  | some (direction, _) => direction ≠ .idle
  | none => false

/-- The name under which a pad is adapted first: before a request, or by the first of its leaves
that exposes the pad. -/
def firstName? (b : Bridge) (leaves : List LeafRequest) (id : Host.SignalId) : Option String :=
  match Table.get? b.pads id with
  | some done => some done.capability.name
  | none => (leaves.find? fun l => l.pad.signal = id && l.exposes).map (·.name)

theorem firstName?_recorded {b : Bridge} {leaves : List LeafRequest} {id : Host.SignalId}
    {done : AdaptedPad} (h : Table.get? b.pads id = some done) :
    firstName? b leaves id = some done.capability.name := by
  rw [firstName?, h]

/-- The first leaf takes its name with it. -/
theorem Adapts.firstName? {l : LeafRequest} {direction : Direction} {rate : Nat} {b b' : Bridge}
    {c : Capability} (h : Adapts l.name l.pad direction rate b c b') (collecting : b.phase = .collecting)
    (mode : l.mode? = some (direction, rate)) (rest : List LeafRequest) (id : Host.SignalId) :
    Bridge.firstName? b (l :: rest) id = Bridge.firstName? b' rest id := by
  have exposes : l.exposes = decide (direction ≠ .idle) := by rw [LeafRequest.exposes, mode]
  cases h with
  | idle idle =>
    simp [Bridge.firstName?, exposes, idle]
  | cached active known old =>
    by_cases same : l.pad.signal = id
    · subst same
      rw [firstName?_recorded old, firstName?_recorded old]
    · simp [Bridge.firstName?, same]
  | fresh active known new made =>
    obtain ⟨s, signals, -, rfl, -, -, -, -, hpads⟩ := adaptFresh_eq_ok collecting known made
    simp only [Bridge.firstName?, hpads, Table.get?_append]
    cases old : Table.get? b.pads id with
    | some done => rfl
    | none =>
      by_cases same : l.pad.signal = id
      · simp [same, exposes, active, Table.get?, Capability.name]
      · simp [same, Table.get?]

/-- After a request the pad of the leaf is kept with its capability, which has the first name of
the pad, unless the leaf is left alone. -/
def Owned (before after : Bridge) (leaves : List LeafRequest) (l : LeafRequest) (c : Capability) :
    Prop :=
  ∃ direction rate, l.mode? = some (direction, rate) ∧ (direction ≠ .idle →
    Table.get? after.pads l.pad.signal = some ⟨direction, rate, c⟩ ∧
    firstName? before leaves l.pad.signal = some c.name)

theorem LeafRequest.adaptEach_owned {ls : List LeafRequest} {cs : List Capability} {b b' : Bridge}
    (h : adaptEach ls b = .ok cs b') : List.Forall₂ (Owned b b' ls) ls cs := by
  induction ls generalizing cs b with
  | nil =>
    obtain ⟨rfl, rfl⟩ := EStateM.Result.ok.inj h
    exact .nil
  | cons l rest ih =>
    obtain ⟨c, b₁, first, afterFirst⟩ := bind_eq_ok.mp h
    obtain ⟨cs', b₂, others, last⟩ := bind_eq_ok.mp afterFirst
    obtain ⟨rfl, rfl⟩ := EStateM.Result.ok.inj last
    obtain ⟨collecting, direction, rate, mode, adapted⟩ := LeafRequest.adapt_eq_ok first
    have adapts := adaptLeaf_adapts adapted
    have still := (adapt_lasting _ _ _ (.leaf l.pad) b c b₁ first).1.phase.trans collecting
    have keeps := (LeafRequest.adaptEach_settles still others).1
    have next := adapts.firstName? collecting mode rest
    refine .cons ⟨direction, rate, mode, fun active => ?_⟩ ((ih others).imp ?_)
    · have recorded := adapts.recorded collecting active
      exact ⟨keeps.pads _ _ recorded, (next _).trans (firstName?_recorded recorded)⟩
    · rintro m d ⟨direction, rate, mode, owned⟩
      refine ⟨direction, rate, mode, fun active => ?_⟩
      rw [next]
      exact owned active

/-- Whoever asks for the pad of a capability in another mode is told about the capability. -/
theorem LeafRequest.adapt_conflict {l : LeafRequest} {direction direction' : Direction}
    {rate rate' : Nat} {c : Capability} {b : Bridge} (collecting : b.phase = .collecting)
    (kept : Table.get? b.pads l.pad.signal = some ⟨direction, rate, c⟩)
    (mode : l.mode? = some (direction', rate')) (active : direction' ≠ .idle)
    (supported : (modeRoles? direction' rate').isSome)
    (different : (direction', rate') ≠ (direction, rate)) :
    l.adapt b = .error (.padConflict c.name direction rate direction' rate') b := by
  obtain ⟨roles, known⟩ := Option.isSome_iff_exists.mp supported
  have exposing : roles ≠ [] := mt (modeRoles?_nil_iff known).mp active
  have hroles : modeRoles direction' rate' = .ok roles := by rw [modeRoles, known]
  rw [LeafRequest.adapt_run mode collecting, adaptLeaf_cached hroles exposing kept, if_neg]
  rintro ⟨rfl, rfl⟩
  exact different rfl

/-- Whoever asks for the pad of a leaf in another mode is told the mode that the leaf had in a
request, and the first name of the pad. -/
def Reserved (before later : Bridge) (leaves : List LeafRequest) (l : LeafRequest)
    (c : Capability) : Prop :=
  ∃ direction rate, l.mode? = some (direction, rate) ∧ (direction ≠ .idle →
    firstName? before leaves l.pad.signal = some c.name ∧
    ∀ l' direction' rate', l'.pad.signal = l.pad.signal →
      LeafRequest.mode? l' = some (direction', rate') → direction' ≠ .idle →
      (modeRoles? direction' rate').isSome → (direction', rate') ≠ (direction, rate) →
      l'.adapt later = .error (.padConflict c.name direction rate direction' rate') later)

/-- Pads that are adapted in the first state are so in the second one. -/
def Remembers (b b' : Bridge) : Prop :=
  ∀ id done, Table.get? b.pads id = some done → Table.get? b'.pads id = some done

namespace Remembers

variable {a b c : Bridge} {leaves : List LeafRequest} {l : LeafRequest} {d : Capability}

theorem of_eq (h : b.pads = a.pads) : Remembers a b := fun _ _ kept => by rwa [h]

theorem trans (hab : Remembers a b) (hbc : Remembers b c) : Remembers a c :=
  fun id done kept => hbc id done (hab id done kept)

theorem reserved (remembers : Remembers b c) (collecting : c.phase = .collecting)
    (h : Owned a b leaves l d) : Reserved a c leaves l d := by
  obtain ⟨direction, rate, mode, owned⟩ := h
  refine ⟨direction, rate, mode, fun active => ?_⟩
  obtain ⟨kept, name⟩ := owned active
  refine ⟨name, fun l' direction' rate' samePad mode' active' supported different => ?_⟩
  exact LeafRequest.adapt_conflict collecting (samePad ▸ remembers _ _ kept) mode' active' supported
    different

end Remembers

/-- No operation forgets a pad. -/
theorem Remembers.spans : Build.Spans Remembers := by
  have admits : Admits Remembers := {
    refl _ := .of_eq rfl
    trans := .trans
    connection _ _ _ := .of_eq rfl
    host _ _ _ _ := .of_eq rfl
    guest _ _ _ := .of_eq rfl }
  refine { admits with
    fresh := admits.adaptFresh fun b p id done kept => ?_
    sealed := fun _ _ _ _ => .of_eq rfl
    spent := fun _ => .of_eq rfl
    finalized := fun _ _ => .of_eq rfl }
  rw [Table.get?_append, kept, Option.some_or]

end Bridge

namespace Build

open Bridge (Remembers memoryDirections memoryPads memoryRates)

variable {σ : Type} [Storage σ]

/-- Once a pad has been adapted the same request gives the same capability and changes nothing,
whatever has been done to the build in the meantime, as long as its bridge collects. A request
for the pad of one of its leaves in another mode changes nothing either, and is told the mode
that the leaf has and the first name of its pad. -/
theorem adaptation_is_for_good {s : Build σ} {name : String} {direction : Option DirectionSpec}
    {rate : Option RateSpec} {pads : Host.PadTree} {c : Capability} {adapted : Bridge}
    (h : Bridge.adapt name direction rate pads s.bridge = .ok c adapted) (actions : List (Action σ))
    (collecting : (run actions { s with bridge := adapted }).bridge.phase = .collecting) :
    let later := (run actions { s with bridge := adapted }).bridge
    let leaves := Bridge.LeafRequest.ofPad name direction rate pads
    Bridge.adapt name direction rate pads later = .ok c later ∧
      ∃ nodes, Bridge.MadeOf name pads nodes c ∧
        List.Forall₂ (Bridge.Reserved s.bridge later leaves) leaves nodes := by
  intro later leaves
  have remembers : Remembers adapted later := by
    refine Remembers.spans.run (fun a _ outside s => ?_) { s with bridge := adapted }
    cases a <;> first | exact .of_eq rfl | exact outside.elim
  obtain ⟨nodes, made, each⟩ := Bridge.adapt_nodes name direction rate pads h
  refine ⟨?_, nodes, made, ?_⟩
  · obtain ⟨keeps, again⟩ := Bridge.adapt_lasting name direction rate pads s.bridge c adapted h
    have before : adapted.phase = .collecting := keeps.phase.trans (Bridge.adapt_collecting h)
    exact again later ⟨collecting.trans before.symm, remembers⟩
  · exact (Bridge.LeafRequest.adaptEach_owned each).imp fun _ _ => remembers.reserved collecting

def memoryBuild : Build Disk := ⟨Bridge.memoryBridge, { board := {} }, {}⟩

/-- A domain is declared, a signal is added to the guest, and somebody else asks for the word of
the memory. -/
def meantime : List (Action Disk) := [.declareDomain "sys",
  .changeGuest fun m => (m.addSignal "r" .bit).2,
  .adapt "other" (some (.leaf .input)) none (.leaf ⟨⟨1⟩, 4, true⟩)]

theorem memory_is_adapted_for_good :
    let request := Bridge.adapt "pad_ram" (some (memoryDirections .output)) (some memoryRates)
      memoryPads
    let leaves := Bridge.LeafRequest.ofPad "pad_ram" (some (memoryDirections .output))
      (some memoryRates) memoryPads
    ∃ c adapted, request memoryBuild.bridge = .ok c adapted ∧
      let later := (run meantime { memoryBuild with bridge := adapted }).bridge
      later.phase = .collecting ∧ request later = .ok c later ∧
        ∃ nodes, Bridge.MadeOf "pad_ram" memoryPads nodes c ∧
          List.Forall₂ (Bridge.Reserved memoryBuild.bridge later leaves) leaves nodes := by
  intro request leaves
  have adapts : (match request memoryBuild.bridge with
      | .ok _ adapted => decide
        ((run meantime { memoryBuild with bridge := adapted }).bridge.phase = .collecting)
      | .error _ _ => false) = true := by decide +kernel
  split at adapts
  · rename_i c adapted h
    have collecting := of_decide_eq_true adapts
    exact ⟨c, adapted, h, collecting, adaptation_is_for_good h meantime collecting⟩
  · cases adapts

end Build

end NetBridge
