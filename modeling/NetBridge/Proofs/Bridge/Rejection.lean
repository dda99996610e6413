import NetBridge.Proofs.Bridge.Leaf
import NetBridge.Proofs.Bridge.Run

/-! # Rejected adaptations

An adaptation reaches the leaves of a pad one after the other, and stops at the first
one that is refused. The leaves before it are adapted for good: they can be asked for
again and nothing more is made for them. The refused leaf itself leaves nothing, unless
what was made for it fails its own check. -/
namespace NetBridge.Bridge

open Host (Pad PadTree)

/-- A leaf with what the request says about it. -/
structure LeafRequest where
  name : String
  pad : Pad
  direction : Option DirectionSpec
  rate : Option RateSpec

namespace LeafRequest

def adapt (l : LeafRequest) : BridgeM Capability :=
  Bridge.adapt l.name l.direction l.rate (.leaf l.pad)

/-- Adapts leaves in order. -/
def adaptEach : List LeafRequest → BridgeM (List Capability)
  | [] => return []
  | l :: rest => do
    let c ← l.adapt
    return c :: (← adaptEach rest)

mutual

/-- The leaves of a pad, in the order in which a request reaches them. -/
def ofPad (name : String) (direction : Option DirectionSpec) (rate : Option RateSpec) :
    PadTree → List LeafRequest
  | .leaf pad => [⟨name, pad, direction, rate⟩]
  | .group fields => ofFields name direction rate fields

def ofFields (name : String) (direction : Option DirectionSpec) (rate : Option RateSpec) :
    List (String × PadTree) → List LeafRequest
  | [] => []
  | (field, pad) :: rest =>
    ofPad s!"{name}_{field}" (Spec.forField direction field) (Spec.forField rate field) pad ++
      ofFields name direction rate rest

end

end LeafRequest

/-- The mode that is requested for a leaf, unless a spec is per field. -/
def LeafRequest.mode? (l : LeafRequest) : Option (Direction × Nat) := do
  return ((← Spec.single? l.direction).getD .idle, (← Spec.single? l.rate).getD 0)

theorem single_eq_ok {α : Type} {name : String} {spec : Option (Spec α)} {value : Option α}
    {b b' : Bridge} (h : single name spec b = .ok value b') : Spec.single? spec = some value ∧ b' = b := by
  rw [single] at h
  cases hspec : Spec.single? spec with
  | none =>
    rw [hspec] at h
    cases h
  | some v =>
    rw [hspec] at h
    obtain ⟨rfl, rfl⟩ := EStateM.Result.ok.inj h
    exact ⟨rfl, rfl⟩

namespace LeafRequest

variable {l : LeafRequest} {direction : Direction} {rate : Nat} {b b' : Bridge} {c : Capability}

theorem mode?_eq_some_iff : l.mode? = some (direction, rate) ↔ ∃ d r,
    Spec.single? l.direction = some d ∧ Spec.single? l.rate = some r ∧
      d.getD .idle = direction ∧ r.getD 0 = rate := by
  simp [mode?, Option.bind_eq_some_iff]

theorem adapt_run (mode : l.mode? = some (direction, rate)) (collecting : b.phase = .collecting) :
    l.adapt b = adaptLeaf l.name l.pad direction rate b := by
  obtain ⟨d, r, hd, hr, rfl, rfl⟩ := mode?_eq_some_iff.mp mode
  rw [adapt, Bridge.adapt, bind_of_ok (ensurePhase_ok collecting), single, hd, single, hr]
  exact (bind_of_ok rfl).trans (bind_of_ok rfl)

theorem adapt_eq_ok (h : l.adapt b = .ok c b') : b.phase = .collecting ∧ ∃ direction rate,
    l.mode? = some (direction, rate) ∧ adaptLeaf l.name l.pad direction rate b = .ok c b' := by
  rw [adapt, Bridge.adapt] at h
  obtain ⟨_, _, started, afterPhase⟩ := bind_eq_ok.mp h
  obtain ⟨collecting, rfl⟩ := ensurePhase_eq_ok started
  obtain ⟨d, _, gotDirection, afterDirection⟩ := bind_eq_ok.mp afterPhase
  obtain ⟨hd, rfl⟩ := single_eq_ok gotDirection
  obtain ⟨r, _, gotRate, adapted⟩ := bind_eq_ok.mp afterDirection
  obtain ⟨hr, rfl⟩ := single_eq_ok gotRate
  exact ⟨collecting, _, _, mode?_eq_some_iff.mpr ⟨d, r, hd, hr, rfl, rfl⟩, adapted⟩

end LeafRequest

/-- Pads that were adapted are still adapted in the same way. -/
structure Keeps (b b' : Bridge) : Prop where
  phase : b'.phase = b.phase
  pads : ∀ id done, Table.get? b.pads id = some done → Table.get? b'.pads id = some done

theorem Keeps.refl (b : Bridge) : Keeps b b := ⟨rfl, fun _ _ h => h⟩

theorem Keeps.trans {a b c : Bridge} (hab : Keeps a b) (hbc : Keeps b c) : Keeps a c :=
  ⟨hbc.phase.trans hab.phase, fun id done h => hbc.pads id done (hab.pads id done h)⟩

/-- The pad is not as wide as the host signal behind it. It has been equipped for the mode, and
nothing is kept for it. -/
def Abandoned (name : String) (pad : Pad) (direction : Direction) (rate : Nat) (b b' : Bridge) :
    Prop :=
  ∃ s roles, b.host.signal? pad.signal = some s ∧ pad.width ≠ s.shape.width ∧
    pad.signal ∉ b.pads.keys ∧ modeRoles? direction rate = some roles ∧
    Equips ⟨name, pad.signal, s.shape⟩ pad.inverted direction rate roles b b'

theorem Abandoned.pads {name : String} {pad : Pad} {direction : Direction} {rate : Nat}
    {b b' : Bridge} (h : Abandoned name pad direction rate b b') : b'.pads = b.pads := by
  obtain ⟨s, roles, -, -, -, -, equips⟩ := h
  exact equips.pads

/-- What a refused leaf leaves: the bridge as it was, or, if the leaf failed the check of its own
signature, the bridge where it has been abandoned. -/
def Refused (name : String) (pad : Pad) (mode : Option (Direction × Nat)) (e : BridgeError)
    (b b' : Bridge) : Prop :=
  b' = b ∨ (∃ detail, e = .signatureMismatch name detail) ∧
    ∃ direction rate, mode = some (direction, rate) ∧ Abandoned name pad direction rate b b'

theorem Refused.keeps {name : String} {pad : Pad} {mode : Option (Direction × Nat)}
    {e : BridgeError} {b b' : Bridge} (h : Refused name pad mode e b b') : Keeps b b' := by
  rcases h with rfl | ⟨-, direction, rate, -, s, roles, -, -, -, -, equips⟩
  · exact .refl _
  · exact ⟨equips.grown.phase, fun id done h => by rwa [equips.pads]⟩

/-- An operation succeeds, and from then on answers alike and changes nothing. Or it is
refused. -/
def Settles {α : Type} (x : BridgeM α) (refused : BridgeError → Bridge → Bridge → Prop)
    (b : Bridge) : Prop :=
  (∃ a b', x b = .ok a b' ∧ Keeps b b' ∧ ∀ later, Keeps b' later → x later = .ok a later) ∨
  ∃ e b', x b = .error e b' ∧ refused e b b'

section Leaf

variable (name : String) (pad : Pad) {b : Bridge}

theorem adaptLeaf_settles (direction : Direction) (rate : Nat) (collecting : b.phase = .collecting) :
    Settles (adaptLeaf name pad direction rate) (Refused name pad (some (direction, rate))) b := by
  cases hroles : modeRoles direction rate with
  | error e => exact .inr ⟨_, b, adaptLeaf_unsupported hroles, .inl rfl⟩
  | ok roles =>
    by_cases idle : roles = []
    · subst idle
      exact .inl ⟨_, b, adaptLeaf_idle hroles, .refl b, fun later _ => adaptLeaf_idle hroles⟩
    cases hpad : Table.get? b.pads pad.signal with
    | some done =>
      have cached : ∀ later : Bridge, Table.get? later.pads pad.signal = some done →
          adaptLeaf name pad direction rate later = if done.direction = direction ∧ done.rate = rate
            then .ok done.capability later
            else .error (.padConflict done.capability.name done.direction done.rate direction rate)
              later :=
        fun later old => adaptLeaf_cached hroles idle old
      by_cases same : done.direction = direction ∧ done.rate = rate
      · refine .inl ⟨done.capability, b, (cached b hpad).trans (if_pos same), .refl b, ?_⟩
        exact fun later keeps => (cached later (keeps.pads _ _ hpad)).trans (if_pos same)
      · exact .inr ⟨_, b, (cached b hpad).trans (if_neg same), .inl rfl⟩
    | none =>
      have fresh : adaptLeaf name pad direction rate b = adaptFresh name pad direction rate roles b :=
        adaptLeaf_fresh hroles idle hpad
      cases hs : b.host.signal? pad.signal with
      | none => exact .inr ⟨_, b, fresh.trans (adaptFresh_unallocated name hs), .inl rfl⟩
      | some s =>
        have known := modeRoles?_of_ok hroles
        obtain ⟨b', equips, hrun⟩ := adaptFresh_equips name collecting known hs
        dsimp only at hrun
        set capability := Capability.leaf name (.ofRoles roles ⟨pad.width, s.shape.signed⟩)
          (inRoleOrder (b.roleSignals roles))
        cases hm : capability.mismatch? b'.guest with
        | some detail =>
          rw [hm] at hrun
          refine .inr ⟨_, b', fresh.trans hrun, .inr ⟨⟨detail, rfl⟩, direction, rate, rfl, s, roles,
            hs, fun width => ?_, Table.get?_eq_none_iff.mp hpad, known, equips⟩⟩
          cases (equips.matched name known width).symm.trans hm
        | none =>
          rw [hm] at hrun
          have kept : ∀ id done, Table.get? b.pads id = some done →
              Table.get? (b'.pads ++ [(pad.signal, ⟨direction, rate, capability⟩)]) id =
                some done := by
            intro id done h
            rw [equips.pads, Table.get?_append, h, Option.some_or]
          have added : Table.get? (b'.pads ++ [(pad.signal, ⟨direction, rate, capability⟩)])
              pad.signal = some ⟨direction, rate, capability⟩ := by
            rw [equips.pads, Table.get?_append, hpad]
            simp [Table.get?]
          refine .inl ⟨capability, _, fresh.trans hrun, ⟨equips.grown.phase, kept⟩,
            fun later keeps => ?_⟩
          exact (adaptLeaf_cached hroles idle (keeps.pads _ _ added)).trans (if_pos ⟨rfl, rfl⟩)

/-- The spec of a leaf is looked at before the pad is. -/
theorem adapt_leaf_settles (direction : Option DirectionSpec) (rate : Option RateSpec)
    (collecting : b.phase = .collecting) :
    let l : LeafRequest := ⟨name, pad, direction, rate⟩
    Settles (adapt name direction rate (.leaf pad)) (Refused name pad l.mode?) b := by
  intro l
  have specShape : ∀ {x : BridgeM Capability}, x b = .error (.specShape name) b →
      Settles x (Refused name pad l.mode?) b := fun h => .inr ⟨_, b, h, .inl rfl⟩
  cases hd : Spec.single? direction with
  | none =>
    apply specShape
    rw [adapt, bind_of_ok (ensurePhase_ok collecting), single, hd]
    exact bind_of_error rfl
  | some d =>
    cases hr : Spec.single? rate with
    | none =>
      apply specShape
      rw [adapt, bind_of_ok (ensurePhase_ok collecting), single, hd, single, hr]
      exact (bind_of_ok rfl).trans (bind_of_error rfl)
    | some r =>
      have mode : l.mode? = some (d.getD .idle, r.getD 0) :=
        LeafRequest.mode?_eq_some_iff.mpr ⟨d, r, hd, hr, rfl, rfl⟩
      have run (c : Bridge) (hc : c.phase = .collecting) : adapt name direction rate (.leaf pad) c =
          adaptLeaf name pad (d.getD .idle) (r.getD 0) c := LeafRequest.adapt_run mode hc
      rw [mode]
      rcases adaptLeaf_settles name pad (d.getD .idle) (r.getD 0) collecting with
        ⟨c, b', hrun, keeps, settled⟩ | ⟨e, b', hrun, refused⟩
      · refine .inl ⟨c, b', (run b collecting).trans hrun, keeps, fun later hlater => ?_⟩
        have still : later.phase = .collecting := (hlater.phase.trans keeps.phase).trans collecting
        exact (run later still).trans (settled later hlater)
      · exact .inr ⟨e, b', (run b collecting).trans hrun, refused⟩

end Leaf

namespace LeafRequest

theorem adaptEach_cons {l : LeafRequest} {rest : List LeafRequest} {c : Capability}
    {cs : List Capability} {b b₁ b₂ : Bridge} (first : l.adapt b = .ok c b₁)
    (others : adaptEach rest b₁ = .ok cs b₂) : adaptEach (l :: rest) b = .ok (c :: cs) b₂ := by
  rw [adaptEach, bind_of_ok first, bind_of_ok others]
  rfl

theorem adaptEach_append_eq (xs ys : List LeafRequest) :
    adaptEach (xs ++ ys) = do
      let cs ← adaptEach xs
      let ds ← adaptEach ys
      return cs ++ ds := by
  induction xs with
  | nil => simp [adaptEach]
  | cons l rest ih => simp [adaptEach, ih]

theorem adaptEach_append {xs ys : List LeafRequest} {cs ds : List Capability} {b b₁ b₂ : Bridge}
    (first : adaptEach xs b = .ok cs b₁) (second : adaptEach ys b₁ = .ok ds b₂) :
    adaptEach (xs ++ ys) b = .ok (cs ++ ds) b₂ := by
  rw [adaptEach_append_eq, bind_of_ok first, bind_of_ok second]
  rfl

/-- Leaves that have been adapted give the same capabilities again, for nothing. -/
theorem adaptEach_settles {ls : List LeafRequest} {cs : List Capability} {b b' : Bridge}
    (collecting : b.phase = .collecting) (h : adaptEach ls b = .ok cs b') :
    Keeps b b' ∧ ∀ later, Keeps b' later → adaptEach ls later = .ok cs later := by
  induction ls generalizing cs b with
  | nil =>
    obtain ⟨rfl, rfl⟩ := EStateM.Result.ok.inj h
    exact ⟨.refl _, fun _ _ => rfl⟩
  | cons l rest ih =>
    obtain ⟨c, u, hl, hrest⟩ := bind_eq_ok.mp h
    obtain ⟨cs', v, hcs, hpure⟩ := bind_eq_ok.mp hrest
    obtain ⟨rfl, rfl⟩ := EStateM.Result.ok.inj hpure
    rcases adapt_leaf_settles l.name l.pad l.direction l.rate collecting with
      ⟨c', u', hrun, keeps, settled⟩ | ⟨e, u', hrun, -⟩
    · obtain ⟨rfl, rfl⟩ := EStateM.Result.ok.inj (hrun.symm.trans hl)
      obtain ⟨keepsRest, settledRest⟩ := ih (keeps.phase.trans collecting) hcs
      refine ⟨keeps.trans keepsRest, fun later hlater => ?_⟩
      exact adaptEach_cons (settled later (keepsRest.trans hlater)) (settledRest later hlater)
    · cases hrun.symm.trans hl

end LeafRequest

open LeafRequest (adaptEach)

/-- An operation adapts some leaves in order, or stops among them: what it then leaves is
what the leaves before left, or what the next leaf left when it was refused. -/
def Stops {α : Type} (leaves : List LeafRequest) (b : Bridge) :
    EStateM.Result BridgeError Bridge α → Prop
  | .ok _ b' => ∃ cs, adaptEach leaves b = .ok cs b'
  | .error e b' => ∃ done rest cs c, leaves = done ++ rest ∧ adaptEach done b = .ok cs c ∧
      (b' = c ∨ ∃ l more, rest = l :: more ∧ Refused l.name l.pad l.mode? e c b')

namespace Stops

variable {α β : Type} {x : BridgeM α} {f : α → BridgeM β} {xs ys : List LeafRequest} {b : Bridge}

/-- Stopping before any of the leaves. -/
theorem none (e : BridgeError) : Stops xs b (.error e b : EStateM.Result BridgeError Bridge α) :=
  ⟨[], xs, [], b, rfl, rfl, .inl rfl⟩

theorem bind (hx : Stops xs b (x b)) (hf : ∀ a c, x b = .ok a c → Stops ys c (f a c)) :
    Stops (xs ++ ys) b ((x >>= f) b) := by
  cases h : x b with
  | error e b' =>
    rw [h] at hx
    obtain ⟨done, rest, cs, c, rfl, hdone, left⟩ := hx
    rw [bind_of_error h]
    refine ⟨done, rest ++ ys, cs, c, List.append_assoc .., hdone, left.imp_right ?_⟩
    rintro ⟨l, more, rfl, refused⟩
    exact ⟨l, more ++ ys, rfl, refused⟩
  | ok a c =>
    rw [h] at hx
    obtain ⟨cs, hcs⟩ := hx
    have next := hf a c h
    rw [bind_of_ok h]
    cases hy : f a c with
    | ok a' b' =>
      rw [hy] at next
      obtain ⟨ds, hds⟩ := next
      exact ⟨_, LeafRequest.adaptEach_append hcs hds⟩
    | error e b' =>
      rw [hy] at next
      obtain ⟨done, rest, ds, d, rfl, hdone, left⟩ := next
      exact ⟨xs ++ done, rest, _, d, (List.append_assoc ..).symm,
        LeafRequest.adaptEach_append hcs hdone, left⟩

theorem bind_nil (hx : Stops xs b (x b)) (hf : ∀ a c, x b = .ok a c → Stops [] c (f a c)) :
    Stops xs b ((x >>= f) b) := by
  have both := bind hx hf
  rwa [List.append_nil] at both

/-- A check that adapts nothing and leaves the bridge alone comes first. -/
theorem after_check {u : BridgeM Unit} {f : Unit → BridgeM β}
    (hu : u b = .ok () b ∨ ∃ e, u b = .error e b) (hf : Stops ys b (f () b)) :
    Stops ys b ((u >>= f) b) := by
  rcases hu with h | ⟨e, h⟩
  · rwa [bind_of_ok h]
  · rw [bind_of_error h]
    exact none e

end Stops

theorem checkFields_run {α : Type} (name : String) (fields : List String)
    (spec : Option (Spec α)) (b : Bridge) :
    checkFields name fields spec b = .ok () b ∨ ∃ e, checkFields name fields spec b = .error e b := by
  rw [checkFields]
  cases Spec.strayField? spec fields with
  | none => exact .inl rfl
  | some field => exact .inr ⟨_, rfl⟩

theorem checkCapability_checks (c : Capability) (b : Bridge) :
    checkCapability c b = .ok () b ∨ ∃ e, checkCapability c b = .error e b := by
  rw [checkCapability_run]
  cases c.mismatch? b.guest with
  | none => exact .inl rfl
  | some detail => exact .inr ⟨_, rfl⟩

mutual

/-- The state of a collecting bridge after an adaptation, by the leaves of the pad. -/
theorem adapt_stops (name : String) (direction : Option DirectionSpec) (rate : Option RateSpec) :
    ∀ (pads : PadTree) {b : Bridge}, b.phase = .collecting →
      Stops (LeafRequest.ofPad name direction rate pads) b (adapt name direction rate pads b)
  | .leaf pad, b, collecting => by
    rcases adapt_leaf_settles name pad direction rate collecting with
      ⟨c, b', hrun, -, -⟩ | ⟨e, b', hrun, refused⟩
    · rw [hrun]
      exact ⟨[c], LeafRequest.adaptEach_cons (l := ⟨name, pad, direction, rate⟩) hrun rfl⟩
    · rw [hrun]
      exact ⟨[], _, [], b, rfl, rfl, .inr ⟨_, [], rfl, refused⟩⟩
  | .group fields, b, collecting => by
    rw [adapt, bind_of_ok (ensurePhase_ok collecting), LeafRequest.ofPad]
    refine Stops.after_check (checkFields_run ..) ?_
    refine Stops.after_check (checkFields_run ..) ?_
    refine (adaptFields_stops name direction rate fields collecting).bind_nil fun children c _ => ?_
    exact Stops.after_check (checkCapability_checks ..) ⟨[], rfl⟩

theorem adaptFields_stops (name : String) (direction : Option DirectionSpec)
    (rate : Option RateSpec) : ∀ (fields : List (String × PadTree)) {b : Bridge},
      b.phase = .collecting →
      Stops (LeafRequest.ofFields name direction rate fields) b (adaptFields name direction rate fields b)
  | [], _, _ => ⟨[], rfl⟩
  | (field, pad) :: rest, b, collecting => by
    rw [adaptFields, LeafRequest.ofFields]
    have first := adapt_stops s!"{name}_{field}" (Spec.forField direction field)
      (Spec.forField rate field) pad collecting
    refine first.bind fun child c hchild => ?_
    have still : c.phase = .collecting := by
      rw [hchild] at first
      obtain ⟨cs, hcs⟩ := first
      exact (LeafRequest.adaptEach_settles collecting hcs).1.phase.trans collecting
    exact (adaptFields_stops name direction rate rest still).bind_nil fun _ _ _ => ⟨[], rfl⟩

end

end NetBridge.Bridge
