import NetBridge.Bridge.Build
import NetBridge.Proofs.Bridge.Leaf
import NetBridge.Proofs.Pad.Exposure

/-! # What adapted pads expose

The capability that a bridge makes for a pad has the members that the request exposes,
field by field, and a request that is refused is refused for that reason. -/
namespace NetBridge

open Exposure (Exposes Follows expose exposeFields named)

namespace Capability

mutual

/-- The signals of the leaves, in the form of the capability. -/
def tree : Capability → FieldTree (Table Role Guest.SignalId)
  | leaf _ _ signals => .leaf signals
  | group _ _ fields => .group (fieldTrees fields)

def fieldTrees :
    List (String × Capability) → List (String × FieldTree (Table Role Guest.SignalId))
  | [] => []
  | (name, c) :: rest => (name, c.tree) :: fieldTrees rest

end

/-- The name and the width of a guest signal. -/
def describe (s : Guest.Signal) : String × Nat := (s.name, s.shape.width)

/-- The members that a guest sees. -/
def exposed (m : Guest.Netlist) (c : Capability) : FieldTree Members :=
  c.tree.map (named describe m.signals)

end Capability

/-- What a bridge answers when it refuses. -/
def Refusal.bridgeError? : Refusal → Option BridgeError
  | missingMember node member => some (.missingMember node member)
  | specShape name => some (.specShape name)
  | unsupported mode => some (.unsupportedPad mode)
  | undirected => none

namespace Bridge

open Host (Pad PadTree)

/-- The part of a pad that its layout fixes. -/
def padShape (pad : Pad) : PadShape := ⟨pad.width, pad.inverted⟩

/-- From one state to the other some pads were adapted, and the tree of their signals
exposes what was expected. -/
structure Adapted (pads : List Pad) (b b' : Bridge) (t : FieldTree (Table Role Guest.SignalId))
    (expected : FieldTree Members) : Prop where
  grown : Grown b b'
  exposes : Exposes Capability.describe b'.guest.signals t expected
  pads : ∀ id ∈ b'.pads.keys, id ∈ b.pads.keys ∨ ∃ pad ∈ pads, pad.signal = id

/-- Pads that the platform has just handed out: their signals are as wide as declared,
there is one for each pad, and none of them has been adapted. -/
structure Untouched (b : Bridge) (pads : List Pad) : Prop where
  collecting : b.phase = .collecting
  stands : ∀ pad ∈ pads, b.host.Stands (.unsignedBits pad.width) pad.signal
  nodup : (pads.map (·.signal)).Nodup
  new : ∀ pad ∈ pads, pad.signal ∉ b.pads.keys

theorem Untouched.left {b : Bridge} {xs ys : List Pad} (h : Untouched b (xs ++ ys)) :
    Untouched b xs where
  collecting := h.collecting
  stands pad hpad := h.stands pad (List.mem_append_left ys hpad)
  nodup := (List.nodup_append.mp (by simpa using h.nodup)).1
  new pad hpad := h.new pad (List.mem_append_left ys hpad)

/-- Adapting the first pads leaves the others untouched. -/
theorem Untouched.right {b b' : Bridge} {xs ys : List Pad}
    {t : FieldTree (Table Role Guest.SignalId)} {expected : FieldTree Members}
    (h : Untouched b (xs ++ ys)) (adapted : Adapted xs b b' t expected) : Untouched b' ys where
  collecting := adapted.grown.phase.trans h.collecting
  stands pad hpad := (h.stands pad (List.mem_append_right xs hpad)).extends adapted.grown.host
  nodup := (List.nodup_append.mp (by simpa using h.nodup)).2.1
  new pad hpad hmem := by
    have apart : ∀ x ∈ xs, ∀ y ∈ ys, x.signal ≠ y.signal := by
      have nodup := h.nodup
      rw [List.map_append, List.nodup_append] at nodup
      exact fun x hx y hy => nodup.2.2 _ (List.mem_map_of_mem hx) _ (List.mem_map_of_mem hy)
    rcases adapted.pads _ hmem with old | ⟨x, hx, same⟩
    · exact h.new pad (List.mem_append_right xs hpad) old
    · exact apart x hx pad hpad same

section Leaf

variable {name : String} {pad : Pad} {b : Bridge}

theorem single_follows {α : Type} (spec : Option (Spec α)) :
    Follows Refusal.bridgeError? (fun value b' expected => b' = b ∧ value = expected)
      (single name spec b) (Exposure.single name spec) := by
  rw [single, Exposure.single]
  cases Spec.single? spec with
  | none => exact .error rfl
  | some value => exact .ok ⟨rfl, rfl⟩

theorem checkFields_follows {α : Type} (fields : List String) (spec : Option (Spec α)) :
    Follows Refusal.bridgeError? (fun _ b' _ => b' = b) (checkFields name fields spec b)
      (Exposure.checkFields name fields spec) := by
  rw [checkFields, Exposure.checkFields]
  cases Spec.strayField? spec fields with
  | none => exact .ok rfl
  | some field => exact .error rfl

/-- The signals that were imported for some roles are named after them. -/
theorem named_imported {b : Bridge} {site : PadSite} {signals : Table Role Guest.SignalId}
    (imported : ∀ p ∈ signals, Imported b site p) :
    named Capability.describe b.guest.signals (inRoleOrder signals) =
      Exposure.members site.name site.shape.width signals.keys := by
  refine Exposure.named_eq_members _ (keys_inRoleOrder signals) fun p hp => ?_
  obtain ⟨reset, hget⟩ := imported p (mem_inRoleOrder hp)
  rw [hget]
  rfl

theorem adaptLeaf_follows (untouched : Untouched b [pad]) (direction : Option Direction)
    (rate : Nat) :
    Follows Refusal.bridgeError?
      (fun c b' expected => Adapted [pad] b b' c.tree (.leaf expected) ∧ c.signature.Distinct)
      (adaptLeaf name pad (direction.getD .idle) rate b)
      (Exposure.leafMembers name pad.width rate direction) := by
  cases direction with
  | none => exact fun e he => nomatch he
  | some direction =>
    rw [Exposure.leafMembers, Option.getD_some]
    cases hroles : modeRoles direction rate with
    | error e =>
      rw [adaptLeaf_unsupported hroles]
      exact .error rfl
    | ok roles =>
      by_cases idle : roles = []
      · subst idle
        rw [adaptLeaf_idle hroles]
        refine .ok ⟨⟨.refl b, ⟨?_, rfl⟩, fun id h => .inl h⟩, List.nodup_nil, trivial⟩
        simp [Exposure.Allocated, Capability.tree, FieldTree.leaves]
      have new : Table.get? b.pads pad.signal = none :=
        Table.get?_eq_none_iff.mpr (untouched.new pad List.mem_cons_self)
      obtain ⟨hostName, hs⟩ := untouched.stands pad List.mem_cons_self
      obtain ⟨signals, b', hkeys, imported, -, grown, hpads, matched, hrun⟩ :=
        adaptFresh_run name untouched.collecting (modeRoles?_of_ok hroles) hs
      rw [adaptLeaf_fresh hroles idle new, hrun, matched rfl]
      refine .ok ⟨⟨⟨grown.phase, grown.host, grown.guest⟩, ⟨?_, ?_⟩, ?_⟩,
        Signature.distinct_ofRoles (modeRoles?_nodup (modeRoles?_of_ok hroles)) _⟩
      · intro t ht p hp
        obtain rfl := List.mem_singleton.mp ht
        obtain ⟨reset, hget⟩ := imported p (mem_inRoleOrder hp)
        exact Arena.contains_of_get? hget
      · exact congrArg FieldTree.leaf ((named_imported imported).trans (by rw [hkeys]; rfl))
      · intro id hid
        rw [hpads, Table.keys_append, List.mem_append] at hid
        exact hid.imp_right fun h => ⟨pad, List.mem_cons_self, (List.mem_singleton.mp h).symm⟩

end Leaf

theorem Adapted.trans {xs ys : List Pad} {b b₁ b₂ : Bridge} {name : String}
    {t : FieldTree (Table Role Guest.SignalId)} {expected : FieldTree Members}
    {ts : List (String × FieldTree (Table Role Guest.SignalId))}
    {expecteds : List (String × FieldTree Members)} (first : Adapted xs b b₁ t expected)
    (others : Adapted ys b₁ b₂ (.group ts) (.group expecteds)) :
    Adapted (xs ++ ys) b b₂ (.group ((name, t) :: ts)) (.group ((name, expected) :: expecteds)) where
  grown := first.grown.trans others.grown
  exposes := (first.exposes.extends _ others.grown.guest).cons _ others.exposes
  pads id h := by
    rcases others.pads id h with h | ⟨pad, hpad, rfl⟩
    · rcases first.pads id h with h | ⟨pad, hpad, rfl⟩
      · exact .inl h
      · exact .inr ⟨pad, List.mem_append_left ys hpad, rfl⟩
    · exact .inr ⟨pad, List.mem_append_right xs hpad, rfl⟩

/-- A group of capabilities passes its own check. -/
theorem checkGroup_ok {name : String} {children : List (String × Capability)} {b : Bridge}
    (distinct : ∀ p ∈ children, p.2.signature.Distinct) :
    let capability := Capability.group name
      (Table.ofPairs (children.map fun p => (p.1, .interface .outward p.2.signature))) children
    capability.signature.Distinct ∧ checkCapability capability b = .ok () b := by
  intro capability
  have signature : capability.signature.Distinct := by
    have signatures : ∀ p ∈ children.map (fun p => (p.1, p.2.signature)), p.2.Distinct := by
      intro p hp
      obtain ⟨q, hq, rfl⟩ := List.mem_map.mp hp
      exact distinct q hq
    have grouped := Signature.distinct_interfaces signatures
    rwa [List.map_map] at grouped
  refine ⟨signature, ?_⟩
  rw [checkCapability_run, Capability.mismatch?]
  have matched : capability.signature.difference? (capability.built b.guest) = none :=
    Signature.difference?_self signature
  rw [matched]

mutual

/-- Adapting untouched pads exposes what the request does. -/
theorem adapt_follows (name : String) (direction : Option DirectionSpec) (rate : Option RateSpec) :
    ∀ (pads : PadTree) {b : Bridge}, Untouched b pads.leaves →
      Follows Refusal.bridgeError?
        (fun c b' expected => Adapted pads.leaves b b' c.tree expected ∧ c.signature.Distinct)
        (adapt name direction rate pads b) (expose name direction rate (pads.map padShape))
  | .leaf pad, b, untouched => by
    rw [adapt, bind_of_ok (ensurePhase_ok untouched.collecting), FieldTree.map, expose]
    refine (single_follows direction).bind ?_
    rintro value _ expected ⟨rfl, rfl⟩
    refine (single_follows rate).bind ?_
    rintro value' _ expected ⟨rfl, rfl⟩
    exact (adaptLeaf_follows untouched value (value'.getD 0)).map fun _ _ _ h => h
  | .group fields, b, untouched => by
    rw [adapt, bind_of_ok (ensurePhase_ok untouched.collecting), FieldTree.map, expose,
      FieldTree.keys_mapFields]
    refine (checkFields_follows _ direction).bind ?_
    rintro - _ - rfl
    refine (checkFields_follows _ rate).bind ?_
    rintro - _ - rfl
    refine (adaptFields_follows name direction rate fields untouched).bind ?_
    rintro children b' trees ⟨adapted, distinct⟩
    obtain ⟨signature, checked⟩ := checkGroup_ok (b := b') distinct
    exact ⟨_, _, bind_of_ok checked, adapted, signature⟩

theorem adaptFields_follows (name : String) (direction : Option DirectionSpec)
    (rate : Option RateSpec) : ∀ (fields : List (String × PadTree)) {b : Bridge},
      Untouched b (FieldTree.fieldLeaves fields) →
      Follows Refusal.bridgeError?
        (fun children b' trees => Adapted (FieldTree.fieldLeaves fields) b b'
          (.group (Capability.fieldTrees children)) (.group trees) ∧
          ∀ p ∈ children, p.2.signature.Distinct)
        (adaptFields name direction rate fields b)
        (exposeFields name direction rate (FieldTree.mapFields padShape fields))
  | [], b, untouched => .ok ⟨⟨.refl b, .nil _ _, fun id h => .inl h⟩, by simp⟩
  | (field, pad) :: rest, b, untouched => by
    rw [adaptFields, FieldTree.mapFields, exposeFields]
    refine (adapt_follows _ _ _ pad (Untouched.left untouched)).bind ?_
    rintro child b₁ tree ⟨adapted, distinct⟩
    have others := adaptFields_follows name direction rate rest (untouched.right adapted)
    refine others.bind ?_
    rintro children b₂ trees ⟨adaptedRest, distinctRest⟩
    exact .ok ⟨adapted.trans adaptedRest, List.forall_mem_cons.mpr ⟨distinct, distinctRest⟩⟩

end

end Bridge

end NetBridge
