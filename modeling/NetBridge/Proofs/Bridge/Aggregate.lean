import NetBridge.Proofs.Bridge.Exposure
import NetBridge.Proofs.Bridge.Signatures
import NetBridge.Proofs.Pad.Path

/-! # Adapting an aggregate

Adapting a pad with fields does to a bridge what adapting its leaves does, one after the
other: the specs are followed to each leaf, and the groups around the leaves change nothing. -/
namespace NetBridge

section Outcomes

variable {ε σ α β α' β' : Type}

/-- Two runs end in one state, with values that are related in it or with one error. -/
def SameOutcome (related : α → β → σ → Prop) (r : EStateM.Result ε σ α)
    (r' : EStateM.Result ε σ β) : Prop :=
  (∃ a b s, r = .ok a s ∧ r' = .ok b s ∧ related a b s) ∨ ∃ e s, r = .error e s ∧ r' = .error e s

namespace SameOutcome

theorem ok {related : α → β → σ → Prop} {a : α} {b : β} {s : σ} (h : related a b s) :
    SameOutcome (ε := ε) related (.ok a s) (.ok b s) := .inl ⟨a, b, s, rfl, rfl, h⟩

theorem bind {x : EStateM ε σ α} {y : EStateM ε σ β} {f : α → EStateM ε σ α'}
    {g : β → EStateM ε σ β'} {related : α → β → σ → Prop} {related' : α' → β' → σ → Prop} {s : σ}
    (h : SameOutcome related (x s) (y s))
    (next : ∀ a b t, related a b t → SameOutcome related' (f a t) (g b t)) :
    SameOutcome related' ((x >>= f) s) ((y >>= g) s) := by
  rcases h with ⟨a, b, t, hx, hy, both⟩ | ⟨e, t, hx, hy⟩
  · rw [bind_of_ok hx, bind_of_ok hy]
    exact next a b t both
  · exact .inr ⟨e, t, bind_of_error hx, bind_of_error hy⟩

theorem mono {related related' : α → β → σ → Prop} {r : EStateM.Result ε σ α}
    {r' : EStateM.Result ε σ β} (h : SameOutcome related r r')
    (weaker : ∀ a b s, related a b s → related' a b s) : SameOutcome related' r r' :=
  h.imp_left fun ⟨a, b, s, hr, hr', both⟩ => ⟨a, b, s, hr, hr', weaker a b s both⟩

end SameOutcome

end Outcomes

namespace Bridge

open Host (Pad PadTree)
open LeafRequest (adaptEach ofPad ofFields)

namespace LeafRequest

/-- The leaf at the end of a field path, called after the path, with the values that the
specs have for it. -/
def atPath (name : String) (direction : Option DirectionSpec) (rate : Option RateSpec)
    (p : List String × Pad) : LeafRequest where
  name := p.1.foldl (fun name field => s!"{name}_{field}") name
  pad := p.2
  direction := (Spec.valueAt direction p.1).map .leaf
  rate := (Spec.valueAt rate p.1).map .leaf

theorem atPath_cons (name field : String) (direction : Option DirectionSpec)
    (rate : Option RateSpec) (path : List String) (pad : Pad) :
    atPath name direction rate (field :: path, pad) = atPath s!"{name}_{field}"
      (Spec.forField direction field) (Spec.forField rate field) (path, pad) := by
  simp only [atPath, Spec.valueAt_cons, List.foldl_cons]

mutual

/-- Well-shaped specs hand down to a leaf the values at the end of its path. -/
theorem ofPad_eq (name : String) {direction : Option DirectionSpec} {rate : Option RateSpec} :
    ∀ {pads : PadTree}, Spec.WellShaped direction pads → Spec.WellShaped rate pads →
      ofPad name direction rate pads = pads.paths.map (atPath name direction rate)
  | .leaf pad, hd, hr => by
    rw [ofPad, FieldTree.paths, List.map_singleton, atPath, hd.at_leaf, hr.at_leaf]
    rfl
  | .group fields, hd, hr => ofFields_eq name (fun _ => hd.forField) (fun _ => hr.forField)

theorem ofFields_eq (name : String) {direction : Option DirectionSpec} {rate : Option RateSpec} :
    ∀ {fields : List (String × PadTree)},
      (∀ p ∈ fields, Spec.WellShaped (Spec.forField direction p.1) p.2) →
      (∀ p ∈ fields, Spec.WellShaped (Spec.forField rate p.1) p.2) →
      ofFields name direction rate fields =
        (FieldTree.fieldPaths fields).map (atPath name direction rate)
  | [], _, _ => rfl
  | (field, pad) :: rest, hd, hr => by
    obtain ⟨dHere, dRest⟩ := List.forall_mem_cons.mp hd
    obtain ⟨rHere, rRest⟩ := List.forall_mem_cons.mp hr
    rw [ofFields, ofPad_eq _ dHere rHere, ofFields_eq name dRest rRest, FieldTree.fieldPaths,
      List.map_append, List.map_map]
    exact congrArg (· ++ _) (List.map_congr_left fun p _ =>
      (atPath_cons name field direction rate p.1 p.2).symm)

end

end LeafRequest

mutual

/-- The capability has the form of the pad, with the given nodes for its leaves. The signature
of a group has the signatures of its fields as interfaces. -/
inductive MadeOf : String → PadTree → List Capability → Capability → Prop
  | leaf {name : String} {pad : Pad} {c : Capability} : MadeOf name (.leaf pad) [c] c
  | group {name : String} {fields : List (String × PadTree)} {nodes : List Capability}
    {children : List (String × Capability)} : FieldsMadeOf name fields nodes children →
    MadeOf name (.group fields) nodes (.group name
      (Table.ofPairs (children.map fun p => (p.1, .interface .outward p.2.signature))) children)

inductive FieldsMadeOf : String → List (String × PadTree) → List Capability →
    List (String × Capability) → Prop
  | nil {name : String} : FieldsMadeOf name [] [] []
  | cons {name field : String} {pad : PadTree} {rest : List (String × PadTree)}
    {nodes others : List Capability} {c : Capability} {children : List (String × Capability)} :
    MadeOf s!"{name}_{field}" pad nodes c → FieldsMadeOf name rest others children →
    FieldsMadeOf name ((field, pad) :: rest) (nodes ++ others) ((field, c) :: children)

end

theorem checkFields_ok {α β : Type} (name : String) {fields : List (String × FieldTree β)}
    {spec : Option (Spec α)} (h : Spec.WellShaped spec (.group fields)) (b : Bridge) :
    checkFields name (Table.keys fields) spec b = .ok () b := by
  rw [checkFields, h.no_stray]
  rfl

mutual

/-- The groups of a pad change nothing and add no errors to those of its leaves. -/
theorem adapt_leaves (name : String) {direction : Option DirectionSpec} {rate : Option RateSpec} :
    ∀ {pads : PadTree}, Spec.WellShaped direction pads → Spec.WellShaped rate pads →
      ∀ {b : Bridge}, Ready b →
      SameOutcome (fun cs c b' => MadeOf name pads cs c ∧ c.signature.Distinct ∧ Ready b')
        (adaptEach (ofPad name direction rate pads) b) (adapt name direction rate pads b)
  | .leaf pad, _, _, b, ready => by
    let l : LeafRequest := ⟨name, pad, direction, rate⟩
    change SameOutcome _ (adaptEach [l] b) (l.adapt b)
    cases hl : l.adapt b with
    | ok c b' =>
      rw [LeafRequest.adaptEach_cons hl rfl]
      exact .ok ⟨.leaf, LeafRequest.adapt_ready ready hl⟩
    | error e b' => exact .inr ⟨e, b', bind_of_error hl, rfl⟩
  | .group fields, hd, hr, b, ready => by
    rw [adapt, bind_of_ok (ensurePhase_ok ready.collecting), bind_of_ok (checkFields_ok name hd b),
      bind_of_ok (checkFields_ok name hr b), ofPad, ← bind_pure (adaptEach _)]
    have children := adaptFields_leaves name (fun _ => hd.forField) (fun _ => hr.forField) ready
    refine children.bind fun nodes children b' ⟨made, distinct, still⟩ => ?_
    -- What was declared for the group is what was built, so its check cannot fail.
    obtain ⟨signature, checked⟩ := checkGroup_ok (b := b') distinct
    rw [bind_of_ok checked]
    exact .ok ⟨.group made, signature, still⟩

theorem adaptFields_leaves (name : String) {direction : Option DirectionSpec}
    {rate : Option RateSpec} : ∀ {fields : List (String × PadTree)},
      (∀ p ∈ fields, Spec.WellShaped (Spec.forField direction p.1) p.2) →
      (∀ p ∈ fields, Spec.WellShaped (Spec.forField rate p.1) p.2) →
      ∀ {b : Bridge}, Ready b →
      SameOutcome (fun cs children b' => FieldsMadeOf name fields cs children ∧
          (∀ p ∈ children, p.2.signature.Distinct) ∧ Ready b')
        (adaptEach (ofFields name direction rate fields) b)
        (adaptFields name direction rate fields b)
  | [], _, _, b, ready => .ok ⟨.nil, by simp, ready⟩
  | (field, pad) :: rest, hd, hr, b, ready => by
    obtain ⟨dHere, dRest⟩ := List.forall_mem_cons.mp hd
    obtain ⟨rHere, rRest⟩ := List.forall_mem_cons.mp hr
    rw [ofFields, LeafRequest.adaptEach_append_eq, adaptFields]
    refine (adapt_leaves _ dHere rHere ready).bind fun nodes c b' ⟨made, distinct, still⟩ => ?_
    refine (adaptFields_leaves name dRest rRest still).bind fun others children b'' h => ?_
    obtain ⟨madeRest, distinctRest, ready'⟩ := h
    exact .ok ⟨.cons made madeRest, List.forall_mem_cons.mpr ⟨distinct, distinctRest⟩, ready'⟩

end

/-- Adapting a pad does to a collecting bridge what adapting its leaves one after the other
does, in the order of the layout, each under the name of its field path and with the values
that the specs have there: the bridge is left in the same state, and the same error comes
back if a leaf is refused. Otherwise the capability has the form of the pad and the nodes of
its leaves. -/
theorem adapt_is_adapting_leaves (name : String) {direction : Option DirectionSpec}
    {rate : Option RateSpec} {pads : PadTree} (shapedDirection : Spec.WellShaped direction pads)
    (shapedRate : Spec.WellShaped rate pads) {b : Bridge} (collecting : b.phase = .collecting)
    (signatures : b.DistinctSignatures) :
    SameOutcome (fun nodes c _ => MadeOf name pads nodes c)
      (adaptEach (pads.paths.map (LeafRequest.atPath name direction rate)) b)
      (adapt name direction rate pads b) := by
  rw [← LeafRequest.ofPad_eq name shapedDirection shapedRate]
  exact (adapt_leaves name shapedDirection shapedRate ⟨collecting, signatures⟩).mono
    fun _ _ _ h => h.1

/-- Nothing has to be known of the signatures in a bridge that started without adapted pads,
whatever has been done to it. -/
theorem run_adapts_leaves (name : String) {direction : Option DirectionSpec}
    {rate : Option RateSpec} {pads : PadTree} (shapedDirection : Spec.WellShaped direction pads)
    (shapedRate : Spec.WellShaped rate pads) {b : Bridge} (unused : b.pads = [])
    (actions : List Action) (collecting : (run actions b).phase = .collecting) :
    SameOutcome (fun nodes c _ => MadeOf name pads nodes c)
      (adaptEach (pads.paths.map (LeafRequest.atPath name direction rate)) (run actions b))
      (adapt name direction rate pads (run actions b)) := by
  have start : b.DistinctSignatures := by simp [DistinctSignatures, unused]
  rw [← LeafRequest.ofPad_eq name shapedDirection shapedRate]
  exact (adapt_leaves name shapedDirection shapedRate ⟨collecting, start.run actions⟩).mono
    fun _ _ _ h => h.1

/-- A clock and a bus of a bidirectional word and two fields that share a pad. -/
def memoryBridge : Bridge where
  name := "core"
  host := {
    name := "top"
    signals := ⟨#[⟨"clk", .bit⟩, ⟨"q", .unsignedBits 4⟩, ⟨"m", .bit⟩]⟩ }

def memoryPads : PadTree := .group [("clk", .leaf ⟨⟨0⟩, 1, false⟩), ("bus", .group
  [("q", .leaf ⟨⟨1⟩, 4, true⟩), ("lo", .leaf ⟨⟨2⟩, 1, false⟩), ("hi", .leaf ⟨⟨2⟩, 1, false⟩)])]

def memoryDirections (hi : Direction) : DirectionSpec := .group [("clk", .leaf .output), ("bus",
  .group [("q", .leaf .inout), ("lo", .leaf .output), ("hi", .leaf hi)])]

/-- Only the word has a rate. -/
def memoryRates : RateSpec := .group [("bus", .group [("q", .leaf 1)])]

theorem memoryDirections_shaped (hi : Direction) :
    Spec.WellShaped (some (memoryDirections hi)) memoryPads := by
  refine .perField (by simp [Table.keys]) (List.forall_mem_cons.mpr
    ⟨.uniform, List.forall_mem_singleton.mpr (.perField (by simp [Table.keys]) ?_)⟩)
  exact List.forall_mem_cons.mpr ⟨.uniform, List.forall_mem_cons.mpr
    ⟨.uniform, List.forall_mem_singleton.mpr .uniform⟩⟩

theorem memoryRates_shaped : Spec.WellShaped (some memoryRates) memoryPads := by
  refine .perField (by simp [Table.keys]) (List.forall_mem_cons.mpr
    ⟨.absent, List.forall_mem_singleton.mpr (.perField (by simp [Table.keys]) ?_)⟩)
  exact List.forall_mem_cons.mpr ⟨.uniform, List.forall_mem_cons.mpr
    ⟨.absent, List.forall_mem_singleton.mpr .absent⟩⟩

def memoryLeaves (hi : Direction) : List LeafRequest :=
  memoryPads.paths.map
    (LeafRequest.atPath "pad_ram" (some (memoryDirections hi)) (some memoryRates))

/-- The four leaves are three pads, as two fields share one. If these disagree, the second one
is refused in either way of adapting them. -/
theorem memory_is_adapted_by_leaves : memoryBridge.phase = .collecting ∧
    memoryBridge.DistinctSignatures ∧
    (∃ nodes c b', adaptEach (memoryLeaves .output) memoryBridge = .ok nodes b' ∧
      adapt "pad_ram" (some (memoryDirections .output)) (some memoryRates) memoryPads memoryBridge =
        .ok c b' ∧
      MadeOf "pad_ram" memoryPads nodes c ∧ nodes.length = 4 ∧ b'.pads.length = 3) ∧
    ∃ e b', adaptEach (memoryLeaves .input) memoryBridge = .error e b' ∧
      adapt "pad_ram" (some (memoryDirections .input)) (some memoryRates) memoryPads memoryBridge =
        .error e b' := by
  have signatures : memoryBridge.DistinctSignatures := by simp [DistinctSignatures, memoryBridge]
  have same : ∀ hi, SameOutcome (fun nodes c _ => MadeOf "pad_ram" memoryPads nodes c)
      (adaptEach (memoryLeaves hi) memoryBridge)
      (adapt "pad_ram" (some (memoryDirections hi)) (some memoryRates) memoryPads memoryBridge) :=
    fun hi => adapt_is_adapting_leaves "pad_ram" (memoryDirections_shaped hi) memoryRates_shaped rfl
      signatures
  refine ⟨rfl, signatures, ?_, ?_⟩
  · have sizes : (match adaptEach (memoryLeaves .output) memoryBridge with
        | .ok nodes b' => decide (nodes.length = 4 ∧ b'.pads.length = 3)
        | .error _ _ => false) = true := by decide +kernel
    rcases same .output with ⟨nodes, c, b', leaves, whole, made⟩ | ⟨e, b', leaves, -⟩
    · rw [leaves] at sizes
      exact ⟨nodes, c, b', leaves, whole, made, of_decide_eq_true sizes⟩
    · rw [leaves] at sizes
      cases sizes
  · have fails : (match adaptEach (memoryLeaves .input) memoryBridge with
        | .ok _ _ => false
        | .error _ _ => true) = true := by decide +kernel
    rcases same .input with ⟨nodes, c, b', leaves, -⟩ | ⟨e, b', leaves, whole⟩
    · rw [leaves] at fails
      cases fails
    · exact ⟨e, b', leaves, whole⟩

end Bridge

end NetBridge
