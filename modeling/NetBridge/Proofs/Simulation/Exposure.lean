import NetBridge.Proofs.Pad.Exposure
import NetBridge.Proofs.Simulation.Request

/-! # What simulated pins expose

The pins of a bench have the members that the request exposes, field by field, and a
request that is refused is refused for that reason. -/
namespace NetBridge

open Exposure (Exposes Follows expose exposeFields named)

/-- What a bench answers when it refuses. -/
def Refusal.benchError? : Refusal → Option Simulation.Error
  | missingMember node member => some (.missingMember node member)
  | specShape name => some (.specShape name)
  | unsupported mode => some (.unsupportedPin mode)
  | undirected => none

namespace Simulation

variable {ρ : Type}

/-- The name and the width of a simulated signal. -/
def Signal.describe (s : Signal) : String × Nat := (s.name, s.width)

/-- The members that a testbench sees. -/
def PinTree.exposed (signals : Arena Signal) (pins : PinTree) : FieldTree Members :=
  (pins.map Pin.signals).map (named Signal.describe signals)

namespace Bench

/-- Between the two simulators pins were made that expose what was expected. -/
structure Made (s s' : Simulator (PinProcess ⊕ ρ)) (pins : PinTree)
    (expected : FieldTree Members) : Prop where
  grown : s.signals.Extends s'.signals
  exposes : Exposes Signal.describe s'.signals (pins.map Pin.signals) expected

/-- Every width is one that a simulated signal can have. -/
def Fits (pads : List PadShape) : Prop := ∀ pad ∈ pads, 0 < pad.width ∧ pad.width ≤ 64

section Leaf

variable {pin : String} {s : Simulator (PinProcess ⊕ ρ)}

theorem single_follows {α : Type} (spec : Option (Spec α)) :
    Follows Refusal.benchError? (fun value s' expected => s' = s ∧ value = expected)
      (single pin spec s) (Exposure.single pin spec) := by
  rw [single, Exposure.single]
  cases Spec.single? spec with
  | none => exact .error rfl
  | some value => exact .ok ⟨rfl, rfl⟩

theorem checkFields_follows {α : Type} (fields : List String) (spec : Option (Spec α)) :
    Follows Refusal.benchError? (fun _ s' _ => s' = s) (checkFields pin fields spec s)
      (Exposure.checkFields pin fields spec) := by
  rw [checkFields, Exposure.checkFields]
  cases Spec.strayField? spec fields with
  | none => exact .ok rfl
  | some field => exact .error rfl

theorem makePin_follows (port : String) {pad : PadShape} (fits : Fits [pad])
    (direction : Option Direction) (rate : Nat) :
    Follows Refusal.benchError? (fun p s' expected => Made s s' (.leaf p) (.leaf expected))
      (makePin port pin pad (direction.getD defaultDirection) rate s)
      (Exposure.leafMembers pin pad.width rate direction) := by
  cases direction with
  | none => exact fun e he => nomatch he
  | some direction =>
    rw [Exposure.leafMembers, Option.getD_some]
    cases hroles : modeRoles direction rate with
    | error e =>
      rw [makePin_unsupported port pin s hroles]
      exact .error rfl
    | ok roles =>
      obtain ⟨pos, le⟩ := fits pad List.mem_cons_self
      obtain ⟨p, s', hrun, ⟨rfl, rfl, rfl, -⟩, minted, added⟩ :=
        makePin_ok port pin s hroles pos le
      obtain ⟨roles', hroles', keys⟩ := minted.roles
      obtain rfl := Except.ok.inj (hroles.symm.trans hroles')
      rw [hrun]
      refine .ok ⟨added.adds.grown, ?_, congrArg FieldTree.leaf ?_⟩
      · intro signals hs q hq
        obtain rfl := List.mem_singleton.mp hs
        obtain ⟨v, hv⟩ := minted.signals q hq
        exact Arena.contains_of_get? hv
      · refine Exposure.named_eq_members _ keys fun q hq => ?_
        obtain ⟨v, hv⟩ := minted.signals q hq
        rw [hv]
        rfl

end Leaf

mutual

/-- Making the pins of a layout exposes what the request does. -/
theorem build_follows (port pin : String) (direction : Option DirectionSpec)
    (rate : Option RateSpec) : ∀ (layout : Layout), Fits layout.leaves →
      ∀ s : Simulator (PinProcess ⊕ ρ),
        Follows Refusal.benchError? (fun pins s' expected => Made s s' pins expected)
          (build port pin direction rate layout s) (expose pin direction rate layout)
  | .leaf pad, fits, s => by
    rw [build, expose]
    refine (single_follows direction).bind ?_
    rintro value _ expected ⟨rfl, rfl⟩
    refine (single_follows rate).bind ?_
    rintro value' _ expected ⟨rfl, rfl⟩
    refine (makePin_follows port fits value (value'.getD 0)).bind ?_
    exact fun p s' members made => .ok made
  | .group fields, fits, s => by
    rw [build, expose]
    refine (checkFields_follows _ direction).bind ?_
    rintro - _ - rfl
    refine (checkFields_follows _ rate).bind ?_
    rintro - _ - rfl
    refine (buildFields_follows port pin direction rate fields fits _).bind ?_
    exact fun pins s' trees made => .ok made

theorem buildFields_follows (port pin : String) (direction : Option DirectionSpec)
    (rate : Option RateSpec) : ∀ (fields : List (String × Layout)),
      Fits (FieldTree.fieldLeaves fields) → ∀ s : Simulator (PinProcess ⊕ ρ),
        Follows Refusal.benchError?
          (fun pins s' trees => Made s s' (.group pins) (.group trees))
          (buildFields port pin direction rate fields s) (exposeFields pin direction rate fields)
  | [], _, s => .ok ⟨.refl _, .nil _ _⟩
  | (field, layout) :: rest, fits, s => by
    rw [buildFields, exposeFields]
    have fits := List.forall_mem_append.mp fits
    refine (build_follows _ _ _ _ layout fits.1 s).bind ?_
    intro pins s₁ tree first
    refine (buildFields_follows port pin direction rate rest fits.2 s₁).bind ?_
    intro pinsRest s₂ trees others
    exact .ok ⟨first.grown.trans others.grown,
      (first.exposes.extends _ others.grown).cons _ others.exposes⟩

end

/-- A request on a bench that has not granted the resource before. -/
theorem request_follows {name : String} {index : Option Nat} {resource : Resource}
    {layout : Layout} {b : Bench ρ} (fresh : b.requested = [])
    (found : b.board.resource? name index = some resource)
    (valid : resource.layout = .ok layout) (fits : Fits layout.leaves)
    (direction : Option DirectionSpec) (rate : Option RateSpec) :
    Follows Refusal.benchError?
      (fun pins b' expected => pins.exposed b'.simulator.signals = expected)
      (request name index direction rate b)
      (expose s!"pad_{resource.logical}" direction rate layout) := by
  have ungranted : ¬ b.requested.contains (name, index) = true := by simp [fresh]
  have built := build_follows resource.logical s!"pad_{resource.logical}" direction rate layout
    fits b.simulator
  rw [request, bind_of_ok get_run, found]
  dsimp only
  rw [if_neg ungranted, valid]
  dsimp only
  generalize expose s!"pad_{resource.logical}" direction rate layout = expected at built ⊢
  cases expected with
  | ok tree =>
    obtain ⟨pins, s', hrun, made⟩ := built
    rw [bind_of_ok (onSimulator_ok hrun)]
    exact .ok made.exposes.members
  | error refusal =>
    intro e he
    obtain ⟨s', hrun⟩ := built e he
    rw [bind_of_error (onSimulator_error hrun)]
    exact ⟨_, rfl⟩

end Bench

end Simulation

end NetBridge
