import NetBridge.Board.Document
import NetBridge.Bridge.Build
import NetBridge.Proofs.Simulation.Rejection

/-! # Boards that can be used

A check goes through a board from the front and stops at the first thing that is wrong. It comes
to the end if every resource has a name and a key of its own, and every node of it is either a pad
or a group. Such a board has a layout for each of its resources, and nobody who asks for a
resource is told that the board is at fault. -/
namespace NetBridge

namespace ResourceNode

mutual

/-- The node and those below it. -/
def nodes : ResourceNode → List ResourceNode
  | mk width inverted fields => mk width inverted fields :: fieldNodes fields

def fieldNodes : List (String × ResourceNode) → List ResourceNode
  | [] => []
  | (_, node) :: rest => nodes node ++ fieldNodes rest

end

/-- A pad has some width and no fields, a group has some fields and no width. -/
def Usable : ResourceNode → Prop
  | mk width _ fields => (∃ n, width = some n ∧ 0 < n ∧ fields = []) ∨ width = none ∧ fields ≠ []

mutual

/-- The layout has the pads of the node, and its fields in their order. -/
inductive Mirrors : ResourceNode → Layout → Prop
  | pad {width : Nat} {inverted : Bool} :
      Mirrors (mk (some width) inverted []) (.leaf ⟨width, inverted⟩)
  | group {inverted : Bool} {fields : List (String × ResourceNode)}
      {layouts : List (String × Layout)} (each : MirrorsEach fields layouts) :
      Mirrors (mk none inverted fields) (.group layouts)

inductive MirrorsEach : List (String × ResourceNode) → List (String × Layout) → Prop
  | nil : MirrorsEach [] []
  | cons {name : String} {node : ResourceNode} {layout : Layout}
      {fields : List (String × ResourceNode)} {layouts : List (String × Layout)}
      (first : Mirrors node layout) (rest : MirrorsEach fields layouts) :
      MirrorsEach ((name, node) :: fields) ((name, layout) :: layouts)

end

mutual

theorem layout_of_usable (path : String) : ∀ node : ResourceNode, (∀ n ∈ node.nodes, n.Usable) →
    ∃ layout, node.layout path = .ok layout ∧ node.Mirrors layout
  | mk width inverted fields, usable => by
    obtain ⟨here, below⟩ := List.forall_mem_cons.mp usable
    rcases here with ⟨n, rfl, pos, rfl⟩ | ⟨rfl, some_fields⟩
    · obtain ⟨m, rfl⟩ := Nat.exists_eq_succ_of_ne_zero (Nat.ne_of_gt pos)
      exact ⟨_, rfl, .pad⟩
    · obtain ⟨layouts, hlayouts, each⟩ := fieldLayouts_of_usable path fields below
      obtain ⟨first, rest, rfl⟩ := List.exists_cons_of_ne_nil some_fields
      refine ⟨.group layouts, ?_, .group each⟩
      rw [layout, hlayouts]
      rfl

theorem fieldLayouts_of_usable (path : String) : ∀ fields : List (String × ResourceNode),
    (∀ n ∈ fieldNodes fields, n.Usable) →
    ∃ layouts, fieldLayouts path fields = .ok layouts ∧ MirrorsEach fields layouts
  | [], _ => ⟨[], rfl, .nil⟩
  | (name, node) :: rest, usable => by
    obtain ⟨here, others⟩ := List.forall_mem_append.mp usable
    obtain ⟨sub, hsub, first⟩ := layout_of_usable s!"{path}.{name}" node here
    obtain ⟨layouts, hlayouts, each⟩ := fieldLayouts_of_usable path rest others
    refine ⟨(name, sub) :: layouts, ?_, .cons first each⟩
    rw [fieldLayouts, hsub, hlayouts]
    rfl

end

mutual

theorem usable_of_layout (path : String) : ∀ (node : ResourceNode) {layout : Layout},
    node.layout path = .ok layout → ∀ n ∈ node.nodes, n.Usable
  | mk (some 0) _ _, _, h => by cases h
  | mk (some (n + 1)) inverted [], _, _ => by
    have here : (mk (some (n + 1)) inverted []).Usable := .inl ⟨n + 1, rfl, n.succ_pos, rfl⟩
    exact List.forall_mem_cons.mpr ⟨here, by simp [fieldNodes]⟩
  | mk (some (_ + 1)) _ (_ :: _), _, h => by cases h
  | mk none _ [], _, h => by cases h
  | mk none inverted (first :: rest), _, h => by
    have here : (mk none inverted (first :: rest)).Usable := .inr ⟨rfl, List.cons_ne_nil _ _⟩
    cases hlayouts : fieldLayouts path (first :: rest) with
    | error e =>
      rw [layout, hlayouts] at h
      cases h
    | ok layouts =>
      exact List.forall_mem_cons.mpr ⟨here, usable_of_fieldLayouts path (first :: rest) hlayouts⟩

theorem usable_of_fieldLayouts (path : String) : ∀ (fields : List (String × ResourceNode))
    {layouts : List (String × Layout)}, fieldLayouts path fields = .ok layouts →
    ∀ n ∈ fieldNodes fields, n.Usable
  | [], _, _ => by simp [fieldNodes]
  | (name, node) :: rest, _, h => by
    cases hsub : node.layout s!"{path}.{name}" with
    | error e =>
      rw [fieldLayouts, hsub] at h
      cases h
    | ok sub =>
      cases hrest : fieldLayouts path rest with
      | error e =>
        rw [fieldLayouts, hsub, hrest] at h
        cases h
      | ok layouts =>
        exact List.forall_mem_append.mpr ⟨usable_of_layout _ node hsub,
          usable_of_fieldLayouts path rest hrest⟩

end

end ResourceNode

namespace Resource

def key (r : Resource) : String × Option Nat := (r.name, r.index)

theorem answers_iff {r : Resource} {name : String} {index : Option Nat} :
    r.answers name index = true ↔ r.key = (name, index) := by
  simp [answers, key]

/-- The resource has a name, and every node of it is a pad or a group. -/
def Usable (r : Resource) : Prop := r.name ≠ "" ∧ ∀ n ∈ r.node.nodes, n.Usable

theorem layout_ok_iff (r : Resource) :
    (∃ layout, r.layout = .ok layout) ↔ ∀ n ∈ r.node.nodes, n.Usable := by
  constructor
  · rintro ⟨layout, h⟩
    exact r.node.usable_of_layout r.logical h
  · intro usable
    obtain ⟨layout, h, -⟩ := r.node.layout_of_usable r.logical usable
    exact ⟨layout, h⟩

theorem Usable.layout {r : Resource} (h : r.Usable) :
    ∃ layout, r.layout = .ok layout ∧ r.node.Mirrors layout :=
  r.node.layout_of_usable r.logical h.2

end Resource

namespace Board

/-- The module, its place and all resources have names, no two resources have one key, and every
node of a resource is a pad or a group. -/
structure Usable (b : Board) : Prop where
  named : b.moduleName ≠ ""
  placed : b.outputDir ≠ ""
  distinct : (b.resources.map Resource.key).Nodup
  resources : ∀ r ∈ b.resources, r.Usable

/-- A check goes on after a resource if there is nothing wrong with it. -/
theorem checkResources_cons (seen : List (String × Option Nat)) (r : Resource)
    (rest : List Resource) : checkResources seen (r :: rest) = .ok () ↔
      r.name ≠ "" ∧ r.key ∉ seen ∧ (∃ layout, r.layout = .ok layout) ∧
        checkResources (r.key :: seen) rest = .ok () := by
  rw [checkResources, Resource.key]
  by_cases named : r.name = ""
  · simp [named, throw, throwThe, MonadExceptOf.throw, bind, Except.bind]
  · by_cases known : (r.name, r.index) ∈ seen
    · simp [named, known, throw, throwThe, MonadExceptOf.throw, bind, Except.bind]
    · cases r.layout with
      | error e => simp [named, known, bind, Except.bind]
      | ok layout => simp [named, known, bind, Except.bind]

/-- Keys that came before count as well. -/
theorem checkResources_ok_iff (seen : List (String × Option Nat)) (rs : List Resource) :
    checkResources seen rs = .ok () ↔
      (rs.map Resource.key).Nodup ∧ (∀ r ∈ rs, r.key ∉ seen) ∧ ∀ r ∈ rs, r.Usable := by
  induction rs generalizing seen with
  | nil => simp [checkResources]
  | cons r rest ih =>
    -- What is new after `r` is new before it and has another key than `r`.
    rw [checkResources_cons, ih, Resource.layout_ok_iff, List.map_cons, List.nodup_cons,
      List.forall_mem_cons, List.forall_mem_cons]
    simp only [List.mem_cons, not_or]
    constructor
    · rintro ⟨named, new, nodes, distinct, others, usable⟩
      refine ⟨⟨?_, distinct⟩, ⟨new, fun r' hr' => (others r' hr').2⟩, ⟨named, nodes⟩, usable⟩
      intro again
      obtain ⟨r', hr', same⟩ := List.mem_map.mp again
      exact (others r' hr').1 same
    · rintro ⟨⟨once, distinct⟩, ⟨new, others⟩, ⟨named, nodes⟩, usable⟩
      refine ⟨named, new, nodes, distinct, fun r' hr' => ⟨?_, others r' hr'⟩, usable⟩
      intro same
      exact once (List.mem_map.mpr ⟨r', hr', same⟩)

theorem check_eq (b : Board) : b.check =
    if b.moduleName = "" then .error (.missingField "bridge.name")
    else if b.outputDir = "" then .error (.missingField "bridge.output_dir")
    else checkResources [] b.resources := by
  by_cases named : b.moduleName = ""
  · rw [check, if_pos (String.isEmpty_iff.mpr named), if_pos named]
    rfl
  · rw [check, if_neg (mt String.isEmpty_iff.mp named), if_neg named]
    by_cases placed : b.outputDir = ""
    · rw [if_pos (String.isEmpty_iff.mpr placed), if_pos placed]
      rfl
    · rw [if_neg (mt String.isEmpty_iff.mp placed), if_neg placed]

/-- A check accepts the boards that can be used. -/
theorem check_ok_iff (b : Board) : b.check = .ok () ↔ b.Usable := by
  have resources := checkResources_ok_iff [] b.resources
  rw [check_eq]
  constructor
  · intro h
    split at h
    · cases h
    · rename_i named
      split at h
      · cases h
      · rename_i placed
        obtain ⟨distinct, -, usable⟩ := resources.mp h
        exact ⟨named, placed, distinct, usable⟩
  · intro usable
    rw [if_neg usable.named, if_neg usable.placed]
    exact resources.mpr ⟨usable.distinct, fun _ _ => List.not_mem_nil, usable.resources⟩

/-- A document is accepted if it describes a board that can be used. -/
theorem ofText_eq_ok_iff (b : Board) (text : String) :
    ofText text = .ok b ↔ Toml.parse? text >>= ofEntries? = some b ∧ b.Usable := by
  rw [ofText, ← check_ok_iff]
  cases Toml.parse? text >>= ofEntries? with
  | none => simp
  | some b' =>
    dsimp only
    rw [Option.some.injEq]
    cases hcheck : b'.check with
    | error e =>
      constructor
      · intro h
        cases h
      · rintro ⟨rfl, accepted⟩
        cases hcheck.symm.trans accepted
    | ok _ =>
      constructor
      · intro h
        obtain rfl := Except.ok.inj h
        exact ⟨rfl, hcheck⟩
      · rintro ⟨rfl, -⟩
        rfl

theorem resource?_eq_some {b : Board} {name : String} {index : Option Nat} {r : Resource}
    (h : b.resource? name index = some r) : r ∈ b.resources ∧ r.key = (name, index) := by
  rw [resource?, List.find?_eq_some_iff_append] at h
  obtain ⟨answers, before, after, place, -⟩ := h
  exact ⟨by simp [place], Resource.answers_iff.mp answers⟩

theorem logical_of_resource? {b : Board} {name : String} {index : Option Nat} {r : Resource}
    (h : b.resource? name index = some r) : r.logical = logicalName name index := by
  obtain ⟨rfl, rfl⟩ := Prod.mk.inj (resource?_eq_some h).2
  rfl

theorem resource?_self {b : Board} (distinct : (b.resources.map Resource.key).Nodup) {r : Resource}
    (h : r ∈ b.resources) : b.resource? r.name r.index = some r := by
  have answers : r.answers r.name r.index = true := Resource.answers_iff.mpr rfl
  cases hfound : b.resource? r.name r.index with
  | none => exact absurd answers (List.find?_eq_none.mp hfound r h)
  | some r' =>
    obtain ⟨h', same⟩ := resource?_eq_some hfound
    rw [List.inj_on_of_nodup_map distinct h' h same]

end Board

namespace Platform

/-- If the board can be used, requests fail for resources that it does not have, and for no other
reason. -/
theorem request_eq_error_iff {p : Platform} (usable : p.board.Usable) (host : Host.Netlist)
    (name : String) (index : Option Nat) (e : PlatformError) :
    p.request host name index = .error e ↔ Table.get? p.allocated (name, index) = none ∧
      p.board.resource? name index = none ∧ e = .unknownResource (logicalName name index) := by
  rw [request]
  cases Table.get? p.allocated (name, index) with
  | some pads => simp
  | none =>
    cases hresource : p.board.resource? name index with
    | none => simp [eq_comm]
    | some r =>
      have known := (Board.resource?_eq_some hresource).1
      obtain ⟨layout, hlayout, -⟩ := (usable.resources r known).layout
      dsimp only
      rw [hlayout]
      constructor
      · intro h
        cases h
      · rintro ⟨-, none_found, -⟩
        cases none_found

end Platform

namespace Simulation

namespace Plan

/-- What is asked for can be refused, the board is not to blame. -/
def Blameless (p : Plan) : Prop := ∀ cause, p.refusal ≠ some (.board cause)

theorem Blameless.andThen {p q : Plan} (hp : p.Blameless) (hq : q.Blameless) :
    (p.andThen q).Blameless := by
  rw [Plan.andThen]
  split
  · exact hp
  · exact hq

theorem checkFields_blameless {α : Type} (group : String) (fields : List String)
    (spec : Option (Spec α)) : (checkFields group fields spec).Blameless := by
  intro cause h
  obtain ⟨field, -, impossible⟩ := Option.map_eq_some_iff.mp h
  cases impossible

theorem pin_blameless (port name : String) (pad : PadShape) (direction : Direction) (rate : Nat) :
    (pin port name pad direction rate).Blameless := by
  intro cause h
  rw [pin] at h
  split at h
  · cases h
  · split at h <;> cases h

mutual

theorem layout_blameless (port name : String) (direction : Option DirectionSpec)
    (rate : Option RateSpec) : ∀ layout, (Plan.layout port name direction rate layout).Blameless
  | .leaf pad => by
    rw [Plan.layout]
    split
    · exact pin_blameless port name pad _ _
    · intro cause h
      cases h
  | .group fields => by
    rw [Plan.layout]
    have directions := checkFields_blameless name (Table.keys fields) direction
    have rates := checkFields_blameless name (Table.keys fields) rate
    exact directions.andThen (rates.andThen (layouts_blameless port name direction rate fields))

theorem layouts_blameless (port name : String) (direction : Option DirectionSpec)
    (rate : Option RateSpec) : ∀ fields, (layouts port name direction rate fields).Blameless
  | [] => by
    intro cause h
    cases h
  | (field, sub) :: rest => by
    rw [layouts]
    exact (layout_blameless _ _ _ _ sub).andThen (layouts_blameless port name direction rate rest)

end

end Plan

namespace Bench

variable {ρ : Type} {b b' : Bench ρ} {e : Error}

/-- The signals of a layout are never refused on account of the board. -/
theorem build_blameless {port pin : String} {direction : Option DirectionSpec}
    {rate : Option RateSpec} {layout : Layout} {s s' : Simulator (PinProcess ⊕ ρ)}
    (h : build port pin direction rate layout s = .error e s') : ∀ cause, e ≠ .board cause := by
  -- Two simulators follow one plan; here both of them are `s`.
  have alone : s.signals.size = s.signals.size + 0 := rfl
  have guided := build_guided port pin direction rate layout alone
  have blameless := Plan.layout_blameless port pin direction rate layout
  rw [Plan.Guides] at guided
  intro cause same
  split at guided
  · rename_i e' refusal
    obtain ⟨rfl, -⟩ := EStateM.Result.error.inj (h.symm.trans guided.1)
    exact blameless cause (by rw [refusal, same])
  · obtain ⟨pins, _, -, granted, -⟩ := guided
    cases h.symm.trans granted

/-- If the board can be used, a request that fails has found no resource, or it has found one with
its layout and comes too late or asks for pins that cannot be made. -/
theorem request_error_cases (usable : b.board.Usable) {name : String} {index : Option Nat}
    {direction : Option DirectionSpec} {rate : Option RateSpec}
    (h : request name index direction rate b = .error e b') :
    b.board.resource? name index = none ∧ e = .unknownResource (logicalName name index) ∨
    ∃ r layout, b.board.resource? name index = some r ∧ r.layout = .ok layout ∧
      ((name, index) ∈ b.requested ∧ e = .alreadyRequested r.logical ∨
        ∃ s, build r.logical s!"pad_{r.logical}" direction rate layout b.simulator =
          .error e s) := by
  have cases := request_cases name index direction rate b
  rw [h] at cases
  cases cases with
  | unknown none => exact .inl ⟨none, rfl⟩
  | @repeated r found repeated =>
    obtain ⟨layout, laid, -⟩ := (usable.resources r (Board.resource?_eq_some found).1).layout
    exact .inr ⟨r, layout, found, laid, .inl ⟨repeated, rfl⟩⟩
  | @invalid r _ found _ invalid =>
    obtain ⟨layout, laid, -⟩ := (usable.resources r (Board.resource?_eq_some found).1).layout
    cases laid.symm.trans invalid
  | failed found _ laid built => exact .inr ⟨_, _, found, laid, .inr ⟨_, built⟩⟩

end Bench

end Simulation

namespace Board

open Simulation (Bench)

/-- A check accepts the boards that can be used, whether they come from a document or not. If it
has accepted a board, every resource is found by its key and has a layout like its nodes, and
requests that fail do so for resources that are not there, or for what they ask of a resource
whose layout is known. -/
theorem check_accepts_usable_boards (b : Board) :
    (b.check = .ok () ↔ b.Usable) ∧
    (∀ text, ofText text = .ok b ↔ Toml.parse? text >>= ofEntries? = some b ∧ b.Usable) ∧
    (b.check = .ok () →
      (∀ r ∈ b.resources, b.resource? r.name r.index = some r ∧
        ∃ layout, r.layout = .ok layout ∧ r.node.Mirrors layout) ∧
      (∀ (p : Platform) (host : Host.Netlist) (name : String) (index : Option Nat)
        (e : PlatformError), p.board = b →
        (p.request host name index = .error e ↔ Table.get? p.allocated (name, index) = none ∧
          b.resource? name index = none ∧ e = .unknownResource (logicalName name index))) ∧
      ∀ (ρ : Type) (bench bench' : Bench ρ) (name : String) (index : Option Nat)
        (direction : Option DirectionSpec) (rate : Option RateSpec) (e : Simulation.Error),
        bench.board = b → Bench.request name index direction rate bench = .error e bench' →
        (∀ cause, e ≠ .board cause) ∧
        (b.resource? name index = none ∧ e = .unknownResource (logicalName name index) ∨
        ∃ r layout, b.resource? name index = some r ∧ r.layout = .ok layout ∧
          ((name, index) ∈ bench.requested ∧ e = .alreadyRequested r.logical ∨
            ∃ s, Bench.build r.logical s!"pad_{r.logical}" direction rate layout bench.simulator =
              .error e s))) := by
  refine ⟨b.check_ok_iff, b.ofText_eq_ok_iff, ?_⟩
  intro accepted
  have usable := b.check_ok_iff.mp accepted
  refine ⟨?_, ?_, ?_⟩
  · intro r hr
    exact ⟨resource?_self usable.distinct hr, (usable.resources r hr).layout⟩
  · rintro p host name index e rfl
    exact Platform.request_eq_error_iff usable host name index e
  · rintro ρ bench bench' name index direction rate e rfl failed
    have cases := Bench.request_error_cases usable failed
    refine ⟨?_, cases⟩
    rcases cases with ⟨-, rfl⟩ | ⟨r, layout, -, -, ⟨-, rfl⟩ | ⟨s, refused⟩⟩
    · simp
    · simp
    · exact Bench.build_blameless refused

/-- A row of lights that are on when they are low, and a bus with a clock. -/
def lights : Board where
  resources := [⟨"led", some 0, .mk (some 8) true []⟩,
    ⟨"bus", none, .mk none false [("d", .mk (some 4) false []), ("clk", .mk (some 1) false [])]⟩]

theorem lights_unknown : lights.check = .ok () ∧
    ({ board := lights } : Platform).request { name := "top" } "led" none =
      .error (.unknownResource "led") := by
  have accepted : lights.check = .ok () := by decide
  obtain ⟨-, -, serves⟩ := check_accepts_usable_boards lights
  obtain ⟨-, platform, -⟩ := serves accepted
  exact ⟨accepted, (platform _ _ "led" none _ rfl).mpr ⟨rfl, by decide, rfl⟩⟩

end Board

end NetBridge
