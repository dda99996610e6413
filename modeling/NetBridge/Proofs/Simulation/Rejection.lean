import NetBridge.Proofs.Simulation.Request

/-! # Rejected requests

A request makes the signals of one leaf after the other, and stops at the first leaf that
it refuses. What it makes is planned here without a simulator. A request that is rejected
leaves the signals of the leaves before the failure and nothing else, and whatever is
requested afterwards gets the same signals as without it, further up. -/
namespace NetBridge

/-- The key so many places further up. -/
def Key.later {α : Type} (k : Nat) (id : Key α) : Key α := ⟨id.index + k⟩

namespace Simulation

variable {ρ : Type}

/-- The simulator with more signals. -/
def Simulator.extend {π : Type} (s : Simulator π) (new : List Signal) : Simulator π :=
  { s with signals := s.signals.append new }

namespace Simulator

variable {π : Type} (s : Simulator π)

@[simp] theorem extend_nil : s.extend [] = s := by simp [extend]

@[simp] theorem extend_extend (new more : List Signal) :
    (s.extend new).extend more = s.extend (new ++ more) := by simp [extend]

@[simp] theorem size_extend (new : List Signal) :
    (s.extend new).signals.size = s.signals.size + new.length := by simp [extend]

theorem addSignal_ok (name : String) {width : Nat} (pos : 0 < width) (le : width ≤ 64) :
    addSignal name width s = .ok s.signals.nextKey (s.extend [⟨name, width, 0⟩]) := by
  rw [addSignal_run, if_neg (by omega), extend, Arena.append_singleton]

end Simulator

/-- The pin with its signals so many places further up. -/
def Pin.later (k : Nat) (p : Pin) : Pin :=
  { p with port := p.port.later k, signals := p.signals.map fun q => (q.1, q.2.later k) }

/-- The signals that a request adds, and what it is refused for, if it is. -/
structure Plan where
  signals : List Signal := []
  refusal : Option Error := none

namespace Plan

/-- One plan after the other. There is no more to do after a refusal. -/
def andThen (p q : Plan) : Plan :=
  if p.refusal.isSome then p else ⟨p.signals ++ q.signals, q.refusal⟩

def refuse (e : Error) : Plan := { refusal := some e }

/-- Nothing is added for a check. -/
def checkFields {α : Type} (group : String) (fields : List String) (spec : Option (Spec α)) : Plan :=
  { refusal := (Spec.strayField? spec fields).map (.missingMember group) }

/-- The port of a pin and a signal for each of its roles, or nothing at all. -/
def pin (port name : String) (pad : PadShape) (direction : Direction) (rate : Nat) : Plan :=
  match modeRoles direction rate with
  | .error e => refuse (.unsupportedPin e)
  | .ok roles =>
    if pad.width = 0 ∨ 64 < pad.width then refuse (.invalidWidth port pad.width)
    else { signals := ⟨port, pad.width, 0⟩ ::
      roles.map fun r => ⟨s!"{name}_{r.text}", r.width pad.width, 0⟩ }

mutual

/-- The signals of the leaves in their order, up to the first one that is refused. -/
def layout (port name : String) (direction : Option DirectionSpec) (rate : Option RateSpec) :
    Layout → Plan
  | .leaf pad =>
    match Spec.single? direction, Spec.single? rate with
    | some direction, some rate =>
      pin port name pad (direction.getD Bench.defaultDirection) (rate.getD 0)
    | _, _ => refuse (.specShape name)
  | .group fields =>
    (checkFields name (Table.keys fields) direction).andThen
      ((checkFields name (Table.keys fields) rate).andThen
        (layouts port name direction rate fields))

def layouts (port name : String) (direction : Option DirectionSpec) (rate : Option RateSpec) :
    List (String × Layout) → Plan
  | [] => {}
  | (field, sub) :: rest =>
    (layout s!"{port}_{field}" s!"{name}_{field}" (Spec.forField direction field)
      (Spec.forField rate field) sub).andThen (layouts port name direction rate rest)

end

/-- Two runs of one operation do what is planned and end alike, with results that
correspond. -/
def Guides {α : Type} (p : Plan) (s s' : Simulator (PinProcess ⊕ ρ)) (same : α → α → Prop)
    (r r' : EStateM.Result Error (Simulator (PinProcess ⊕ ρ)) α) : Prop :=
  match p.refusal with
  | some e => r = .error e (s.extend p.signals) ∧ r' = .error e (s'.extend p.signals)
  | none => ∃ a a', same a a' ∧ r = .ok a (s.extend p.signals) ∧ r' = .ok a' (s'.extend p.signals)

namespace Guides

variable {α β : Type} {p q : Plan} {s s' : Simulator (PinProcess ⊕ ρ)}
  {same : α → α → Prop} {same' : β → β → Prop}

theorem ok {a a' : α} (signals : List Signal) (h : same a a') :
    Guides { signals } s s' same (.ok a (s.extend signals)) (.ok a' (s'.extend signals)) :=
  ⟨a, a', h, rfl, rfl⟩

theorem pure {a a' : α} (h : same a a') : Guides {} s s' same (.ok a s) (.ok a' s') := by
  simpa using ok (s := s) [] h

theorem refuse (e : Error) : Guides (.refuse e) s s' same (.error e s) (.error e s') := by
  simp [Guides, Plan.refuse]

theorem bind {x : SimM (PinProcess ⊕ ρ) α} {f : α → SimM (PinProcess ⊕ ρ) β}
    (hx : Guides p s s' same (x s) (x s'))
    (hf : ∀ a a', same a a' → Guides q (s.extend p.signals) (s'.extend p.signals) same'
      (f a (s.extend p.signals)) (f a' (s'.extend p.signals))) :
    Guides (p.andThen q) s s' same' ((x >>= f) s) ((x >>= f) s') := by
  obtain ⟨signals, refusal⟩ := p
  cases refusal with
  | some e =>
    obtain ⟨h, h'⟩ := hx
    exact ⟨bind_of_error h, bind_of_error h'⟩
  | none =>
    obtain ⟨a, a', corresponds, h, h'⟩ := hx
    have next := hf a a' corresponds
    rw [bind_of_ok h, bind_of_ok h']
    simpa only [Guides, andThen, Option.isSome_none, Bool.false_eq_true, if_false,
      Simulator.extend_extend] using next

theorem map {x : SimM (PinProcess ⊕ ρ) α} {g g' : α → β} (hx : Guides p s s' same (x s) (x s'))
    (hg : ∀ a a', same a a' → same' (g a) (g' a')) :
    Guides p s s' same' ((x >>= fun a => Pure.pure (g a)) s)
      ((x >>= fun a => Pure.pure (g' a)) s') := by
  obtain ⟨signals, refusal⟩ := p
  cases refusal with
  | some e =>
    obtain ⟨h, h'⟩ := hx
    exact ⟨bind_of_error h, bind_of_error h'⟩
  | none =>
    obtain ⟨a, a', corresponds, h, h'⟩ := hx
    rw [bind_of_ok h, bind_of_ok h']
    exact ⟨g a, g' a', hg a a' corresponds, rfl, rfl⟩

end Guides

end Plan

namespace Bench

section Guided

variable {s s' : Simulator (PinProcess ⊕ ρ)} {k : Nat}

theorem addSignal_guided (name : String) {width : Nat} (pos : 0 < width) (le : width ≤ 64)
    (further : s'.signals.size = s.signals.size + k) :
    Plan.Guides { signals := [⟨name, width, 0⟩] } s s' (fun id id' => id' = id.later k)
      (Simulator.addSignal name width s) (Simulator.addSignal name width s') := by
  rw [Simulator.addSignal_ok s name pos le, Simulator.addSignal_ok s' name pos le]
  refine .ok _ ?_
  exact congrArg Key.mk further

theorem roleSignals_guided (pin : String) {width : Nat} (roles : List Role) (pos : 0 < width)
    (le : width ≤ 64) (further : s'.signals.size = s.signals.size + k) :
    Plan.Guides { signals := roles.map fun r => ⟨s!"{pin}_{r.text}", r.width width, 0⟩ } s s'
      (fun t t' => t' = t.map fun q => (q.1, q.2.later k))
      (roleSignals pin width roles s) (roleSignals pin width roles s') := by
  induction roles generalizing s s' with
  | nil => exact .pure rfl
  | cons r rest ih =>
    obtain ⟨rolePos, roleLe⟩ := role_width_le (r := r) pos le
    rw [roleSignals]
    refine (addSignal_guided _ rolePos roleLe further).bind (q := { signals := _ }) ?_
    rintro id _ rfl
    refine (ih ?_).map ?_
    · simp only [Simulator.size_extend, further]
      omega
    · rintro t _ rfl
      rfl

theorem inRoleOrder_map (k : Nat) (t : Table Role SignalId) :
    inRoleOrder (t.map fun q => (q.1, q.2.later k)) =
      (inRoleOrder t).map fun q => (q.1, q.2.later k) := by
  have found (r : Role) : Table.get? (t.map fun q => (q.1, q.2.later k)) r =
      (Table.get? t r).map (Key.later k) := by
    induction t with
    | nil => rfl
    | cons q rest ih =>
      obtain ⟨role, id⟩ := q
      simp only [List.map_cons, Table.get?]
      split
      · rfl
      · exact ih
  rw [inRoleOrder, inRoleOrder, List.map_filterMap]
  refine List.filterMap_congr fun r _ => ?_
  rw [found]
  cases Table.get? t r <;> rfl

theorem makePin_guided (port pin : String) (pad : PadShape) (direction : Direction) (rate : Nat)
    (further : s'.signals.size = s.signals.size + k) :
    Plan.Guides (.pin port pin pad direction rate) s s' (fun p p' => p' = p.later k)
      (makePin port pin pad direction rate s) (makePin port pin pad direction rate s') := by
  rw [Plan.pin]
  cases hroles : modeRoles direction rate with
  | error e =>
    rw [makePin_unsupported port pin s hroles, makePin_unsupported port pin s' hroles]
    exact .refuse _
  | ok roles =>
    dsimp only
    split
    · rename_i invalid
      rw [makePin_invalidWidth port pin s hroles invalid,
        makePin_invalidWidth port pin s' hroles invalid]
      exact .refuse _
    · obtain ⟨pos, le⟩ : 0 < pad.width ∧ pad.width ≤ 64 := by omega
      simp only [makePin, hroles]
      refine (addSignal_guided port pos le further).bind (q := { signals := _ }) ?_
      rintro id _ rfl
      refine (roleSignals_guided (k := k) pin roles pos le ?_).map ?_
      · simp only [Simulator.size_extend, further]
        omega
      · rintro t _ rfl
        simp [Pin.later, inRoleOrder_map]

theorem checkFields_guided {α : Type} (group : String) (fields : List String)
    (spec : Option (Spec α)) : Plan.Guides (.checkFields group fields spec) s s' (fun _ _ => True)
      (checkFields group fields spec s) (checkFields group fields spec s') := by
  rw [Plan.checkFields, checkFields]
  cases Spec.strayField? spec fields with
  | some field => exact .refuse _
  | none => exact .pure trivial

end Guided

mutual

/-- Making the pins of a layout follows the plan. From a simulator with more signals, it
makes the same pins further up. -/
theorem build_guided (port pin : String) (direction : Option DirectionSpec)
    (rate : Option RateSpec) {k : Nat} : ∀ (layout : Layout) {s s' : Simulator (PinProcess ⊕ ρ)},
      s'.signals.size = s.signals.size + k →
      Plan.Guides (.layout port pin direction rate layout) s s' (fun t t' => t' = t.map (Pin.later k))
        (build port pin direction rate layout s) (build port pin direction rate layout s')
  | .leaf pad, s, s', further => by
    rw [build, Plan.layout]
    cases hd : Spec.single? direction with
    | none =>
      have refused (t : Simulator (PinProcess ⊕ ρ)) :
          (single pin direction : SimM (PinProcess ⊕ ρ) _) t = .error (.specShape pin) t := by
        rw [single, hd]
        rfl
      rw [bind_of_error (refused s), bind_of_error (refused s')]
      exact .refuse _
    | some d =>
      have given (t : Simulator (PinProcess ⊕ ρ)) :
          (single pin direction : SimM (PinProcess ⊕ ρ) _) t = .ok d t := by
        rw [single, hd]
        rfl
      rw [bind_of_ok (given s), bind_of_ok (given s')]
      cases hr : Spec.single? rate with
      | none =>
        have refused (t : Simulator (PinProcess ⊕ ρ)) :
            (single pin rate : SimM (PinProcess ⊕ ρ) _) t = .error (.specShape pin) t := by
          rw [single, hr]
          rfl
        rw [bind_of_error (refused s), bind_of_error (refused s')]
        exact .refuse _
      | some r =>
        have given (t : Simulator (PinProcess ⊕ ρ)) :
            (single pin rate : SimM (PinProcess ⊕ ρ) _) t = .ok r t := by
          rw [single, hr]
          rfl
        rw [bind_of_ok (given s), bind_of_ok (given s')]
        refine (makePin_guided port pin pad _ _ further).map ?_
        rintro p _ rfl
        rfl
  | .group fields, s, s', further => by
    rw [build, Plan.layout]
    refine (checkFields_guided ..).bind fun _ _ _ => ?_
    refine (checkFields_guided ..).bind fun _ _ _ => ?_
    refine (buildFields_guided (k := k) port pin direction rate fields ?_).map ?_
    · simpa only [Simulator.size_extend, Plan.checkFields, List.length_nil, Nat.add_zero] using further
    · rintro t _ rfl
      rfl

theorem buildFields_guided (port pin : String) (direction : Option DirectionSpec)
    (rate : Option RateSpec) {k : Nat} : ∀ (fields : List (String × Layout))
      {s s' : Simulator (PinProcess ⊕ ρ)}, s'.signals.size = s.signals.size + k →
      Plan.Guides (.layouts port pin direction rate fields) s s'
        (fun ts ts' => ts' = FieldTree.mapFields (Pin.later k) ts)
        (buildFields port pin direction rate fields s) (buildFields port pin direction rate fields s')
  | [], s, s', _ => by
    rw [buildFields, Plan.layouts]
    exact .pure rfl
  | (field, layout) :: rest, s, s', further => by
    rw [buildFields, Plan.layouts]
    refine (build_guided _ _ _ _ layout further).bind ?_
    rintro t _ rfl
    refine (buildFields_guided (k := k) port pin direction rate rest ?_).map ?_
    · simp only [Simulator.size_extend, further]
      omega
    · rintro ts _ rfl
      rfl

end

/-- The bench with more signals. -/
def extend (b : Bench ρ) (new : List Signal) : Bench ρ :=
  { b with simulator := b.simulator.extend new }

/-- The bench once it has handed out these pins. -/
def grant (b : Bench ρ) (key : String × Option Nat) (pins : PinTree) : Bench ρ :=
  { b with requested := b.requested ++ [key], waiting := b.waiting ++ pins.leaves }

@[simp] theorem extend_nil (b : Bench ρ) : b.extend [] = b := by simp [extend]

/-- What a request adds, and what it is refused for, if it is. -/
def planOf (b : Bench ρ) (name : String) (index : Option Nat) (direction : Option DirectionSpec)
    (rate : Option RateSpec) : Plan :=
  match b.board.resource? name index with
  | none => .refuse (.unknownResource (logicalName name index))
  | some resource =>
    if b.requested.contains (name, index) then .refuse (.alreadyRequested resource.logical)
    else match resource.layout with
      | .error e => .refuse (.board e)
      | .ok layout => .layout resource.logical s!"pad_{resource.logical}" direction rate layout

section Requesting

variable {b b' : Bench ρ} {k : Nat} (name : String) (index : Option Nat)
  (direction : Option DirectionSpec) (rate : Option RateSpec)

/-- Two benches of which one has more signals follow the same plan. -/
theorem request_guided (board : b'.board = b.board) (requested : b'.requested = b.requested)
    (further : b'.simulator.signals.size = b.simulator.signals.size + k) :
    let plan := b.planOf name index direction rate
    match plan.refusal with
    | some e => request name index direction rate b = .error e (b.extend plan.signals) ∧
        request name index direction rate b' = .error e (b'.extend plan.signals)
    | none => ∃ pins : PinTree, request name index direction rate b =
          .ok pins ((b.extend plan.signals).grant (name, index) pins) ∧
        request name index direction rate b' = .ok (pins.map (Pin.later k))
          ((b'.extend plan.signals).grant (name, index) (pins.map (Pin.later k))) := by
  simp only [planOf, request, bind_of_ok get_run, board, requested]
  cases b.board.resource? name index with
  | none => simp [Plan.refuse]
  | some resource =>
    dsimp only
    by_cases repeated : b.requested.contains (name, index) = true
    · simp only [repeated, if_true, Plan.refuse, extend_nil]
      exact ⟨rfl, rfl⟩
    · simp only [if_neg repeated]
      cases resource.layout with
      | error e => simp [Plan.refuse]
      | ok layout =>
        dsimp only
        have guided := build_guided resource.logical s!"pad_{resource.logical}" direction rate
          layout further
        rw [Plan.Guides] at guided
        split at guided
        · obtain ⟨h, h'⟩ := guided
          exact ⟨bind_of_error (onSimulator_error h), bind_of_error (onSimulator_error h')⟩
        · obtain ⟨pins, _, rfl, h, h'⟩ := guided
          refine ⟨pins, ?_, ?_⟩
          · exact bind_of_ok (onSimulator_ok h)
          · exact bind_of_ok (onSimulator_ok h')

end Requesting

end Bench

end Simulation

end NetBridge
