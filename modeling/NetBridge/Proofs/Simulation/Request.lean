import NetBridge.Simulation.Bench
import NetBridge.Proofs.Arena
import NetBridge.Proofs.Capability.Signature
import NetBridge.FieldTree
import NetBridge.Proofs.Pad.Mode
import NetBridge.Proofs.Running
import NetBridge.Proofs.Table

/-! # Making pins

A request makes a port for every leaf of a layout and a signal for each role of its
mode. Whether it succeeds or fails, all it does to a simulator is to add signals. -/
namespace NetBridge.Simulation

variable {ρ : Type}

/-- Signals were added and nothing else was done. All new signals are at zero. -/
structure Added {π : Type} (s s' : Simulator π) (ids : List SignalId) : Prop where
  only : s' = { s with signals := s'.signals }
  adds : s.signals.Adds s'.signals ids
  zero : ∀ id x, s'.signals.get? id = some x →
    s.signals.get? id = some x ∨ x.value = 0 ∧ 0 < x.width ∧ x.width ≤ 64

namespace Added

variable {π : Type} {s s₁ s₂ : Simulator π} {ids ids' : List SignalId}

theorem refl (s : Simulator π) : Added s s [] := ⟨rfl, .refl _, fun _ _ h => .inl h⟩

theorem append (first : Added s s₁ ids) (second : Added s₁ s₂ ids') :
    Added s s₂ (ids ++ ids') where
  only := by rw [second.only, first.only]
  adds := first.adds.append second.adds
  zero id x h := (second.zero id x h).elim (first.zero id x) .inr

theorem perm (h : Added s s₁ ids) (hp : ids.Perm ids') : Added s s₁ ids' :=
  ⟨h.only, h.adds.perm hp, h.zero⟩

end Added

namespace Simulator

variable {π : Type}

theorem addSignal_run (name : String) (width : Nat) (s : Simulator π) : addSignal name width s =
    if width = 0 ∨ 64 < width then .error (.invalidWidth name width) s
    else .ok s.signals.nextKey { s with signals := s.signals.push ⟨name, width, 0⟩ } := by
  rw [addSignal]
  split <;> rfl

theorem added_push (s : Simulator π) (name : String) {width : Nat} (pos : 0 < width)
    (le : width ≤ 64) :
    Added s { s with signals := s.signals.push ⟨name, width, 0⟩ } [s.signals.nextKey] where
  only := rfl
  adds := .push _ _
  zero id x h := by
    rw [Arena.get?_push] at h
    split at h
    · obtain rfl := Option.some.inj h
      exact .inr ⟨rfl, pos, le⟩
    · exact .inl h

end Simulator

/-- The signals of a pin, its port first. -/
def Pin.ids (p : Pin) : List SignalId := p.port :: p.signals.values

/-- The signals of a pin are there, named and sized for its mode. -/
structure Minted (signals : Arena Signal) (port : String) (width : Nat) (p : Pin) : Prop where
  port : ∃ v, signals.get? p.port = some ⟨port, width, v⟩
  roles : ∃ roles, modeRoles p.direction p.rate = .ok roles ∧
    p.signals.keys = Role.all.filter (· ∈ roles)
  signals : ∀ q ∈ p.signals, ∃ v,
    signals.get? q.2 = some ⟨s!"{p.name}_{q.1.text}", q.1.width width, v⟩

/-- The signals of the first arena are in the second one, whatever values they have there. -/
def Retains (a b : Arena Signal) : Prop :=
  ∀ id x, a.get? id = some x → ∃ v, b.get? id = some { x with value := v }

theorem Minted.retained {a b : Arena Signal} {port : String} {width : Nat} {p : Pin}
    (h : Minted a port width p) (retains : Retains a b) : Minted b port width p where
  port := by
    obtain ⟨v, hv⟩ := h.port
    exact retains _ _ hv
  roles := h.roles
  signals q hq := by
    obtain ⟨v, hv⟩ := h.signals q hq
    exact retains _ _ hv

theorem Minted.extends {a b : Arena Signal} {port : String} {width : Nat} {p : Pin}
    (h : Minted a port width p) (grown : a.Extends b) : Minted b port width p :=
  h.retained fun _ x hx => ⟨x.value, grown hx⟩

/-- The signal is there and has the width. -/
def Sized (signals : Arena Signal) (id : SignalId) (width : Nat) : Prop :=
  ∃ x, signals.get? id = some x ∧ x.width = width

theorem Minted.sized_port {signals : Arena Signal} {port : String} {width : Nat} {p : Pin}
    (h : Minted signals port width p) : Sized signals p.port width := by
  obtain ⟨v, hv⟩ := h.port
  exact ⟨_, hv, rfl⟩

theorem Minted.width_eq {signals : Arena Signal} {port : String} {width : Nat} {p : Pin} {x : Signal}
    (h : Minted signals port width p) (hx : signals.get? p.port = some x) : x.width = width := by
  obtain ⟨v, hv⟩ := h.port
  exact congrArg Signal.width (Option.some.inj (hx.symm.trans hv))

theorem Minted.sized {signals : Arena Signal} {port : String} {width : Nat} {p : Pin} {x : SignalId}
    (h : Minted signals port width p) {r : Role} (hr : p.signal? r = some x) :
    Sized signals x (r.width width) := by
  obtain ⟨v, hv⟩ := h.signals _ (Table.mem_of_get? hr)
  exact ⟨_, hv, rfl⟩

/-- The pad that a pin stands for, as wide as its port. -/
def Pin.padShape (signals : Arena Signal) (p : Pin) : PadShape where
  width := ((signals.get? p.port).map Signal.width).getD 0
  inverted := p.invert

theorem Minted.padShape {signals : Arena Signal} {port : String} {width : Nat} {p : Pin}
    (h : Minted signals port width p) : p.padShape signals = ⟨width, p.invert⟩ := by
  obtain ⟨v, hv⟩ := h.port
  rw [Pin.padShape, hv]
  rfl

/-- Pins stand for the same pads as long as their signals are there. -/
theorem PinTree.map_padShape_retained {a b : Arena Signal} {pins : PinTree}
    (minted : ∀ p ∈ pins.leaves, ∃ port width, Minted a port width p) (retains : Retains a b) :
    pins.map (Pin.padShape b) = pins.map (Pin.padShape a) :=
  FieldTree.map_congr fun p hp => by
    obtain ⟨port, width, minted⟩ := minted p hp
    rw [minted.padShape, (minted.retained retains).padShape]

namespace Bench

theorem role_width_le {r : Role} {width : Nat} (pos : 0 < width) (le : width ≤ 64) :
    0 < r.width width ∧ r.width width ≤ 64 := by
  rw [Role.width]
  split <;> omega

theorem roleSignals_ok (pin : String) {width : Nat} (roles : List Role) (pos : 0 < width)
    (le : width ≤ 64) (s : Simulator (PinProcess ⊕ ρ)) :
    ∃ (signals : Table Role SignalId) (s' : Simulator (PinProcess ⊕ ρ)),
      roleSignals pin width roles s = .ok signals s' ∧ signals.keys = roles ∧
      (∀ q ∈ signals, ∃ v,
        s'.signals.get? q.2 = some ⟨s!"{pin}_{q.1.text}", q.1.width width, v⟩) ∧
      Added s s' signals.values := by
  induction roles generalizing s with
  | nil => exact ⟨[], s, rfl, rfl, by simp, .refl s⟩
  | cons r rest ih =>
    obtain ⟨rolePos, roleLe⟩ := role_width_le (r := r) pos le
    have first := Simulator.addSignal_run s!"{pin}_{r.text}" (r.width width) s
    rw [if_neg (by omega)] at first
    have added := Simulator.added_push s s!"{pin}_{r.text}" rolePos roleLe
    obtain ⟨signals, s', hrun, hkeys, hsignals, addedRest⟩ := ih _
    refine ⟨(r, s.signals.nextKey) :: signals, s', ?_, congrArg (r :: ·) hkeys, ?_,
      added.append addedRest⟩
    · rw [roleSignals, bind_of_ok first, bind_of_ok hrun]
      rfl
    · exact List.forall_mem_cons.mpr
        ⟨⟨0, addedRest.adds.grown (Arena.get?_push_nextKey _ _)⟩, hsignals⟩

/-- Putting the signals into the order of the roles loses none of them. -/
theorem inRoleOrder_perm {signals : Table Role SignalId} (nodup : signals.keys.Nodup) :
    (inRoleOrder signals).Perm signals := by
  have distinct : (inRoleOrder signals).keys.Nodup := by
    rw [inRoleOrder, Table.keys_filterMap]
    exact Role.nodup_all.filter _
  refine (List.perm_ext_iff_of_nodup distinct.of_map nodup.of_map).mpr fun q => ?_
  rw [inRoleOrder, List.mem_filterMap]
  constructor
  · rintro ⟨r, -, hr⟩
    obtain ⟨id, hid, rfl⟩ := Option.map_eq_some_iff.mp hr
    exact Table.mem_of_get? hid
  · intro hq
    exact ⟨q.1, Role.mem_all q.1, by rw [Table.get?_of_mem nodup hq]; rfl⟩

section MakePin

variable (port pin : String) {pad : PadShape} {direction : Direction} {rate : Nat}
  (s : Simulator (PinProcess ⊕ ρ))

theorem makePin_unsupported {e : UnsupportedMode} (h : modeRoles direction rate = .error e) :
    makePin port pin pad direction rate s = .error (.unsupportedPin e) s := by
  simp [makePin, h]

theorem makePin_invalidWidth {roles : List Role} (h : modeRoles direction rate = .ok roles)
    (invalid : pad.width = 0 ∨ 64 < pad.width) :
    makePin port pin pad direction rate s = .error (.invalidWidth port pad.width) s := by
  have first := Simulator.addSignal_run port pad.width s
  rw [if_pos invalid] at first
  simp only [makePin, h]
  exact bind_of_error first

theorem makePin_ok {roles : List Role} (h : modeRoles direction rate = .ok roles)
    (pos : 0 < pad.width) (le : pad.width ≤ 64) : ∃ (p : Pin) (s' : Simulator (PinProcess ⊕ ρ)),
    makePin port pin pad direction rate s = .ok p s' ∧
      (p.name = pin ∧ p.direction = direction ∧ p.rate = rate ∧ p.invert = pad.inverted) ∧
      Minted s'.signals port pad.width p ∧ Added s s' p.ids := by
  have first := Simulator.addSignal_run port pad.width s
  rw [if_neg (by omega)] at first
  have added := Simulator.added_push s port pos le
  obtain ⟨signals, s', hrun, hkeys, hsignals, addedRest⟩ := roleSignals_ok pin roles pos le
    { s with signals := s.signals.push ⟨port, pad.width, 0⟩ }
  have nodup : signals.keys.Nodup := by
    rw [hkeys]
    exact modeRoles?_nodup (modeRoles?_of_ok h)
  have order := inRoleOrder_perm nodup
  refine ⟨⟨pin, s.signals.nextKey, direction, rate, pad.inverted, inRoleOrder signals⟩, s', ?_,
    ⟨rfl, rfl, rfl, rfl⟩, ⟨?_, ⟨roles, h, ?_⟩, ?_⟩, ?_⟩
  · simp only [makePin, h]
    rw [bind_of_ok first, bind_of_ok hrun]
    rfl
  · exact ⟨0, addedRest.adds.grown (Arena.get?_push_nextKey _ _)⟩
  · rw [← hkeys]
    exact Table.keys_filterMap Role.all signals
  · exact fun q hq => hsignals q (order.mem_iff.mp hq)
  · exact added.append (addedRest.perm (order.map Prod.snd).symm)

end MakePin

/-- What making pins comes to: their signals are new and sized for their modes. Where it
fails, some signals may have been added. -/
def Makes {α : Type} (pins : α → List Pin) (s : Simulator (PinProcess ⊕ ρ)) :
    EStateM.Result Error (Simulator (PinProcess ⊕ ρ)) α → Prop
  | .ok a s' => Added s s' ((pins a).flatMap Pin.ids) ∧
      ∀ p ∈ pins a, ∃ port width, Minted s'.signals port width p
  | .error _ s' => ∃ ids, Added s s' ids

theorem makePin_makes (port pin : String) (pad : PadShape) (direction : Direction) (rate : Nat)
    (s : Simulator (PinProcess ⊕ ρ)) :
    Makes (fun p => [p]) s (makePin port pin pad direction rate s) := by
  cases hroles : modeRoles direction rate with
  | error e =>
    rw [makePin_unsupported port pin s hroles]
    exact ⟨[], .refl s⟩
  | ok roles =>
    by_cases invalid : pad.width = 0 ∨ 64 < pad.width
    · rw [makePin_invalidWidth port pin s hroles invalid]
      exact ⟨[], .refl s⟩
    · obtain ⟨pos, le⟩ : 0 < pad.width ∧ pad.width ≤ 64 := by omega
      obtain ⟨p, s', hrun, -, minted, added⟩ := makePin_ok port pin s hroles pos le
      rw [hrun]
      exact ⟨by simpa using added, List.forall_mem_singleton.mpr ⟨_, _, minted⟩⟩

/-- A step that adds nothing, failed or not, comes first. -/
theorem Makes.after_check {α β : Type} {pins : β → List Pin} {s : Simulator (PinProcess ⊕ ρ)}
    {x : SimM (PinProcess ⊕ ρ) α} {f : α → SimM (PinProcess ⊕ ρ) β}
    (hx : (∃ a, x s = .ok a s) ∨ ∃ e, x s = .error e s) (hf : ∀ a, Makes pins s (f a s)) :
    Makes pins s ((x >>= f) s) := by
  rcases hx with ⟨a, h⟩ | ⟨e, h⟩
  · rw [bind_of_ok h]
    exact hf a
  · rw [bind_of_error h]
    exact ⟨[], .refl s⟩

theorem Makes.map {α β : Type} {pins : α → List Pin} {pins' : β → List Pin}
    {s : Simulator (PinProcess ⊕ ρ)} {x : SimM (PinProcess ⊕ ρ) α} {g : α → β}
    (hx : Makes pins s (x s)) (hg : ∀ a, pins' (g a) = pins a) :
    Makes pins' s ((x >>= fun a => pure (g a)) s) := by
  cases h : x s with
  | error e s' =>
    rw [h] at hx
    rw [bind_of_error h]
    exact hx
  | ok a s' =>
    rw [h] at hx
    rw [bind_of_ok h]
    simpa only [Makes, pure_run, hg] using hx

theorem single_checks {α : Type} (pin : String) (spec : Option (Spec α))
    (s : Simulator (PinProcess ⊕ ρ)) :
    (∃ a, single pin spec s = .ok a s) ∨ ∃ e, single pin spec s = .error e s := by
  rw [single]
  cases Spec.single? spec with
  | some value => exact .inl ⟨_, rfl⟩
  | none => exact .inr ⟨_, rfl⟩

theorem checkFields_checks {α : Type} (group : String) (fields : List String)
    (spec : Option (Spec α)) (s : Simulator (PinProcess ⊕ ρ)) :
    (∃ a, checkFields group fields spec s = .ok a s) ∨
      ∃ e, checkFields group fields spec s = .error e s := by
  rw [checkFields]
  cases Spec.strayField? spec fields with
  | some field => exact .inr ⟨_, rfl⟩
  | none => exact .inl ⟨_, rfl⟩

mutual

theorem build_makes (port pin : String) (direction : Option DirectionSpec)
    (rate : Option RateSpec) : ∀ (layout : Layout) (s : Simulator (PinProcess ⊕ ρ)),
      Makes FieldTree.leaves s (build port pin direction rate layout s)
  | .leaf pad, s => by
    rw [build]
    refine Makes.after_check (single_checks ..) fun d => ?_
    refine Makes.after_check (single_checks ..) fun r => ?_
    exact (makePin_makes ..).map fun _ => rfl
  | .group fields, s => by
    rw [build]
    refine Makes.after_check (checkFields_checks ..) fun _ => ?_
    refine Makes.after_check (checkFields_checks ..) fun _ => ?_
    exact (buildFields_makes port pin direction rate fields s).map fun _ => rfl

theorem buildFields_makes (port pin : String) (direction : Option DirectionSpec)
    (rate : Option RateSpec) :
    ∀ (fields : List (String × Layout)) (s : Simulator (PinProcess ⊕ ρ)),
      Makes FieldTree.fieldLeaves s (buildFields port pin direction rate fields s)
  | [], s => ⟨.refl s, by simp [FieldTree.fieldLeaves]⟩
  | (field, layout) :: rest, s => by
    rw [buildFields]
    have first := build_makes s!"{port}_{field}" s!"{pin}_{field}" (Spec.forField direction field)
      (Spec.forField rate field) layout s
    cases h : build s!"{port}_{field}" s!"{pin}_{field}" (Spec.forField direction field)
      (Spec.forField rate field) layout s with
    | error e s₁ =>
      rw [h] at first
      rw [bind_of_error h]
      exact first
    | ok tree s₁ =>
      rw [h] at first
      obtain ⟨added, minted⟩ := first
      have others := buildFields_makes port pin direction rate rest s₁
      rw [bind_of_ok h]
      cases hr : buildFields port pin direction rate rest s₁ with
      | error e s₂ =>
        rw [hr] at others
        obtain ⟨ids, addedRest⟩ := others
        rw [bind_of_error hr]
        exact ⟨_, added.append addedRest⟩
      | ok trees s₂ =>
        rw [hr] at others
        obtain ⟨addedRest, mintedRest⟩ := others
        rw [bind_of_ok hr]
        refine ⟨?_, List.forall_mem_append.mpr ⟨fun p hp => ?_, mintedRest⟩⟩
        · simpa only [FieldTree.fieldLeaves, List.flatMap_append] using added.append addedRest
        · obtain ⟨name, width, hp⟩ := minted p hp
          exact ⟨name, width, hp.extends addedRest.adds.grown⟩

end

theorem makePin_form {port pin : String} {pad : PadShape} {direction : Direction} {rate : Nat}
    {s s' : Simulator (PinProcess ⊕ ρ)} {p : Pin}
    (h : makePin port pin pad direction rate s = .ok p s') : p.padShape s'.signals = pad := by
  cases hroles : modeRoles direction rate with
  | error e =>
    rw [makePin_unsupported port pin s hroles] at h
    cases h
  | ok roles =>
    by_cases invalid : pad.width = 0 ∨ 64 < pad.width
    · rw [makePin_invalidWidth port pin s hroles invalid] at h
      cases h
    · obtain ⟨pos, le⟩ : 0 < pad.width ∧ pad.width ≤ 64 := by omega
      obtain ⟨p', t, hrun, ⟨-, -, -, inverted⟩, minted, -⟩ := makePin_ok port pin s hroles pos le
      rw [hrun] at h
      obtain ⟨rfl, rfl⟩ := EStateM.Result.ok.inj h
      rw [minted.padShape, inverted]

mutual

/-- The pins have the form of the layout. -/
theorem build_form : ∀ {layout : Layout} {port pin : String} {direction : Option DirectionSpec}
    {rate : Option RateSpec} {s s' : Simulator (PinProcess ⊕ ρ)} {pins : PinTree},
      build port pin direction rate layout s = .ok pins s' →
      pins.map (Pin.padShape s'.signals) = layout
  | .leaf pad, _, _, _, _, _, _, _, h => by
    rw [build] at h
    obtain ⟨d, s₁, -, h⟩ := bind_eq_ok.mp h
    obtain ⟨r, s₂, -, h⟩ := bind_eq_ok.mp h
    obtain ⟨p, s₃, made, h⟩ := bind_eq_ok.mp h
    obtain ⟨rfl, rfl⟩ := EStateM.Result.ok.inj h
    exact congrArg FieldTree.leaf (makePin_form made)
  | .group fields, _, _, _, _, _, _, _, h => by
    rw [build] at h
    obtain ⟨-, s₁, -, h⟩ := bind_eq_ok.mp h
    obtain ⟨-, s₂, -, h⟩ := bind_eq_ok.mp h
    obtain ⟨trees, s₃, built, h⟩ := bind_eq_ok.mp h
    obtain ⟨rfl, rfl⟩ := EStateM.Result.ok.inj h
    exact congrArg FieldTree.group (buildFields_form built)

theorem buildFields_form : ∀ {fields : List (String × Layout)} {port pin : String}
    {direction : Option DirectionSpec} {rate : Option RateSpec}
    {s s' : Simulator (PinProcess ⊕ ρ)} {trees : List (String × PinTree)},
      buildFields port pin direction rate fields s = .ok trees s' →
      FieldTree.mapFields (Pin.padShape s'.signals) trees = fields
  | [], _, _, _, _, _, _, _, h => by
    obtain ⟨rfl, rfl⟩ := EStateM.Result.ok.inj h
    rfl
  | (field, layout) :: rest, port, pin, direction, rate, s, _, _, h => by
    rw [buildFields] at h
    obtain ⟨tree, s₁, built, h⟩ := bind_eq_ok.mp h
    obtain ⟨trees, s₂, others, h⟩ := bind_eq_ok.mp h
    obtain ⟨rfl, rfl⟩ := EStateM.Result.ok.inj h
    have made := build_makes s!"{port}_{field}" s!"{pin}_{field}" (Spec.forField direction field)
      (Spec.forField rate field) layout s
    rw [built] at made
    have madeRest := buildFields_makes port pin direction rate rest s₁
    rw [others] at madeRest
    have kept := PinTree.map_padShape_retained made.2
      (fun _ x hx => ⟨x.value, madeRest.1.adds.grown hx⟩)
    rw [FieldTree.mapFields, kept, build_form built, buildFields_form others]

end

section OnSimulator

variable {α : Type} {x : SimM (PinProcess ⊕ ρ) α} {b : Bench ρ} {s : Simulator (PinProcess ⊕ ρ)}

theorem onSimulator_ok {a : α} (h : x b.simulator = .ok a s) :
    onSimulator x b = .ok a { b with simulator := s } := by
  rw [onSimulator, h]

theorem onSimulator_error {e : Error} (h : x b.simulator = .error e s) :
    onSimulator x b = .error e { b with simulator := s } := by
  rw [onSimulator, h]

end OnSimulator

/-- What a request may come to. Nothing is made before the layout is known. -/
inductive Requesting (name : String) (index : Option Nat) (direction : Option DirectionSpec)
    (rate : Option RateSpec) (b : Bench ρ) : EStateM.Result Error (Bench ρ) PinTree → Prop
  | unknown : b.board.resource? name index = none →
    Requesting name index direction rate b (.error (.unknownResource (logicalName name index)) b)
  | repeated {resource : Resource} : b.board.resource? name index = some resource →
    (name, index) ∈ b.requested →
    Requesting name index direction rate b (.error (.alreadyRequested resource.logical) b)
  | invalid {resource : Resource} {e : BoardError} :
    b.board.resource? name index = some resource → (name, index) ∉ b.requested →
    resource.layout = .error e → Requesting name index direction rate b (.error (.board e) b)
  | failed {resource : Resource} {layout : Layout} {e : Error} {s : Simulator (PinProcess ⊕ ρ)} :
    b.board.resource? name index = some resource → (name, index) ∉ b.requested →
    resource.layout = .ok layout →
    build resource.logical s!"pad_{resource.logical}" direction rate layout b.simulator =
      .error e s →
    Requesting name index direction rate b (.error e { b with simulator := s })
  | granted {resource : Resource} {layout : Layout} {pins : PinTree}
      {s : Simulator (PinProcess ⊕ ρ)} :
    b.board.resource? name index = some resource → (name, index) ∉ b.requested →
    resource.layout = .ok layout →
    build resource.logical s!"pad_{resource.logical}" direction rate layout b.simulator =
      .ok pins s →
    Requesting name index direction rate b (.ok pins { b with
      simulator := s
      requested := b.requested ++ [(name, index)]
      waiting := b.waiting ++ pins.leaves })

theorem request_cases (name : String) (index : Option Nat) (direction : Option DirectionSpec)
    (rate : Option RateSpec) (b : Bench ρ) :
    Requesting name index direction rate b (request name index direction rate b) := by
  rw [request, bind_of_ok get_run]
  cases found : b.board.resource? name index with
  | none => exact .unknown found
  | some resource =>
    dsimp only
    by_cases repeated : b.requested.contains (name, index) = true
    · rw [if_pos repeated]
      exact .repeated found (by simpa using repeated)
    · have new : (name, index) ∉ b.requested := by simpa using repeated
      rw [if_neg repeated]
      cases laid : resource.layout with
      | error e => exact .invalid found new laid
      | ok layout =>
        cases built : build resource.logical s!"pad_{resource.logical}" direction rate layout
          b.simulator with
        | error e s =>
          dsimp only
          rw [bind_of_error (onSimulator_error built)]
          exact .failed found new laid built
        | ok pins s =>
          dsimp only
          rw [bind_of_ok (onSimulator_ok built)]
          exact .granted found new laid built

/-- What a request does to a bench: its pins wait, and nothing that was there changes. -/
theorem request_outcome (name : String) (index : Option Nat) (direction : Option DirectionSpec)
    (rate : Option RateSpec) (b : Bench ρ) :
    match request name index direction rate b with
    | .ok tree b' => Added b.simulator b'.simulator (tree.leaves.flatMap Pin.ids) ∧
        (∀ p ∈ tree.leaves, ∃ port width, Minted b'.simulator.signals port width p) ∧
        b' = { b with
          simulator := b'.simulator
          requested := b.requested ++ [(name, index)]
          waiting := b.waiting ++ tree.leaves }
    | .error _ b' => (∃ ids, Added b.simulator b'.simulator ids) ∧
        b' = { b with simulator := b'.simulator } := by
  have cases := request_cases name index direction rate b
  generalize request name index direction rate b = r at cases
  cases cases with
  | unknown | repeated | invalid => exact ⟨⟨[], .refl _⟩, rfl⟩
  | @failed resource layout _ _ _ _ _ built =>
    have made := build_makes resource.logical s!"pad_{resource.logical}" direction rate layout
      b.simulator
    rw [built] at made
    exact ⟨made, rfl⟩
  | @granted resource layout _ _ _ _ _ built =>
    have made := build_makes resource.logical s!"pad_{resource.logical}" direction rate layout
      b.simulator
    rw [built] at made
    exact ⟨made.1, made.2, rfl⟩

/-- The pins are those of the resource that has this key, one for each leaf of its layout. -/
def LaidOut (board : Board) (signals : Arena Signal) (key : String × Option Nat)
    (pins : PinTree) : Prop :=
  ∃ resource layout, board.resource? key.1 key.2 = some resource ∧ resource.layout = .ok layout ∧
    pins.map (Pin.padShape signals) = layout

theorem LaidOut.retained {board : Board} {a b : Arena Signal} {key : String × Option Nat}
    {pins : PinTree} (h : LaidOut board a key pins)
    (minted : ∀ p ∈ pins.leaves, ∃ port width, Minted a port width p) (retains : Retains a b) :
    LaidOut board b key pins := by
  obtain ⟨resource, layout, found, laid, form⟩ := h
  exact ⟨resource, layout, found, laid, (pins.map_padShape_retained minted retains).trans form⟩

/-- What is granted is there on the board, and has not been granted before. -/
theorem request_grants {name : String} {index : Option Nat} {direction : Option DirectionSpec}
    {rate : Option RateSpec} {b b' : Bench ρ} {pins : PinTree}
    (h : request name index direction rate b = .ok pins b') :
    (name, index) ∉ b.requested ∧ LaidOut b.board b'.simulator.signals (name, index) pins := by
  have cases := request_cases name index direction rate b
  rw [h] at cases
  cases cases with
  | granted found new laid built => exact ⟨new, _, _, found, laid, build_form built⟩

end Bench

end NetBridge.Simulation
