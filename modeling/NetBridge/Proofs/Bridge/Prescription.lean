import NetBridge.Proofs.Bridge.Synthesis

/-! # The primitives of a mode

Each mode prescribes which signals are made for a pad, which of them are exposed, and
the primitives between them. A pad is exposed itself, or one primitive has it on its
pad side and nothing else touches it. -/
namespace NetBridge

namespace Host.Primitive

/-- The signals that a primitive is wired to. -/
def terminals : Primitive → List SignalId
  | tristate target o oe i => target :: o :: i :: oe.reads
  | sdrInput i o clk => [i, o, clk]
  | sdrOutput i o clk => [i, o, clk]
  | ddrInput i o1 o2 clk => [i, o1, o2, clk]
  | ddrOutput i1 i2 o clk => [i1, i2, o, clk]
  | blackBox inst => inst.ports.values

/-- The terminal on the side of the pad. -/
def padSide? : Primitive → Option SignalId
  | tristate target _ _ _ => some target
  | sdrInput i _ _ => some i
  | sdrOutput _ o _ => some o
  | ddrInput i _ _ _ => some i
  | ddrOutput _ _ o _ => some o
  | blackBox _ => none

end Host.Primitive

namespace Bridge

open Host (Primitive SignalId)

/-- What a mode prescribes for a pad: the signals that are made, the signals that are
exposed in the order of the roles, and the primitives. -/
inductive Prescribed (pad : SignalId) (width : Nat) :
    Direction → Nat → List SignalId → List SignalId → List Primitive → Prop
  | nothing {direction : Direction} {rate : Nat} :
    (∀ roles, modeRoles? direction rate = some roles → roles = []) →
    Prescribed pad width direction rate [] [] []
  | input : Prescribed pad width .input 0 [] [pad] []
  | output : Prescribed pad width .output 0 [] [pad] []
  | inout (i o oe : SignalId) : Prescribed pad width .inout 0 [i, o, oe] [i, o, oe]
    [.tristate pad o (.replicate oe width) i]
  | drive (i o oe : SignalId) : Prescribed pad width .drive 0 [i, o, oe] [o, oe]
    [.tristate pad o (.replicate oe width) i]
  | registeredInput (i clk : SignalId) : Prescribed pad width .input 1 [i, clk] [i, clk]
    [.sdrInput pad i clk]
  | registeredOutput (o clk : SignalId) : Prescribed pad width .output 1 [o, clk] [o, clk]
    [.sdrOutput o pad clk]
  | registeredInout (padI padO oe i iClk o oClk : SignalId) :
    Prescribed pad width .inout 1 [padI, padO, oe, i, iClk, o, oClk] [i, o, oe, iClk, oClk]
      [.tristate pad padO (.replicate oe width) padI, .sdrInput padI i iClk,
        .sdrOutput o padO oClk]
  | registeredDrive (padI padO oe o oClk : SignalId) :
    Prescribed pad width .drive 1 [padI, padO, oe, o, oClk] [o, oe, oClk]
      [.tristate pad padO (.replicate oe width) padI, .sdrOutput o padO oClk]
  | doubleInput (i0 i1 clk : SignalId) : Prescribed pad width .input 2 [i0, i1, clk] [i0, i1, clk]
    [.ddrInput pad i0 i1 clk]
  | doubleOutput (o0 o1 clk : SignalId) : Prescribed pad width .output 2 [o0, o1, clk] [o0, o1, clk]
    [.ddrOutput o0 o1 pad clk]

namespace Prescribed

variable {pad : SignalId} {width : Nat} {direction : Direction} {rate : Nat}
  {made exposed : List SignalId} {prims : List Primitive}

/-- No mode asks for an instance of another module. -/
theorem no_instances (h : Prescribed pad width direction rate made exposed prims) :
    prims.filterMap Primitive.instance? = [] := by
  cases h <;> rfl

/-- Primitives are wired to the pad and to what is made for it. -/
theorem terminals_subset (h : Prescribed pad width direction rate made exposed prims) :
    prims.flatMap Primitive.terminals ⊆ pad :: made := by
  cases h <;> simp [Primitive.terminals, Host.Expr.reads]

theorem exposed_subset (h : Prescribed pad width direction rate made exposed prims) :
    exposed ⊆ pad :: made := by
  cases h <;> simp

theorem exposed_nodup (h : Prescribed pad width direction rate made exposed prims)
    (nodup : made.Nodup) : exposed.Nodup := by
  cases h <;> simp_all [eq_comm]

/-- If there are primitives, the first one has the pad on its pad side, and nothing else
touches it. -/
theorem pad_wired (h : Prescribed pad width direction rate made exposed prims)
    (new : pad ∉ made) :
    prims = [] ∨ ∃ p rest, prims = p :: rest ∧ p.padSide? = some pad ∧
      p.terminals.count pad = 1 ∧ (∀ q ∈ rest, pad ∉ q.terminals) ∧ pad ∉ exposed := by
  cases h with
  | nothing | input | output => exact .inl rfl
  | inout | drive | registeredInput | registeredOutput | registeredInout | registeredDrive
  | doubleInput | doubleOutput =>
    refine .inr ⟨_, _, rfl, rfl, ?_, ?_, ?_⟩ <;>
      simp_all [Primitive.terminals, Host.Expr.reads, eq_comm]

end Prescribed

/-- The change answers `a`. It makes the signals and appends the primitives, and nothing
else is changed. -/
structure Makes {α : Type} (host : Host.Netlist) (x : HostM α) (a : α) (made : List SignalId)
    (prims : List Primitive) (host' : Host.Netlist) : Prop where
  run : x.run host = (a, host')
  adds : host.signals.Adds host'.signals made
  rest : host' = { host with signals := host'.signals, primitives := host.primitives ++ prims }

namespace Makes

variable {α β : Type} {host host₁ host₂ : Host.Netlist}

theorem pure (a : α) : Makes host (Pure.pure a) a [] [] host :=
  ⟨rfl, .refl _, by simp⟩

theorem bind {x : HostM α} {f : α → HostM β} {a : α} {b : β} {made made' : List SignalId}
    {prims prims' : List Primitive} (hx : Makes host x a made prims host₁)
    (hf : Makes host₁ (f a) b made' prims' host₂) :
    Makes host (x >>= f) b (made ++ made') (prims ++ prims') host₂ where
  run := by
    have second := hf.run
    rw [StateT.run_bind, hx.run]
    exact second
  adds := hx.adds.append hf.adds
  rest := by
    rw [hf.rest, hx.rest, List.append_assoc]

end Makes

namespace PadSite

theorem addSignal_makes (name : String) (shape : Shape) (host : Host.Netlist) :
    Makes host (modifyGet (·.addSignal name shape)) host.signals.nextKey
      [host.signals.nextKey] [] (host.addSignal name shape).2 :=
  ⟨rfl, .push _ _, by simp [Host.Netlist.addSignal]⟩

theorem data_makes (s : PadSite) (suffix : String) (host : Host.Netlist) :
    Makes host (s.data suffix) host.signals.nextKey [host.signals.nextKey] []
      (host.addSignal s!"{s.name}_{suffix}" s.shape).2 :=
  addSignal_makes _ _ _

theorem control_makes (s : PadSite) (suffix : String) (host : Host.Netlist) :
    Makes host (s.control suffix) host.signals.nextKey [host.signals.nextKey] []
      (host.addSignal s!"{s.name}_{suffix}" .bit).2 :=
  addSignal_makes _ _ _

theorem place_makes (p : Primitive) (host : Host.Netlist) :
    Makes host (place p) () [] [p] (host.addPrimitive p) :=
  ⟨rfl, .refl _, rfl⟩

/-- What is made for a pad is what its mode prescribes, and each role gets the signal
that is exposed for it. -/
structure Synthesized (s : PadSite) (direction : Direction) (rate : Nat) (host : Host.Netlist)
    (logical : List (Role × SignalId)) (made exposed : List SignalId) (prims : List Primitive)
    (host' : Host.Netlist) : Prop where
  prescribed : Prescribed s.pad s.shape.width direction rate made exposed prims
  makes : Makes host (s.synthesize direction rate) logical made prims host'
  found : ∀ roles, modeRoles? direction rate = some roles →
    roles.map (Table.get? logical) = exposed.map some

theorem found_of_roles {direction : Direction} {rate : Nat} {roles : List Role}
    {logical : List (Role × SignalId)} {exposed : List SignalId}
    (h : modeRoles? direction rate = some roles)
    (found : roles.map (Table.get? logical) = exposed.map some) :
    ∀ roles, modeRoles? direction rate = some roles →
      roles.map (Table.get? logical) = exposed.map some := by
  intro roles' h'
  obtain rfl := Option.some.inj (h.symm.trans h')
  exact found

theorem synthesize_makes (s : PadSite) (direction : Direction) (rate : Nat) (host : Host.Netlist) :
    ∃ logical made exposed prims host',
      Synthesized s direction rate host logical made exposed prims host' := by
  have nothing : s.synthesize direction rate = Pure.pure [] →
      (∀ roles, modeRoles? direction rate = some roles → roles = []) →
      ∃ logical made exposed prims host',
        Synthesized s direction rate host logical made exposed prims host' := by
    intro idle none
    refine ⟨[], [], [], [], host, .nothing none, idle ▸ .pure [], fun roles h => ?_⟩
    rw [none roles h]
    rfl
  match direction, rate with
  | .idle, _ =>
    refine nothing rfl fun roles h => ?_
    unfold modeRoles? at h
    split at h <;> simp_all
  | .input, 0 => exact ⟨_, _, _, _, _, .input, .pure _, found_of_roles rfl rfl⟩
  | .output, 0 => exact ⟨_, _, _, _, _, .output, .pure _, found_of_roles rfl rfl⟩
  | .inout, 0 =>
    exact ⟨_, _, _, _, _, .inout _ _ _, (s.data_makes _ _).bind <| (s.data_makes _ _).bind <|
      (s.control_makes _ _).bind <| (place_makes _ _).bind <| .pure _, found_of_roles rfl rfl⟩
  | .drive, 0 =>
    exact ⟨_, _, _, _, _, .drive _ _ _, (s.data_makes _ _).bind <| (s.data_makes _ _).bind <|
      (s.control_makes _ _).bind <| (place_makes _ _).bind <| .pure _, found_of_roles rfl rfl⟩
  | .input, 1 =>
    exact ⟨_, _, _, _, _, .registeredInput _ _, (s.data_makes _ _).bind <|
      (s.control_makes _ _).bind <| (place_makes _ _).bind <| .pure _, found_of_roles rfl rfl⟩
  | .output, 1 =>
    exact ⟨_, _, _, _, _, .registeredOutput _ _, (s.data_makes _ _).bind <|
      (s.control_makes _ _).bind <| (place_makes _ _).bind <| .pure _, found_of_roles rfl rfl⟩
  | .inout, 1 =>
    exact ⟨_, _, _, _, _, .registeredInout _ _ _ _ _ _ _, (s.data_makes _ _).bind <|
      (s.data_makes _ _).bind <| (s.control_makes _ _).bind <| (place_makes _ _).bind <|
      (s.data_makes _ _).bind <| (s.control_makes _ _).bind <| (place_makes _ _).bind <|
      (Makes.pure _).bind <|
      (s.data_makes _ _).bind <| (s.control_makes _ _).bind <| (place_makes _ _).bind <| .pure _,
      found_of_roles rfl rfl⟩
  | .drive, 1 =>
    exact ⟨_, _, _, _, _, .registeredDrive _ _ _ _ _, (s.data_makes _ _).bind <|
      (s.data_makes _ _).bind <| (s.control_makes _ _).bind <| (place_makes _ _).bind <|
      (Makes.pure _).bind <|
      (s.data_makes _ _).bind <| (s.control_makes _ _).bind <| (place_makes _ _).bind <| .pure _,
      found_of_roles rfl rfl⟩
  | .input, 2 =>
    exact ⟨_, _, _, _, _, .doubleInput _ _ _, (s.data_makes _ _).bind <| (s.data_makes _ _).bind <|
      (s.control_makes _ _).bind <| (place_makes _ _).bind <| .pure _, found_of_roles rfl rfl⟩
  | .output, 2 =>
    exact ⟨_, _, _, _, _, .doubleOutput _ _ _, (s.data_makes _ _).bind <|
      (s.data_makes _ _).bind <| (s.control_makes _ _).bind <| (place_makes _ _).bind <| .pure _,
      found_of_roles rfl rfl⟩
  | .inout, _ + 2 => exact nothing rfl fun _ h => nomatch h
  | .drive, _ + 2 => exact nothing rfl fun _ h => nomatch h
  | .input, _ + 3 => exact nothing rfl fun _ h => nomatch h
  | .output, _ + 3 => exact nothing rfl fun _ h => nomatch h

end PadSite

end Bridge

end NetBridge
