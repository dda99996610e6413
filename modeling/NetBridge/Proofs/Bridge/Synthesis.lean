import NetBridge.Bridge.Adaptation
import NetBridge.Pad.Mode
import NetBridge.Proofs.Arena
import NetBridge.Proofs.Table

/-! # What is made for a mode

Every role that a mode exposes gets a host signal of the shape that the role has on
the pad, whatever else is in the host netlist, and nothing that was there changes. -/
namespace NetBridge

namespace Host.Netlist

/-- The netlist has a signal of this shape under the key. -/
def Stands (m : Netlist) (shape : Shape) (id : SignalId) : Prop :=
  ∃ name, m.signal? id = some ⟨name, shape⟩

theorem Stands.extends {m later : Netlist} {shape : Shape} {id : SignalId}
    (h : m.Stands shape id) (grown : m.signals.Extends later.signals) : later.Stands shape id :=
  h.imp fun _ hs => grown hs

end Host.Netlist

namespace Bridge

open Host (Primitive)

/-- The change only adds signals, wherever it starts, and what comes back is good in
every netlist that has grown out of the changed one. -/
def Yields {α : Type} (x : HostM α) (good : Host.Netlist → α → Prop) : Prop :=
  ∀ host later : Host.Netlist, (x.run host).2.signals.Extends later.signals →
    host.signals.Extends later.signals ∧ good later (x.run host).1

namespace Yields

variable {α β : Type} {x : HostM α} {f : α → HostM β}

theorem bind {P : Host.Netlist → α → Prop} {Q : Host.Netlist → β → Prop} (hx : Yields x P)
    (hf : ∀ a, Yields (f a) fun later b => P later a → Q later b) : Yields (x >>= f) Q := by
  intro host later grown
  obtain ⟨grownF, goodF⟩ := hf (x.run host).1 (x.run host).2 later grown
  obtain ⟨grownX, goodX⟩ := hx host later grownF
  exact ⟨grownX, goodF goodX⟩

theorem pure {P : Host.Netlist → α → Prop} {a : α} (h : ∀ later, P later a) :
    Yields (Pure.pure a) P :=
  fun _ later grown => ⟨grown, h later⟩

end Yields

namespace PadSite

theorem addSignal_yields (name : String) (shape : Shape) :
    Yields (modifyGet (·.addSignal name shape)) fun later id => later.Stands shape id := by
  intro host later grown
  exact ⟨(Arena.Extends.push host.signals ⟨name, shape⟩).trans grown, name,
    grown (Arena.get?_push_nextKey host.signals ⟨name, shape⟩)⟩

theorem data_yields (s : PadSite) (suffix : String) :
    Yields (s.data suffix) fun later id => later.Stands s.shape id :=
  addSignal_yields _ _

theorem control_yields (s : PadSite) (suffix : String) :
    Yields (s.control suffix) fun later id => later.Stands .bit id :=
  addSignal_yields _ _

theorem place_yields (p : Primitive) : Yields (place p) fun _ _ => True :=
  fun _ _ grown => ⟨grown, trivial⟩

/-- The shape of the signal for a role. -/
def roleShape (s : PadSite) (r : Role) : Shape := ⟨r.width s.shape.width, r.isData && s.shape.signed⟩

/-- Each of the roles has a host signal of its shape. -/
def Supplies (s : PadSite) (roles : List Role) (host : Host.Netlist)
    (logical : List (Role × Host.SignalId)) : Prop :=
  ∀ r ∈ roles, ∃ id, Table.get? logical r = some id ∧ host.Stands (s.roleShape r) id

theorem supplies_cons {s : PadSite} {roles : List Role} {host : Host.Netlist}
    {logical : List (Role × Host.SignalId)} {r : Role} :
    s.Supplies (r :: roles) host logical ↔
      (∃ id, Table.get? logical r = some id ∧ host.Stands (s.roleShape r) id) ∧
        s.Supplies roles host logical :=
  List.forall_mem_cons

theorem supplies_nil {s : PadSite} {host : Host.Netlist}
    {logical : List (Role × Host.SignalId)} : s.Supplies [] host logical := by
  simp [Supplies]

/-- The shapes of clocks, enables and data. -/
theorem roleShape_eq (s : PadSite) (r : Role) :
    s.roleShape r = if r.isData then s.shape else .bit := by
  cases h : r.isData <;> simp [roleShape, Role.width, h, Shape.bit, Shape.unsignedBits]

theorem registeredTristate_yields (s : PadSite) (exposed : Bool) :
    Yields (s.registeredTristate exposed) fun later logical =>
      s.Supplies ((if exposed then [.i, .iClk] else []) ++ [.o, .oe, .oClk]) later logical := by
  refine (s.data_yields _).bind fun padI => (s.data_yields _).bind fun padO =>
    (s.control_yields _).bind fun oe => (place_yields _).bind fun _ => ?_
  cases exposed with
  | true =>
    simp only [if_true, pure_bind]
    refine (s.data_yields _).bind fun i => (s.control_yields _).bind fun iClk =>
      (place_yields _).bind fun _ => (s.data_yields _).bind fun o =>
      (s.control_yields _).bind fun oClk => (place_yields _).bind fun _ => Yields.pure ?_
    intro later _ hoClk ho _ hiClk hi _ hoe _ _
    simp [supplies_cons, supplies_nil, roleShape_eq, Table.get?, Role.isData, *]
  | false =>
    simp only [Bool.false_eq_true, if_false, pure_bind]
    refine (s.data_yields _).bind fun o => (s.control_yields _).bind fun oClk =>
      (place_yields _).bind fun _ => Yields.pure ?_
    intro later _ hoClk ho _ hoe _ _
    simp [supplies_cons, supplies_nil, roleShape_eq, Table.get?, Role.isData, *]

/-- All roles of a mode are supplied, if the pad itself has its shape. -/
theorem synthesize_yields {s : PadSite} {direction : Direction} {rate : Nat} {roles : List Role}
    (h : modeRoles? direction rate = some roles) :
    Yields (s.synthesize direction rate) fun later logical =>
      later.Stands s.shape s.pad → s.Supplies roles later logical := by
  unfold modeRoles? at h
  split at h
  case h_14 => cases h
  all_goals obtain rfl := Option.some.inj h
  case h_1 | h_2 | h_3 => exact Yields.pure fun later _ => supplies_nil
  case h_4 | h_7 =>
    refine Yields.pure fun later hpad => ?_
    simp [supplies_cons, supplies_nil, roleShape_eq, Table.get?, Role.isData, hpad]
  case h_5 | h_8 =>
    refine (s.data_yields _).bind fun x => (s.control_yields _).bind fun clk =>
      (place_yields _).bind fun _ => Yields.pure ?_
    intro later _ hclk hx _
    simp [supplies_cons, supplies_nil, roleShape_eq, Table.get?, Role.isData, *]
  case h_6 | h_9 =>
    refine (s.data_yields _).bind fun first => (s.data_yields _).bind fun second =>
      (s.control_yields _).bind fun clk => (place_yields _).bind fun _ => Yields.pure ?_
    intro later _ hclk hsecond hfirst _
    simp [supplies_cons, supplies_nil, roleShape_eq, Table.get?, Role.isData, *]
  case h_10 | h_12 =>
    refine (s.data_yields _).bind fun i => (s.data_yields _).bind fun o =>
      (s.control_yields _).bind fun oe => (place_yields _).bind fun _ => Yields.pure ?_
    intro later _ hoe ho hi _
    simp [supplies_cons, supplies_nil, roleShape_eq, Table.get?, Role.isData, *]
  case h_11 =>
    intro host later grown
    obtain ⟨extended, supplied⟩ := s.registeredTristate_yields true host later grown
    exact ⟨extended, fun _ r hr => supplied r (by revert r; decide)⟩
  case h_13 =>
    intro host later grown
    obtain ⟨extended, supplied⟩ := s.registeredTristate_yields false host later grown
    exact ⟨extended, fun _ => supplied⟩

end PadSite

end Bridge

end NetBridge
