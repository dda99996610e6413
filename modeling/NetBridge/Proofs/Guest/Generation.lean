import NetBridge.Proofs.Guest.Check
import NetBridge.Proofs.Guest.Naming

/-! # What a successful generation consists of

Generation passes its checks, collects the drivers, the ports and the signals to
name, and then cannot fail. -/
namespace NetBridge.Guest

namespace Netlist

/-- The stages that lead to a module, with what each of them found. -/
structure Stages (m : Netlist) (targets : List Target) where
  drivers : Drivers
  ports : Table SignalId PortDirection
  order : List SignalId
  widths_ok : m.checkWidths = .ok ()
  drivers_ok : m.drivers = .ok drivers
  statements_ok : m.statements.forM m.checkStatement = .ok ()
  ports_ok : m.ports drivers targets = .ok ports
  order_ok : m.named ports = .ok order

namespace Stages

variable {m : Netlist} {targets : List Target}

def names (s : m.Stages targets) : Table SignalId String := m.bySignal (m.nameAll [] s.order).1

/-- The names in use once all signals are named. -/
def taken (s : m.Stages targets) : List String := (m.nameAll [] s.order).2

def nameOf (s : m.Stages targets) (id : SignalId) : String := (Table.get? s.names id).getD ""

def generated (s : m.Stages targets) (name : String) : Generated :=
  ⟨m.moduleOf name s.drivers s.ports s.names s.taken, s.names, s.ports⟩

end Stages

theorem generate_eq_ok {m : Netlist} {name : String} {targets : List Target} {g : Generated} :
    m.generate name targets = .ok g ↔ ∃ s : m.Stages targets, s.generated name = g := by
  constructor
  · intro h
    cases hw : m.checkWidths with
    | error e => simp [generate, hw, bind, Except.bind] at h
    | ok w =>
    cases hd : m.drivers with
    | error e => simp [generate, hw, hd, bind, Except.bind] at h
    | ok drivers =>
    cases hs : m.statements.forM m.checkStatement with
    | error e => simp [generate, hw, hd, hs, bind, Except.bind] at h
    | ok u =>
    cases hp : m.ports drivers targets with
    | error e => simp [generate, hw, hd, hs, hp, bind, Except.bind] at h
    | ok ports =>
    cases ho : m.named ports with
    | error e => simp [generate, hw, hd, hs, hp, ho, bind, Except.bind] at h
    | ok order =>
      refine ⟨⟨drivers, ports, order, hw, hd, hs, hp, ho⟩, ?_⟩
      simp only [generate, hw, hd, hs, hp, ho, bind, Except.bind, pure, Except.pure] at h
      exact Except.ok.inj h
  · rintro ⟨s, rfl⟩
    simp [generate, s.widths_ok, s.drivers_ok, s.statements_ok, s.ports_ok, s.order_ok, bind,
      Except.bind, pure, Except.pure, Stages.generated, Stages.names, Stages.taken]

namespace Stages

variable {m : Netlist} {targets : List Target} (s : m.Stages targets)

theorem drivenBy : DrivenBy m m.statements s.drivers := drivers_drivenBy s.drivers_ok

theorem portsFor : PortsFor m s.drivers targets s.ports := ports_portsFor s.ports_ok

theorem order_nodup : s.order.Nodup := named_nodup s.portsFor.nodup s.order_ok

theorem mem_order {id : SignalId} : id ∈ s.order ↔ id ∈ s.ports.keys ∨ id ∈ m.mentioned :=
  mem_named s.order_ok

theorem allocated {id : SignalId} (h : id ∈ s.order) : m.signals.contains id = true :=
  (named_ok s.order_ok).1 id (List.mem_append.mpr (s.mem_order.mp h))

theorem names_nodup : s.names.keys.Nodup := m.bySignal_nodup _

theorem get?_names {id : SignalId} (h : id ∈ s.order) :
    Table.get? s.names id = Table.get? (m.nameAll [] s.order).1 id := by
  rw [names, get?_bySignal, if_pos (s.allocated h)]

theorem mem_names_keys {id : SignalId} : id ∈ s.names.keys ↔ id ∈ s.order := by
  rw [← Table.get?_isSome_iff, names, get?_bySignal]
  split
  · rw [Table.get?_isSome_iff, nameAll_keys]
  · rename_i hc
    exact ⟨fun h => absurd h (by simp), fun h => absurd (s.allocated h) hc⟩

theorem get?_names_eq {id : SignalId} (h : id ∈ s.order) :
    Table.get? s.names id = some (s.nameOf id) := by
  obtain ⟨name, hname⟩ := Table.exists_get?_of_mem_keys (s.mem_names_keys.mpr h)
  rw [nameOf, hname]
  rfl

theorem taken_nodup : s.taken.Nodup := m.nameAll_nodup [] s.order List.nodup_nil

theorem taken_legal : ∀ n ∈ s.taken, Verilog.isName n = true :=
  m.nameAll_legal [] s.order (by simp)

theorem taken_eq : s.taken = (m.nameAll [] s.order).1.values.reverse := by
  simpa [taken] using m.nameAll_taken [] s.order

theorem nameOf_mem_taken {id : SignalId} (h : id ∈ s.order) : s.nameOf id ∈ s.taken := by
  have hget := s.get?_names_eq h
  rw [s.get?_names h] at hget
  rw [taken_eq, List.mem_reverse]
  exact List.mem_map_of_mem (Table.mem_of_get? hget)

/-- Different signals have different names. -/
theorem nameOf_injective {a b : SignalId} (ha : a ∈ s.order) (hb : b ∈ s.order)
    (h : s.nameOf a = s.nameOf b) : a = b := by
  have values : (m.nameAll [] s.order).1.values.Nodup := by
    have := s.taken_nodup
    rwa [taken_eq, List.nodup_reverse] at this
  have hga := s.get?_names_eq ha
  have hgb := s.get?_names_eq hb
  rw [s.get?_names ha] at hga
  rw [s.get?_names hb, ← h] at hgb
  exact congrArg Prod.fst (List.inj_on_of_nodup_map values (Table.mem_of_get? hga)
    (Table.mem_of_get? hgb) rfl)

theorem mem_taken {n : String} : n ∈ s.taken ↔ ∃ id ∈ s.order, s.nameOf id = n := by
  constructor
  · intro h
    rw [taken_eq, List.mem_reverse] at h
    obtain ⟨⟨id, name⟩, hp, rfl⟩ := List.mem_map.mp h
    have hkeys : (Table.keys (m.nameAll [] s.order).1).Nodup := by
      rw [nameAll_keys]
      exact s.order_nodup
    have hid : id ∈ s.order := by
      have := Table.mem_keys_of_mem hp
      rwa [nameAll_keys] at this
    refine ⟨id, hid, ?_⟩
    have hget := s.get?_names_eq hid
    rw [s.get?_names hid, Table.get?_of_mem hkeys hp] at hget
    exact (Option.some.inj hget).symm
  · rintro ⟨id, hid, rfl⟩
    exact s.nameOf_mem_taken hid

theorem get?_names_iff {id : SignalId} {n : String} :
    Table.get? s.names id = some n ↔ id ∈ s.order ∧ s.nameOf id = n := by
  constructor
  · intro h
    have hid : id ∈ s.order := s.mem_names_keys.mp (Table.mem_keys_of_get? h)
    rw [s.get?_names_eq hid] at h
    exact ⟨hid, Option.some.inj h⟩
  · rintro ⟨hid, rfl⟩
    exact s.get?_names_eq hid

theorem not_mem_taken {n : String} :
    n ∉ s.taken ↔ ∀ id, Table.get? s.names id ≠ some n := by
  simp only [Ne, s.get?_names_iff, s.mem_taken, not_exists]

theorem port_named {id : SignalId} (h : id ∈ s.ports.keys) : id ∈ s.order :=
  s.mem_order.mpr (Or.inl h)

theorem driven_named {st : Statement} (h : st ∈ m.statements) : st.target ∈ s.order :=
  s.mem_order.mpr (Or.inr (mem_mentioned.mpr ⟨st, h, Or.inl rfl⟩))

theorem read_named {st : Statement} (h : st ∈ m.statements) {id : SignalId}
    (hr : id ∈ st.value.reads) : id ∈ s.order :=
  s.mem_order.mpr (Or.inr (mem_mentioned.mpr ⟨st, h, Or.inr (Or.inl hr)⟩))

/-- A port is an output exactly if a statement drives it. -/
theorem direction_eq {id : SignalId} {d : PortDirection} (h : Table.get? s.ports id = some d) :
    d = .output ↔ ∃ st ∈ m.statements, st.target = id := by
  rw [← s.drivenBy.mem_keys_iff, ← Table.contains_iff]
  have := s.portsFor.direction _ (Table.mem_of_get? h)
  by_cases hc : Table.contains s.drivers id <;> simp_all

end Stages

end Netlist

end NetBridge.Guest
