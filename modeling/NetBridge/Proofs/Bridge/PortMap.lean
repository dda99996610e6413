import Mathlib.Data.String.Basic
import NetBridge.Bridge.Basic
import NetBridge.Proofs.Guest.Generation
import NetBridge.Proofs.Shape

/-! # Port maps of generated modules

A target whose signal became a port is found in the port map, as the signal or as
the clock or reset of its domain, and with the same port. -/
namespace NetBridge

open Guest (Generated Netlist SignalId Target)

namespace Guest.Netlist.Stages

variable {m : Netlist} {targets : List Target}

def directionOf (s : m.Stages targets) (id : SignalId) : PortDirection :=
  (Table.get? s.ports id).getD .input

/-- The port that a signal becomes. -/
def portOf (s : m.Stages targets) (id : SignalId) : PortInfo := ⟨s.nameOf id, s.directionOf id⟩

variable (s : m.Stages targets)

theorem get?_ports {id : SignalId} (h : id ∈ s.ports.keys) :
    Table.get? s.ports id = some (s.directionOf id) := by
  obtain ⟨d, hd⟩ := Table.exists_get?_of_mem_keys h
  rw [directionOf, hd]
  rfl

theorem ofSignal?_eq (name : String) {id : SignalId} (h : id ∈ s.ports.keys) :
    PortMap.ofSignal? (s.generated name) id = some (s.portOf id) := by
  simp [PortMap.ofSignal?, generated, s.get?_ports h, s.get?_names_eq (s.port_named h), portOf]

/-- The label tells which signal is behind a port. -/
theorem label_inj {a b : SignalId} (ha : a ∈ s.ports.keys) (hb : b ∈ s.ports.keys) :
    (s.portOf a).label = (s.portOf b).label ↔ a = b := by
  constructor
  · intro h
    exact s.nameOf_injective (s.port_named ha) (s.port_named hb)
      (PortDirection.label_injective h).2
  · rintro rfl
    rfl

end Guest.Netlist.Stages

namespace Table

variable {κ τ α β : Type} [DecidableEq κ] [DecidableEq τ]

/-- Renaming the keys of a table keeps what is found under them. -/
theorem get?_rekey {t : Table κ α} (rename : κ → τ)
    (injective : ∀ a b, rename a = rename b → a = b) (f : κ × α → Option β) {key : κ} {a : α}
    {b : β} (h : get? t key = some a) (hf : f (key, a) = some b) :
    get? (t.filterMap fun p => (f p).map (rename p.1, ·)) (rename key) = some b := by
  induction t with
  | nil => cases h
  | cons p rest ih =>
    obtain ⟨k, w⟩ := p
    by_cases hk : k = key
    · subst hk
      obtain rfl : w = a := by simpa [get?] using h
      rw [List.filterMap_cons_some (b := (rename k, b)) (by simp [hf])]
      simp [get?]
    · have hrest := ih (by simpa [get?, hk] using h)
      have hne : rename k ≠ rename key := fun heq => hk (injective _ _ heq)
      cases hw : f (k, w) with
      | none => rwa [List.filterMap_cons_none (by simp [hw])]
      | some v =>
        rw [List.filterMap_cons_some (b := (rename k, v)) (by simp [hw])]
        simpa [get?, hne] using hrest

omit [DecidableEq κ] in
theorem get?_rekey_of_ne (t : Table κ α) (rename : κ → τ) (f : κ × α → Option β) {key : τ}
    (h : ∀ k, rename k ≠ key) :
    get? (t.filterMap fun p => (f p).map (rename p.1, ·)) key = none := by
  refine get?_eq_none_iff.mpr fun hmem => ?_
  obtain ⟨⟨k, v⟩, hp, rfl⟩ := List.mem_map.mp hmem
  obtain ⟨q, -, hq⟩ := List.mem_filterMap.mp hp
  cases hf : f q with
  | none => simp [hf] at hq
  | some w =>
    rw [hf] at hq
    exact h q.1 (congrArg Prod.fst (Option.some.inj hq))

end Table

namespace PortMap

variable {m : Netlist} {targets : List Target}

theorem get?_sortedDomains (m : Netlist) (name : String) :
    Table.get? (m.domains.mergeSort fun a b => !decide (b.1 < a.1)) name = m.domain? name := by
  refine Table.get?_mergeSort m.domains (fun a b => !decide (b < a)) ?_ ?_ name
  · intro a b c hab hbc
    simp only [Bool.not_eq_true', decide_eq_false_iff_not, not_lt] at hab hbc ⊢
    exact le_trans hab hbc
  · intro a b
    simp only [Bool.or_eq_true, Bool.not_eq_true', decide_eq_false_iff_not, not_lt]
    exact le_total a b

/-- Every way to name a signal that became a port leads to its port. -/
theorem lookup_ofGenerated (s : m.Stages targets) (name : String) {t : Target} {id : SignalId}
    (hr : m.resolve t = .ok id) (hp : id ∈ s.ports.keys) :
    lookup (ofGenerated m (s.generated name)) t = .ok (s.portOf id) := by
  have found : Table.get? (ofGenerated m (s.generated name)) t = some (s.portOf id) := by
    cases t with
    | signal i =>
      obtain rfl : i = id := by simpa [Netlist.resolve] using hr
      have hget : Table.get? (m.bySignal (s.generated name).ports) i = some (s.directionOf i) := by
        rw [Netlist.get?_bySignal, if_pos (s.allocated (s.port_named hp))]
        exact s.get?_ports hp
      rw [ofGenerated, List.append_assoc, Table.get?_append,
        Table.get?_rekey Target.signal (fun _ _ h => Target.signal.inj h)
          (fun p => ofSignal? (s.generated name) p.1) hget (s.ofSignal?_eq name hp)]
      rfl
    | clock domain =>
      cases hd : m.domain? domain with
      | none => simp [Netlist.resolve, hd] at hr
      | some d =>
        obtain rfl : d.clk = id := by simpa [Netlist.resolve, hd] using hr
        have hget := (get?_sortedDomains m domain).trans hd
        rw [ofGenerated, List.append_assoc, Table.get?_append, Table.get?_append,
          Table.get?_rekey_of_ne _ Target.signal _ (by simp),
          Table.get?_rekey Target.clock (fun _ _ h => Target.clock.inj h)
            (fun p => ofSignal? (s.generated name) p.2.clk) hget (s.ofSignal?_eq name hp)]
        rfl
    | reset domain =>
      cases hd : m.domain? domain with
      | none => simp [Netlist.resolve, hd] at hr
      | some d =>
        obtain rfl : d.rst = id := by simpa [Netlist.resolve, hd] using hr
        have hget := (get?_sortedDomains m domain).trans hd
        rw [ofGenerated, List.append_assoc, Table.get?_append, Table.get?_append,
          Table.get?_rekey_of_ne _ Target.signal _ (by simp),
          Table.get?_rekey_of_ne _ Target.clock _ (by simp),
          Table.get?_rekey Target.reset (fun _ _ h => Target.reset.inj h)
            (fun p => ofSignal? (s.generated name) p.2.rst) hget (s.ofSignal?_eq name hp)]
        rfl
  simp [lookup, found]

end PortMap

end NetBridge
