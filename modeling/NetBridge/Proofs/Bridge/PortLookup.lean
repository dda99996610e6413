import NetBridge.Proofs.Bridge.PortMap
import NetBridge.Proofs.Guest.Built

/-! # What a port map answers

A port map knows the ports and nothing else. A clock or a reset is found where the signal of
its domain is, and nowhere else, whether the signal became a port on its own account, as the
clock of another domain, or not at all. -/
namespace NetBridge

open Guest (Built Generated Netlist SignalId Target)

/-- Where keys occur once, what is found under a new key is made of what was found under the
old one, or nothing is. -/
theorem Table.get?_rekey_eq {κ τ α β : Type} [DecidableEq κ] [DecidableEq τ] {t : Table κ α}
    (nodup : t.keys.Nodup) (rename : κ → τ) (injective : ∀ a b, rename a = rename b → a = b)
    (f : κ × α → Option β) (key : κ) :
    get? (t.filterMap fun p => (f p).map (rename p.1, ·)) (rename key) =
      (get? t key).bind fun a => f (key, a) := by
  induction t with
  | nil => rfl
  | cons p rest ih =>
    obtain ⟨k, w⟩ := p
    obtain ⟨absent, distinct⟩ := List.nodup_cons.mp nodup
    have others := ih distinct
    by_cases same : k = key
    · subst same
      have nothing : get? rest k = none := get?_eq_none_iff.mpr absent
      cases hw : f (k, w) with
      | none =>
        rw [List.filterMap_cons_none (by simp [hw]), others, nothing]
        simp [get?, hw]
      | some v =>
        rw [List.filterMap_cons_some (b := (rename k, v)) (by simp [hw])]
        simp [get?, hw]
    · have apart : rename k ≠ rename key := fun h => same (injective _ _ h)
      rw [get?, if_neg same, ← others]
      cases hw : f (k, w) with
      | none => rw [List.filterMap_cons_none (by simp [hw])]
      | some v =>
        rw [List.filterMap_cons_some (b := (rename k, v)) (by simp [hw]), get?, if_neg apart]

namespace PortMap

variable {m : Netlist} {targets : List Target}

theorem sortedDomains_nodup (built : Built m) :
    (Table.keys (m.domains.mergeSort fun a b => !decide (b.1 < a.1))).Nodup :=
  ((List.mergeSort_perm m.domains _).map Prod.fst).nodup_iff.mpr built.domains_nodup

section Finding

variable (s : m.Stages targets) (name : String)

theorem ofSignal?_of_not_port {id : SignalId} (h : id ∉ s.ports.keys) :
    ofSignal? (s.generated name) id = none := by
  simp [ofSignal?, Netlist.Stages.generated, Table.get?_eq_none_iff.mpr h]

/-- The map answers for a signal if it became a port. -/
theorem get?_signal (id : SignalId) : Table.get? (ofGenerated m (s.generated name)) (.signal id) =
    ofSignal? (s.generated name) id := by
  rw [ofGenerated, List.append_assoc, Table.get?_append, Table.get?_append,
    Table.get?_rekey_of_ne _ Target.clock _ (by simp),
    Table.get?_rekey_of_ne _ Target.reset _ (by simp),
    Table.get?_rekey_eq (m.bySignal_nodup _) Target.signal (fun _ _ h => Target.signal.inj h)
      (fun p => ofSignal? (s.generated name) p.1), Option.or_none, Option.or_none,
    Netlist.get?_bySignal]
  by_cases port : id ∈ s.ports.keys
  · rw [if_pos (s.allocated (s.port_named port))]
    simp [Netlist.Stages.generated, s.get?_ports port]
  · have unported := ofSignal?_of_not_port s name port
    rw [unported]
    exact Option.bind_eq_none_iff.mpr fun _ _ => unported

/-- It answers for a clock as for the signal of its domain, if there is such a domain. -/
theorem get?_clock (built : Built m) (domain : String) :
    Table.get? (ofGenerated m (s.generated name)) (.clock domain) =
      (m.domain? domain).bind fun d => ofSignal? (s.generated name) d.clk := by
  rw [ofGenerated, List.append_assoc, Table.get?_append, Table.get?_append,
    Table.get?_rekey_of_ne _ Target.signal _ (by simp),
    Table.get?_rekey_of_ne _ Target.reset _ (by simp),
    Table.get?_rekey_eq (sortedDomains_nodup built) Target.clock (fun _ _ h => Target.clock.inj h)
      (fun p => ofSignal? (s.generated name) p.2.clk), get?_sortedDomains, Option.none_or,
    Option.or_none]

/-- And for a reset in the same way. -/
theorem get?_reset (built : Built m) (domain : String) :
    Table.get? (ofGenerated m (s.generated name)) (.reset domain) =
      (m.domain? domain).bind fun d => ofSignal? (s.generated name) d.rst := by
  rw [ofGenerated, List.append_assoc, Table.get?_append, Table.get?_append,
    Table.get?_rekey_of_ne _ Target.signal _ (by simp),
    Table.get?_rekey_of_ne _ Target.clock _ (by simp),
    Table.get?_rekey_eq (sortedDomains_nodup built) Target.reset (fun _ _ h => Target.reset.inj h)
      (fun p => ofSignal? (s.generated name) p.2.rst), get?_sortedDomains, Option.none_or,
    Option.none_or]

/-- What is found for a target is the port of the signal behind it. -/
theorem get?_eq_some_iff (built : Built m) (t : Target) (info : PortInfo) :
    Table.get? (ofGenerated m (s.generated name)) t = some info ↔
      ∃ id, m.resolve t = .ok id ∧ ofSignal? (s.generated name) id = some info := by
  cases t with
  | signal id => simp [get?_signal, Netlist.resolve]
  | clock domain =>
    rw [get?_clock s name built, Netlist.resolve]
    cases m.domain? domain <;> simp
  | reset domain =>
    rw [get?_reset s name built, Netlist.resolve]
    cases m.domain? domain <;> simp

/-- A signal is answered for with the direction and the name that it was given as a port. -/
theorem ofSignal?_eq_some_iff {id : SignalId} {info : PortInfo} :
    ofSignal? (s.generated name) id = some info ↔
      Table.get? s.ports id = some info.direction ∧ Table.get? s.names id = some info.name := by
  obtain ⟨label, direction⟩ := info
  by_cases port : id ∈ s.ports.keys
  · rw [s.ofSignal?_eq name port, s.get?_ports port, s.get?_names_eq (s.port_named port)]
    simp [Netlist.Stages.portOf, and_comm]
  · simp [ofSignal?_of_not_port s name port, Table.get?_eq_none_iff.mpr port]

end Finding

/-- The error of a lookup names the target, and there is one where nothing is found. -/
theorem lookup_eq_error_iff {map : PortMap} {t : Target} {e : InternalError} :
    lookup map t = .error e ↔
      e = ⟨s!"{t.text} has no generated port"⟩ ∧ ∀ info, Table.get? map t ≠ some info := by
  rw [lookup]
  cases Table.get? map t with
  | none => simp [eq_comm]
  | some info => simp

end PortMap

namespace Guest.Netlist

open PortMap (ofGenerated lookup)

/-- The port map of a generated module answers for exactly the targets whose signal became a
port, and with the generated name and the direction of that port. The clock and the reset of a
domain have the answers of their signals, and a lookup fails for all that is not a port. -/
theorem port_map_is_exact {m : Netlist} (built : Built m) {name : String} {targets : List Target}
    {g : Generated} (generated : m.generate name targets = .ok g) :
    (∀ t info, Table.get? (ofGenerated m g) t = some info ↔
      ∃ id, m.resolve t = .ok id ∧ Table.get? g.ports id = some info.direction ∧
        Table.get? g.names id = some info.name) ∧
    (∀ t, (∃ info, Table.get? (ofGenerated m g) t = some info) ↔
      ∃ id, m.resolve t = .ok id ∧ id ∈ g.ports.keys) ∧
    (∀ domain d, m.domain? domain = some d →
      Table.get? (ofGenerated m g) (.clock domain) = Table.get? (ofGenerated m g) (.signal d.clk) ∧
      Table.get? (ofGenerated m g) (.reset domain) =
        Table.get? (ofGenerated m g) (.signal d.rst)) ∧
    ∀ t e, lookup (ofGenerated m g) t = .error e ↔
      e = ⟨s!"{t.text} has no generated port"⟩ ∧
        ∀ id, m.resolve t = .ok id → id ∉ g.ports.keys := by
  obtain ⟨s, rfl⟩ := generate_eq_ok.mp generated
  have exact_answers (t : Target) (info : PortInfo) :
      Table.get? (ofGenerated m (s.generated name)) t = some info ↔
        ∃ id, m.resolve t = .ok id ∧ Table.get? s.ports id = some info.direction ∧
          Table.get? s.names id = some info.name := by
    simp only [PortMap.get?_eq_some_iff s name built, PortMap.ofSignal?_eq_some_iff]
  have answers (t : Target) :
      (∃ info, Table.get? (ofGenerated m (s.generated name)) t = some info) ↔
        ∃ id, m.resolve t = .ok id ∧ id ∈ s.ports.keys := by
    constructor
    · rintro ⟨info, found⟩
      obtain ⟨id, resolved, port, -⟩ := (exact_answers t info).mp found
      exact ⟨id, resolved, Table.mem_keys_of_get? port⟩
    · rintro ⟨id, resolved, port⟩
      exact ⟨s.portOf id, (exact_answers t _).mpr
        ⟨id, resolved, s.get?_ports port, s.get?_names_eq (s.port_named port)⟩⟩
  refine ⟨exact_answers, answers, fun domain d known => ?_, fun t e => ?_⟩
  · rw [PortMap.get?_clock s name built, PortMap.get?_reset s name built, known,
      PortMap.get?_signal, PortMap.get?_signal]
    exact ⟨rfl, rfl⟩
  · rw [PortMap.lookup_eq_error_iff, ← not_exists, answers t]
    simp [Netlist.Stages.generated]

/-- A domain with a register on it. -/
def clockedRegister : Netlist :=
  match ({} : Netlist).addDomain topDomain with
  | .error _ => {}
  | .ok (_, m) =>
    let (q, m) := m.addSignal "q" (.unsignedBits 4)
    m.drive (some topDomain) q (.const 1 (.unsignedBits 4))

/-- The clock was asked for under its domain and is found as a signal too. The reset, which the
register needs, did not become a port. -/
theorem clockedRegister_answers : ∃ g, Built clockedRegister ∧
    clockedRegister.generate "top" [.clock topDomain, .signal ⟨2⟩] = .ok g ∧
    Table.get? (ofGenerated clockedRegister g) (.signal ⟨0⟩) = some ⟨"clk", .input⟩ ∧
    Table.get? (ofGenerated clockedRegister g) (.clock topDomain) =
      Table.get? (ofGenerated clockedRegister g) (.signal ⟨0⟩) ∧
    Table.get? (ofGenerated clockedRegister g) (.signal ⟨2⟩) = some ⟨"q", .output⟩ ∧
    lookup (ofGenerated clockedRegister g) (.reset topDomain) =
      .error ⟨s!"{(Target.reset topDomain).text} has no generated port"⟩ := by
  have built : Built clockedRegister :=
    .statement _ _ _ (.signal _ _ _ (.domain topDomain .empty rfl))
  obtain ⟨g, hg, ports, clk, q⟩ : ∃ g,
      clockedRegister.generate "top" [.clock topDomain, .signal ⟨2⟩] = .ok g ∧
      g.ports = [(⟨0⟩, .input), (⟨2⟩, .output)] ∧
      Table.get? g.names ⟨0⟩ = some "clk" ∧ Table.get? g.names ⟨2⟩ = some "q" :=
    ⟨_, rfl, rfl, rfl, rfl⟩
  obtain ⟨found, -, aliases, fails⟩ := port_map_is_exact built hg
  refine ⟨g, built, hg, (found _ _).mpr ⟨⟨0⟩, rfl, ?_, clk⟩,
    (aliases topDomain ⟨topDomain, ⟨0⟩, ⟨1⟩⟩ rfl).1, (found _ _).mpr ⟨⟨2⟩, rfl, ?_, q⟩,
    (fails _ _).mpr ⟨rfl, fun id resolved => ?_⟩⟩
  · rw [ports]; rfl
  · rw [ports]; rfl
  · obtain rfl : (⟨1⟩ : SignalId) = id := Except.ok.inj resolved
    rw [ports]
    decide

end Guest.Netlist

end NetBridge
