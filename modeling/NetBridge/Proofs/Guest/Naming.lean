import NetBridge.Guest.Generation
import NetBridge.Proofs.Table
import NetBridge.Proofs.Verilog.Identifier

/-! # Names of signals

Ports and mentioned signals are named one after the other, each with a name that is
not taken, so that names tell signals apart. -/
namespace NetBridge.Guest.Netlist

/-- The name that a signal was added under. -/
def signalName (m : Netlist) (id : SignalId) : String := ((m.signal? id).map (·.name)).getD ""

theorem nameAll_keys (m : Netlist) (taken : List String) (ids : List SignalId) :
    (m.nameAll taken ids).1.keys = ids := by
  induction ids generalizing taken with
  | nil => rfl
  | cons id rest ih => exact congrArg (id :: ·) (ih _)

theorem nameAll_taken (m : Netlist) (taken : List String) (ids : List SignalId) :
    (m.nameAll taken ids).2 = (m.nameAll taken ids).1.values.reverse ++ taken := by
  induction ids generalizing taken with
  | nil => rfl
  | cons id rest ih =>
    simp only [nameAll, ih, Table.values, List.map_cons, List.reverse_cons, List.append_assoc,
      List.cons_append, List.nil_append]

theorem nameAll_nodup (m : Netlist) (taken : List String) (ids : List SignalId)
    (h : taken.Nodup) : (m.nameAll taken ids).2.Nodup := by
  induction ids generalizing taken with
  | nil => exact h
  | cons id rest ih => exact ih _ (List.nodup_cons.mpr ⟨Verilog.freshName_not_mem _ _, h⟩)

theorem nameAll_legal (m : Netlist) (taken : List String) (ids : List SignalId)
    (h : ∀ n ∈ taken, Verilog.isName n = true) :
    ∀ n ∈ (m.nameAll taken ids).2, Verilog.isName n = true := by
  induction ids generalizing taken with
  | nil => exact h
  | cons id rest ih =>
    refine ih _ fun n hn => ?_
    rcases List.mem_cons.mp hn with rfl | hn
    · exact Verilog.freshName_isName _ _
    · exact h n hn

/-- All keys of the netlist, in order. -/
theorem mem_keys_range {m : Netlist} {id : SignalId} :
    id ∈ (List.range m.signals.size).map Key.mk ↔ m.signals.contains id = true := by
  simp only [List.mem_map, List.mem_range, Arena.contains, decide_eq_true_eq]
  constructor
  · rintro ⟨i, hi, rfl⟩
    exact hi
  · intro h
    exact ⟨id.index, h, rfl⟩

theorem keys_range_nodup (m : Netlist) :
    ((List.range m.signals.size).map (Key.mk (α := Signal))).Nodup :=
  List.Nodup.map (fun _ _ h => congrArg Key.index h) List.nodup_range

theorem get?_bySignal {α : Type} (m : Netlist) (t : Table SignalId α) (id : SignalId) :
    Table.get? (m.bySignal t) id = if m.signals.contains id then Table.get? t id else none := by
  rw [bySignal, Table.get?_filterMap]
  simp only [mem_keys_range]

theorem bySignal_nodup {α : Type} (m : Netlist) (t : Table SignalId α) :
    (m.bySignal t).keys.Nodup :=
  m.keys_range_nodup.sublist (Table.keys_filterMap_sublist _ _)

theorem mem_mentioned {m : Netlist} {id : SignalId} :
    id ∈ m.mentioned ↔ ∃ s ∈ m.statements, s.target = id ∨ id ∈ s.value.reads ∨
      ∃ d, s.domain.bind m.domain? = some d ∧ (d.clk = id ∨ d.rst = id) := by
  simp only [mentioned, List.mem_flatMap]
  refine exists_congr fun s => and_congr_right fun _ => ?_
  cases hd : s.domain.bind m.domain? with
  | none => simp [eq_comm]
  | some d => simp [eq_comm]

theorem named_ok {m : Netlist} {ports : Table SignalId PortDirection} {order : List SignalId}
    (h : m.named ports = .ok order) :
    (∀ id ∈ ports.keys ++ m.mentioned, m.signals.contains id = true) ∧
    order = ports.keys ++ ((List.range m.signals.size).map Key.mk).filter fun id =>
      m.mentioned.contains id && !Table.contains ports id := by
  simp only [named] at h
  split at h
  · cases h
  · rename_i hfind
    refine ⟨?_, (Except.ok.inj h).symm⟩
    intro id hid
    have := List.find?_eq_none.mp hfind id hid
    simpa using this

theorem exists_named {m : Netlist} {ports : Table SignalId PortDirection}
    (h : ∀ id ∈ ports.keys ++ m.mentioned, m.signals.contains id = true) :
    ∃ order, m.named ports = .ok order := by
  have none : (ports.keys ++ m.mentioned).find? (fun id => !m.signals.contains id) = none :=
    List.find?_eq_none.mpr fun id hid => by simp [h id hid]
  rw [named, none]
  exact ⟨_, rfl⟩

theorem mem_named {m : Netlist} {ports : Table SignalId PortDirection} {order : List SignalId}
    (h : m.named ports = .ok order) {id : SignalId} :
    id ∈ order ↔ id ∈ ports.keys ∨ id ∈ m.mentioned := by
  obtain ⟨allocated, rfl⟩ := named_ok h
  simp only [List.mem_append, List.mem_filter, mem_keys_range, Bool.and_eq_true,
    List.contains_iff_mem, Bool.not_eq_true']
  constructor
  · rintro (hp | ⟨_, hm, _⟩)
    · exact Or.inl hp
    · exact Or.inr hm
  · rintro (hp | hm)
    · exact Or.inl hp
    · by_cases hp : id ∈ ports.keys
      · exact Or.inl hp
      · refine Or.inr ⟨allocated id (List.mem_append_right _ hm), hm, ?_⟩
        exact Bool.eq_false_iff.mpr fun hc => hp (Table.contains_iff.mp hc)

theorem named_nodup {m : Netlist} {ports : Table SignalId PortDirection} {order : List SignalId}
    (nodup : ports.keys.Nodup) (h : m.named ports = .ok order) : order.Nodup := by
  obtain ⟨-, rfl⟩ := named_ok h
  refine List.nodup_append.mpr ⟨nodup, m.keys_range_nodup.filter _, ?_⟩
  rintro a ha b hb rfl
  have hnot := (List.mem_filter.mp hb).2
  simp [Table.contains_iff.mpr ha] at hnot

end NetBridge.Guest.Netlist
