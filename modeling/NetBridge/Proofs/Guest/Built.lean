import NetBridge.Proofs.Arena
import NetBridge.Proofs.Table
import NetBridge.Guest.Generation

/-! # How netlists are made

A netlist is made by adding signals, clock domains and statements. Domains then have
different names, and each stands under its own. -/
namespace NetBridge.Guest

inductive Built : Netlist → Prop
  | empty : Built {}
  | signal {m : Netlist} (name : String) (shape : Shape) (reset : Word) :
    Built m → Built (m.addSignal name shape reset).2
  | domain {m m' : Netlist} {d : ClockDomain} (name : String) :
    Built m → m.addDomain name = .ok (d, m') → Built m'
  | statement {m : Netlist} (domain : Option String) (target : SignalId) (value : Expr) :
    Built m → Built (m.drive domain target value)

namespace Built

variable {m : Netlist}

theorem addDomain_ok {m' : Netlist} {d : ClockDomain} {name : String}
    (h : m.addDomain name = .ok (d, m')) : name ∉ m.domains.keys ∧ d.name = name ∧
      m'.domains = m.domains ++ [(name, d)] ∧ m'.signals =
        (m.signals.push ⟨(Netlist.domainSignals name).1, .bit, Shape.bit.truncate 0⟩).push
          ⟨(Netlist.domainSignals name).2, .bit, Shape.bit.truncate 0⟩ := by
  by_cases hc : Table.contains m.domains name = true
  · simp [Netlist.addDomain, hc] at h
  · simp only [Netlist.addDomain, hc, Bool.false_eq_true, if_false, Except.ok.injEq,
      Prod.mk.injEq] at h
    obtain ⟨rfl, rfl⟩ := h
    exact ⟨fun hmem => hc (Table.contains_iff.mpr hmem), rfl, rfl, rfl⟩

theorem addDomain_clk {m' : Netlist} {d : ClockDomain} {name : String}
    (h : m.addDomain name = .ok (d, m')) : d.clk = m.signals.nextKey := by
  obtain ⟨new, -⟩ := addDomain_ok h
  rw [← Table.contains_iff] at new
  rw [Netlist.addDomain, if_neg new] at h
  obtain ⟨rfl, -⟩ := Prod.mk.inj (Except.ok.inj h)
  rfl

theorem domains_nodup (h : Built m) : m.domains.keys.Nodup := by
  induction h with
  | empty => exact List.nodup_nil
  | signal name shape reset _ ih => exact ih
  | statement domain target value _ ih => exact ih
  | domain name _ added ih =>
    obtain ⟨new, -, heq, -⟩ := addDomain_ok added
    rw [heq, Table.keys_append]
    refine List.nodup_append.mpr ⟨ih, List.nodup_singleton _, ?_⟩
    rintro a ha b hb rfl
    obtain rfl := List.mem_singleton.mp hb
    exact new ha

theorem domain_name (h : Built m) : ∀ p ∈ m.domains, p.2.name = p.1 := by
  induction h with
  | empty => simp
  | signal name shape reset _ ih => exact ih
  | statement domain target value _ ih => exact ih
  | domain name _ added ih =>
    obtain ⟨-, hname, heq, -⟩ := addDomain_ok added
    rw [heq]
    intro p hp
    rcases List.mem_append.mp hp with hp | hp
    · exact ih p hp
    · obtain rfl := List.mem_singleton.mp hp
      exact hname

/-- The names of the domains are the keys that they stand under. -/
theorem domain_names (h : Built m) : m.domains.values.map (·.name) = m.domains.keys := by
  rw [Table.values, Table.keys, List.map_map]
  exact List.map_congr_left h.domain_name

theorem domain?_eq_some_iff (h : Built m) {name : String} {d : ClockDomain} :
    m.domain? name = some d ↔ d ∈ m.domains.values ∧ d.name = name := by
  rw [Netlist.domain?, Table.get?_eq_some_iff h.domains_nodup, Table.values, List.mem_map]
  constructor
  · intro hmem
    exact ⟨⟨_, hmem, rfl⟩, h.domain_name _ hmem⟩
  · rintro ⟨⟨p, hp, rfl⟩, rfl⟩
    rw [h.domain_name p hp]
    exact hp

/-- Every domain has a clock of its own. -/
theorem clocks_held (h : Built m) : m.signals.Holds (m.domains.values.map (·.clk)) := by
  induction h with
  | empty => exact .nil _
  | signal name shape reset _ ih =>
    exact ⟨fun k hk => (Arena.Extends.push _ _).contains (ih.there k hk), ih.nodup⟩
  | statement domain target value _ ih => exact ih
  | @domain m m' d name _ added ih =>
    obtain ⟨-, -, domains, signals⟩ := addDomain_ok added
    rw [domains, signals, Table.values, List.map_append, List.map_append]
    have adds := ih.adds (.push m.signals ⟨(Netlist.domainSignals name).1, .bit, Shape.bit.truncate 0⟩)
    rw [← addDomain_clk added] at adds
    exact ⟨fun k hk => (Arena.Extends.push _ _).contains (adds.there k hk), adds.nodup⟩

theorem truncate_zero (s : Shape) : s.truncate 0 = 0 := BitVec.zero_and

theorem truncate_truncate (s : Shape) (w : Word) : s.truncate (s.truncate w) = s.truncate w := by
  simp [Shape.truncate, BitVec.and_assoc]

/-- The signals of a netlist keep their reset values within their shapes. -/
theorem reset_fits (h : Built m) : ∀ s ∈ m.signals.items, s.shape.truncate s.reset = s.reset := by
  induction h with
  | empty => simp
  | signal name shape reset _ ih =>
    intro s hs
    rcases Array.mem_push.mp hs with hs | rfl
    · exact ih s hs
    · exact truncate_truncate shape reset
  | statement domain target value _ ih => exact ih
  | domain name _ added ih =>
    obtain ⟨-, -, -, hsignals⟩ := addDomain_ok added
    intro s hs
    rw [hsignals] at hs
    rcases Array.mem_push.mp hs with hs | rfl
    · rcases Array.mem_push.mp hs with hs | rfl
      · exact ih s hs
      · exact truncate_truncate _ _
    · exact truncate_truncate _ _

theorem truncate_resetOf (h : Built m) (id : SignalId) :
    (m.shapeOf id).truncate (m.resetOf id) = m.resetOf id := by
  cases hs : m.signal? id with
  | none =>
    simp only [Netlist.shapeOf, Netlist.resetOf, hs]
    exact truncate_zero default
  | some s =>
    have hmem : s ∈ m.signals.items := Array.mem_of_getElem? hs
    simpa [Netlist.shapeOf, Netlist.resetOf, hs] using h.reset_fits s hmem

end Built

end NetBridge.Guest
