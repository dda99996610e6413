import NetBridge.Proofs.Guest.Violation

/-! # Which netlists are generated

A netlist without violations is described part by part: by its signals, its statements,
their values and the targets. These are the netlists that generation accepts. -/
namespace NetBridge.Guest.Netlist

/-- The domains of the statements that drive a signal, with nothing for a combinational
one. -/
def domainsOf (m : Netlist) (id : SignalId) : List (Option String) :=
  (m.statements.filter (·.target == id)).map (·.domain)

/-- What a netlist and its targets have to be like for generation. -/
structure Acceptable (m : Netlist) (targets : List Target) : Prop where
  widths : ∀ s ∈ m.signals.toList, 1 ≤ s.shape.width
  domains : ∀ s ∈ m.statements, ∀ d, s.domain = some d → d ∈ m.domains.keys
  /-- A driven signal has one combinational statement, or updates on one clock. -/
  drivers : ∀ s ∈ m.statements,
    m.domainsOf s.target = [none] ∨ ∃ d, ∀ driver ∈ m.domainsOf s.target, driver = some d
  slices : ∀ s ∈ m.statements, ∀ value start stop, .slice value start stop ∈ s.value.subterms →
    start < stop ∧ stop ≤ (value.shape m.shapeOf).width
  concats : ∀ s ∈ m.statements, .concat [] ∉ s.value.subterms
  targets : ∀ d, .clock d ∈ targets ∨ .reset d ∈ targets → d ∈ m.domains.keys

theorem widthViolations_eq_nil {m : Netlist} :
    m.widthViolations = [] ↔ ∀ s ∈ m.signals.toList, 1 ≤ s.shape.width := by
  simp [widthViolations, Nat.one_le_iff_ne_zero]

theorem domainViolations_eq_nil {m : Netlist} {d : String} :
    m.domainViolations d = [] ↔ d ∈ m.domains.keys := by
  rw [domainViolations, domain?, ← Table.get?_isSome_iff]
  cases Table.get? m.domains d <;> simp

/-- The statements drive different signals, or one signal on the same clock. -/
def Agree (t s : Statement) : Prop :=
  t.target = s.target → t.domain = s.domain ∧ t.domain.isSome = true

theorem conflicts_eq_false {earlier : List Statement} {s : Statement} :
    conflicts earlier s = false ↔ ∀ t ∈ earlier, Agree t s := by
  rw [conflicts, List.any_eq_false]
  refine forall₂_congr fun t _ => ?_
  by_cases same : t.target = s.target <;> simp [Agree, same, and_comm, Option.isSome_iff_ne_none]

theorem driverViolations_eq_nil {m : Netlist} {earlier : List Statement} {s : Statement} :
    m.driverViolations earlier s = [] ↔
      (∀ d, s.domain = some d → d ∈ m.domains.keys) ∧ ∀ t ∈ earlier, Agree t s := by
  rw [driverViolations, List.append_eq_nil_iff, List.flatMap_eq_nil_iff, ← conflicts_eq_false]
  simp only [domainViolations_eq_nil, Option.mem_toList]
  cases conflicts earlier s <;> simp

theorem driversViolations_eq_nil {m : Netlist} {earlier statements : List Statement} :
    m.driversViolations earlier statements = [] ↔
      (∀ s ∈ statements, ∀ d, s.domain = some d → d ∈ m.domains.keys) ∧
      (∀ t ∈ earlier, ∀ s ∈ statements, Agree t s) ∧ statements.Pairwise Agree := by
  induction statements generalizing earlier with
  | nil => simp [driversViolations]
  | cons s rest ih =>
    rw [driversViolations, List.append_eq_nil_iff, driverViolations_eq_nil, ih]
    simp only [List.forall_mem_cons, List.forall_mem_append, List.pairwise_cons]
    grind

/-- Statements of one signal agree exactly if they are one combinational statement or
updates on one clock. -/
theorem agree_iff {m : Netlist} : m.statements.Pairwise Agree ↔ ∀ s ∈ m.statements,
    m.domainsOf s.target = [none] ∨ ∃ d, ∀ driver ∈ m.domainsOf s.target, driver = some d := by
  constructor
  · intro agree s hs
    have same : ((m.statements.filter (·.target == s.target))).Pairwise fun a b =>
        a.domain = b.domain ∧ a.domain.isSome = true := by
      refine (agree.filter _).imp_of_mem fun ha hb h => h ?_
      rw [beq_iff_eq.mp (List.mem_filter.mp ha).2, beq_iff_eq.mp (List.mem_filter.mp hb).2]
    rw [domainsOf]
    generalize m.statements.filter (·.target == s.target) = drivers at same
    cases same with
    | nil => exact .inr ⟨"", by simp⟩
    | @cons first rest others _ =>
      cases hd : first.domain with
      | some d => exact .inr ⟨d, by simpa [hd] using fun t ht => hd ▸ (others t ht).1.symm⟩
      | none =>
        have alone : rest = [] := List.eq_nil_iff_forall_not_mem.mpr fun t ht => by
          simpa [hd] using (others t ht).2
        exact .inl (by simp [hd, alone])
  · intro drivers
    refine List.pairwise_iff_forall_sublist.mpr fun {t s} hsub same => ?_
    have both : [t.domain, s.domain].Sublist (m.domainsOf s.target) := by
      have := (hsub.filter (·.target == s.target)).map (·.domain)
      simpa [domainsOf, same] using this
    rcases drivers s (hsub.subset (by simp)) with alone | ⟨d, all⟩
    · have := alone ▸ both.length_le
      simp at this
    · have ht := all t.domain (both.subset (by simp))
      have hs := all s.domain (both.subset (by simp))
      exact ⟨ht.trans hs.symm, by rw [ht]; rfl⟩

theorem valueViolations_eq_nil {m : Netlist} {s : Statement} : m.valueViolations s = [] ↔
    (∀ value start stop, .slice value start stop ∈ s.value.subterms →
      start < stop ∧ stop ≤ (value.shape m.shapeOf).width) ∧ .concat [] ∉ s.value.subterms := by
  rw [valueViolations, List.flatMap_eq_nil_iff]
  constructor
  · intro none
    refine ⟨fun value start stop hmem => ?_, fun hmem => by simpa [partViolations] using none _ hmem⟩
    simpa [partViolations] using none _ hmem
  · rintro ⟨slices, concats⟩ e he
    cases e with
    | slice value start stop => exact if_pos (slices value start stop he)
    | concat parts =>
      cases parts with
      | nil => exact absurd he concats
      | cons e rest => rfl
    | _ => rfl

theorem targetViolations_eq_nil {m : Netlist} {targets : List Target} :
    targets.flatMap m.targetViolations = [] ↔
      ∀ d, .clock d ∈ targets ∨ .reset d ∈ targets → d ∈ m.domains.keys := by
  rw [List.flatMap_eq_nil_iff]
  constructor
  · rintro none d (hmem | hmem) <;> exact domainViolations_eq_nil.mp (none _ hmem)
  · intro known t ht
    cases t with
    | signal id => rfl
    | clock d => exact domainViolations_eq_nil.mpr (known d (.inl ht))
    | reset d => exact domainViolations_eq_nil.mpr (known d (.inr ht))

theorem violations_eq_nil {m : Netlist} {targets : List Target} :
    m.violations targets = [] ↔ m.Acceptable targets := by
  rw [violations, List.append_eq_nil_iff, List.append_eq_nil_iff, List.append_eq_nil_iff,
    widthViolations_eq_nil, driversViolations_eq_nil, agree_iff, List.flatMap_eq_nil_iff,
    targetViolations_eq_nil]
  simp only [valueViolations_eq_nil]
  constructor
  · rintro ⟨widths, ⟨domains, -, drivers⟩, values, targets⟩
    exact ⟨widths, domains, drivers, fun s hs => (values s hs).1, fun s hs => (values s hs).2, targets⟩
  · intro h
    exact ⟨h.widths, ⟨h.domains, by simp, h.drivers⟩, fun s hs => ⟨h.slices s hs, h.concats s hs⟩,
      h.targets⟩

/-- Generation accepts exactly the netlists and targets without violations, and otherwise
reports the first violation: signals without a width by signal, then domains and drivers
by statement, then values by statement with operands before the slice over them, then
targets. -/
theorem generate_accepts_exactly {m : Netlist} {targets : List Target}
    (allocated : m.Allocated targets) (fits : ∀ s ∈ m.statements, m.Measurable s.value)
    (name : String) :
    ((∃ g, m.generate name targets = .ok g) ↔ m.Acceptable targets) ∧
      ∀ e, m.generate name targets = .error e ↔ (m.violations targets).head? = some e := by
  have reported := generate_outcome allocated fits name
  constructor
  · rw [← outcome_eq_ok, reported, firstError_eq_ok, violations_eq_nil]
  · intro e
    rw [← outcome_eq_error, reported, firstError_eq_error]

/-- A slice that goes beyond the slice under it, an empty concatenation, and a target
without a domain. -/
def threeFaults : Netlist :=
  let m := (({} : Netlist).addSignal "a" (.unsignedBits 8)).2
  let m := (m.addSignal "y" .bit).2
  let m := (m.addSignal "z" .bit).2
  let m := m.drive none ⟨1⟩ (.unary .not (.slice (.slice (.signal ⟨0⟩) 0 4) 4 5))
  m.drive none ⟨2⟩ (.concat [])

def threeFaultsTargets : List Target := [.clock "pix", .signal ⟨1⟩]

theorem threeFaults_reports_slice :
    threeFaults.Allocated threeFaultsTargets ∧
      (∀ s ∈ threeFaults.statements, threeFaults.Measurable s.value) ∧
      threeFaults.violations threeFaultsTargets =
        [.invalidSlice "y" 4 5 4, .emptyConcat "z", .unknownDomain "pix"] ∧
      threeFaults.generate "top" threeFaultsTargets = .error (.invalidSlice "y" 4 5 4) := by
  have allocated : threeFaults.Allocated threeFaultsTargets := by
    refine ⟨by decide, by decide, by decide, by decide, fun id hid => ?_⟩
    obtain rfl : id = ⟨1⟩ := by simpa [threeFaultsTargets] using hid
    rfl
  have fits : ∀ s ∈ threeFaults.statements, threeFaults.Measurable s.value := by
    refine List.forall_mem_cons.mpr ⟨fun value start stop h => ?_,
      List.forall_mem_singleton.mpr fun value start stop h => ?_⟩
    · obtain ⟨rfl, -⟩ | ⟨rfl, -⟩ : value = .signal ⟨0⟩ ∧ _ ∨ value = .slice (.signal ⟨0⟩) 0 4 ∧ _ := by
        simpa [Expr.subterms] using h
      · rfl
      · rfl
    · simp [Expr.subterms, Expr.subtermsOfParts] at h
  exact ⟨allocated, fits, rfl, ((generate_accepts_exactly allocated fits "top").2 _).mpr rfl⟩

end NetBridge.Guest.Netlist
