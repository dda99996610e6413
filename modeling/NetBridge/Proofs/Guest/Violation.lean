import NetBridge.Proofs.Arena
import NetBridge.Proofs.Guest.Generation
import NetBridge.Proofs.Guest.Subterm

/-! # What can be wrong with a netlist

All violations of a netlist and its targets, in the order of the checks. The checks
report the first of them, and a netlist without any is generated. -/
namespace NetBridge.Guest

/-- The outcome of checks that find these errors: the first one is reported. -/
def firstError : List Error → Except Error Unit
  | [] => .ok ()
  | e :: _ => .error e

theorem firstError_append (l r : List Error) :
    firstError (l ++ r) = (do firstError l; firstError r) := by
  cases l <;> rfl

theorem firstError_eq_ok {l : List Error} : firstError l = .ok () ↔ l = [] := by
  cases l <;> simp [firstError]

theorem firstError_eq_error {l : List Error} {e : Error} :
    firstError l = .error e ↔ l.head? = some e := by
  cases l <;> simp [firstError]

/-- What is left of a result is whether there is one. -/
def outcome {α : Type} (result : Except Error α) : Except Error Unit := result.map fun _ => ()

@[simp] theorem outcome_ok {α : Type} (a : α) : outcome (.ok a) = .ok () := rfl

@[simp] theorem outcome_error {α : Type} (e : Error) :
    outcome (.error e : Except Error α) = .error e := rfl

theorem outcome_eq_ok {α : Type} {result : Except Error α} :
    outcome result = .ok () ↔ ∃ a, result = .ok a := by
  cases result <;> simp

theorem outcome_eq_error {α : Type} {result : Except Error α} {e : Error} :
    outcome result = .error e ↔ result = .error e := by
  cases result <;> simp

namespace Netlist

theorem signal_eq_ok {m : Netlist} {id : SignalId} (h : m.signals.contains id = true) :
    ∃ s, m.signal id = .ok s ∧ s.name = m.signalName id := by
  obtain ⟨s, hs⟩ := Arena.exists_get? h
  have found : m.signal? id = some s := hs
  exact ⟨s, by rw [signal, found], by simp [signalName, found]⟩

def widthViolations (m : Netlist) : List Error :=
  (m.signals.toList.filter (·.shape.width == 0)).map fun s => .zeroWidth s.name

/-- Some earlier statement drives the same signal, and not as another update on the
same clock. -/
def conflicts (earlier : List Statement) (s : Statement) : Bool :=
  earlier.any fun t => t.target == s.target && !(t.domain.isSome && t.domain == s.domain)

def domainViolations (m : Netlist) (d : String) : List Error :=
  if (m.domain? d).isNone then [.unknownDomain d] else []

/-- What is wrong with a statement after some others, apart from its value. -/
def driverViolations (m : Netlist) (earlier : List Statement) (s : Statement) : List Error :=
  s.domain.toList.flatMap m.domainViolations ++
    if conflicts earlier s then [.multipleDrivers (m.signalName s.target)] else []

def driversViolations (m : Netlist) : (earlier statements : List Statement) → List Error
  | _, [] => []
  | earlier, s :: rest => m.driverViolations earlier s ++ m.driversViolations (earlier ++ [s]) rest

/-- What is wrong with one part of the value that drives the target. -/
def partViolations (m : Netlist) (target : SignalId) : Expr → List Error
  | .slice value start stop =>
    let width := (value.shape m.shapeOf).width
    if start < stop ∧ stop ≤ width then []
    else [.invalidSlice (m.signalName target) start stop width]
  | .concat [] => [.emptyConcat (m.signalName target)]
  | _ => []

def valueViolations (m : Netlist) (s : Statement) : List Error :=
  s.value.subterms.flatMap (m.partViolations s.target)

def targetViolations (m : Netlist) : Target → List Error
  | .signal _ => []
  | .clock d | .reset d => m.domainViolations d

/-- Everything that is wrong, in the order in which it is looked for. -/
def violations (m : Netlist) (targets : List Target) : List Error :=
  m.widthViolations ++ (m.driversViolations [] m.statements ++
    (m.statements.flatMap m.valueViolations ++ targets.flatMap m.targetViolations))

theorem checkWidths_eq (m : Netlist) : m.checkWidths = firstError m.widthViolations := by
  rw [checkWidths, widthViolations, ← List.head?_filter]
  cases m.signals.toList.filter (·.shape.width == 0) <;> rfl

/-- The drivers tell whether an earlier statement conflicts. -/
theorem DrivenBy.conflicts_eq {m : Netlist} {earlier : List Statement} {drivers : Drivers}
    (inv : DrivenBy m earlier drivers) (s : Statement) :
    conflicts earlier s = match Table.get? drivers s.target with
      | none => false
      | some driver => !(driver.isSome && driver == s.domain) := by
  have same : ∀ t ∈ earlier, t.target = s.target → Table.get? drivers s.target = some t.domain :=
    fun t ht heq => heq ▸ inv.driver t ht
  cases hget : Table.get? drivers s.target with
  | none =>
    refine List.any_eq_false.mpr fun t ht => ?_
    have other : t.target ≠ s.target := fun heq => by simpa [hget] using same t ht heq
    simp [other]
  | some driver =>
    obtain ⟨t, ht, heq⟩ := inv.driven s.target (Table.mem_keys_of_get? hget)
    have domain : ∀ u ∈ earlier, u.target = s.target → u.domain = driver := fun u hu hu' =>
      (Option.some.inj (hget.symm.trans (same u hu hu'))).symm
    rw [Bool.eq_iff_iff, conflicts, List.any_eq_true]
    constructor
    · rintro ⟨u, hu, hconflict⟩
      simp only [Bool.and_eq_true, beq_iff_eq] at hconflict
      rw [← domain u hu hconflict.1]
      exact hconflict.2
    · intro hconflict
      exact ⟨t, ht, by simpa [heq, domain t ht heq] using hconflict⟩

theorem addDriver_eq {m : Netlist} {earlier : List Statement} {drivers : Drivers}
    (inv : DrivenBy m earlier drivers) {s : Statement}
    (allocated : m.signals.contains s.target = true) :
    outcome (m.addDriver drivers s) = firstError (m.driverViolations earlier s) := by
  obtain ⟨signal, hsignal, hname⟩ := signal_eq_ok allocated
  have joined : outcome (match Table.get? drivers s.target with
      | none => pure (drivers ++ [(s.target, s.domain)])
      | some driver => if driver.isSome && driver == s.domain then pure drivers
          else do throw (.multipleDrivers (← m.signal s.target).name)) =
      firstError (if conflicts earlier s then [.multipleDrivers (m.signalName s.target)] else []) := by
    rw [inv.conflicts_eq s]
    cases Table.get? drivers s.target with
    | none => rfl
    | some driver =>
      by_cases update : (driver.isSome && driver == s.domain) = true
      · simp only [update, if_true]
        rfl
      · simp only [update, hsignal, Bool.not_false, ← hname]
        rfl
  rw [driverViolations, firstError_append, ← joined, addDriver]
  cases hd : s.domain with
  | none => rfl
  | some d =>
    change _ = (firstError (m.domainViolations d ++ []) >>= _)
    rw [List.append_nil, domainViolations]
    dsimp only
    cases m.domain? d <;> rfl

theorem drivers_eq {m : Netlist} {earlier : List Statement} {drivers : Drivers}
    (inv : DrivenBy m earlier drivers) (statements : List Statement)
    (allocated : ∀ s ∈ statements, m.signals.contains s.target = true) :
    outcome (statements.foldlM m.addDriver drivers) =
      firstError (m.driversViolations earlier statements) := by
  induction statements generalizing earlier drivers with
  | nil => rfl
  | cons s rest ih =>
    obtain ⟨first, others⟩ := List.forall_mem_cons.mp allocated
    have step := addDriver_eq inv first
    rw [driversViolations, firstError_append, ← step, List.foldlM_cons]
    cases hs : m.addDriver drivers s with
    | error e => rfl
    | ok grown => exact ih (addDriver_drivenBy earlier drivers s grown inv hs) others

/-- The operands of slices are measured, so their widths have to fit. -/
def Measurable (m : Netlist) (e : Expr) : Prop :=
  ∀ value start stop, .slice value start stop ∈ e.subterms → value.fits m.shapeOf = true

/-- The signals of an expression are there, and the operands of its slices can be measured. -/
structure Checkable (m : Netlist) (e : Expr) : Prop where
  reads : ∀ id ∈ e.reads, m.signals.contains id = true
  fits : m.Measurable e

theorem Checkable.operand {m : Netlist} {e o : Expr} (h : m.Checkable e) (ho : o ∈ e.operands) :
    m.Checkable o := by
  refine ⟨fun id hid => h.reads id (Expr.reads_operand ho id hid), fun value start stop hv => ?_⟩
  refine h.fits value start stop ?_
  rw [Expr.subterms_eq]
  exact List.mem_append_left _ (List.mem_flatMap.mpr ⟨o, ho, hv⟩)

mutual

theorem checkExpr_eq {m : Netlist} {target : SignalId}
    (allocated : m.signals.contains target = true) (e : Expr) (ok : m.Checkable e) :
    m.checkExpr target e = firstError (e.subterms.flatMap (m.partViolations target)) := by
  have below := fun o => ok.operand (o := o)
  cases e with
  | signal id => rfl
  | const value shape => rfl
  | unary op operand =>
    have h := checkExpr_eq allocated operand (below _ (by simp [Expr.operands]))
    rw [checkExpr, h, Expr.subterms, List.flatMap_append]
    exact congrArg firstError (List.append_nil _).symm
  | binary op left right =>
    have hl := checkExpr_eq allocated left (below _ (by simp [Expr.operands]))
    have hr := checkExpr_eq allocated right (below _ (by simp [Expr.operands]))
    rw [checkExpr, hl, hr, Expr.subterms, List.flatMap_append, List.flatMap_append,
      firstError_append]
    exact congrArg (firstError _ >>= fun _ => firstError ·) (List.append_nil _).symm
  | slice value start stop =>
    have hv := checkExpr_eq allocated value (below _ (by simp [Expr.operands]))
    have measured : m.measure value = .ok (value.shape m.shapeOf) :=
      measure_eq ok.reads (ok.fits value start stop (by simp [Expr.subterms]))
    obtain ⟨signal, hsignal, hname⟩ := signal_eq_ok allocated
    rw [checkExpr, hv, Expr.subterms, List.flatMap_append, firstError_append, measured, hsignal,
      List.flatMap_cons, partViolations, ← hname]
    refine congrArg (firstError _ >>= fun _ => ·) ?_
    let width := (value.shape m.shapeOf).width
    change (if start < stop ∧ stop ≤ width then Except.ok ()
      else Except.error (Error.invalidSlice signal.name start stop width)) = _
    by_cases inside : start < stop ∧ stop ≤ width
    · rw [if_pos inside, if_pos inside]
      rfl
    · rw [if_neg inside, if_neg inside]
      rfl
  | concat parts =>
    cases parts with
    | nil =>
      obtain ⟨signal, hsignal, hname⟩ := signal_eq_ok allocated
      rw [checkExpr, hsignal]
      simp [Expr.subterms, Expr.subtermsOfParts, partViolations, ← hname, firstError]
      rfl
    | cons first rest =>
      have h := checkParts_eq allocated (first :: rest) below
      rw [checkParts] at h
      rw [checkExpr, h, Expr.subterms, List.flatMap_append]
      exact congrArg firstError (List.append_nil _).symm
  | mux select whenSet whenClear =>
    have hc := checkExpr_eq allocated select (below _ (by simp [Expr.operands]))
    have hs := checkExpr_eq allocated whenSet (below _ (by simp [Expr.operands]))
    have ho := checkExpr_eq allocated whenClear (below _ (by simp [Expr.operands]))
    rw [checkExpr, hc, hs, ho, Expr.subterms, List.flatMap_append, List.flatMap_append,
      List.flatMap_append, firstError_append, firstError_append]
    exact congrArg (firstError _ >>= fun _ => firstError _ >>= fun _ => firstError ·)
      (List.append_nil _).symm

theorem checkParts_eq {m : Netlist} {target : SignalId}
    (allocated : m.signals.contains target = true) (parts : List Expr)
    (ok : ∀ e ∈ parts, m.Checkable e) : m.checkParts target parts =
      firstError ((Expr.subtermsOfParts parts).flatMap (m.partViolations target)) := by
  cases parts with
  | nil => rfl
  | cons e rest =>
    obtain ⟨first, others⟩ := List.forall_mem_cons.mp ok
    have he := checkExpr_eq allocated e first
    have hr := checkParts_eq allocated rest others
    rw [checkParts, he, hr, Expr.subtermsOfParts, List.flatMap_append, firstError_append]

end

/-- Every signal that a netlist and its targets mention has been added to it. -/
structure Allocated (m : Netlist) (targets : List Target) : Prop where
  drives : ∀ s ∈ m.statements, m.signals.contains s.target = true
  reads : ∀ s ∈ m.statements, ∀ id ∈ s.value.reads, m.signals.contains id = true
  clocks : ∀ d ∈ m.domains.values, m.signals.contains d.clk = true
  resets : ∀ d ∈ m.domains.values, m.signals.contains d.rst = true
  ports : ∀ id, .signal id ∈ targets → m.signals.contains id = true

theorem checkStatements_eq {m : Netlist} (statements : List Statement)
    (drives : ∀ s ∈ statements, m.signals.contains s.target = true)
    (ok : ∀ s ∈ statements, m.Checkable s.value) :
    statements.forM m.checkStatement = firstError (statements.flatMap m.valueViolations) := by
  induction statements with
  | nil => rfl
  | cons s rest ih =>
    obtain ⟨drivesFirst, drivesRest⟩ := List.forall_mem_cons.mp drives
    obtain ⟨okFirst, okRest⟩ := List.forall_mem_cons.mp ok
    have first : m.checkStatement s = firstError (m.valueViolations s) :=
      checkExpr_eq drivesFirst s.value okFirst
    rw [List.flatMap_cons, firstError_append, ← first, ← ih drivesRest okRest]
    exact List.forM_cons

theorem addPort_eq (m : Netlist) (drivers : Drivers) (ports : Table SignalId PortDirection)
    (t : Target) : outcome (m.addPort drivers ports t) = firstError (m.targetViolations t) := by
  have resolved : ∀ {id}, m.resolve t = .ok id →
      outcome (m.addPort drivers ports t) = .ok () := by
    intro id hid
    rw [addPort, hid]
    change outcome (if Table.contains ports id then _ else _) = _
    cases Table.contains ports id <;> rfl
  have refused : ∀ {e}, m.resolve t = .error e →
      outcome (m.addPort drivers ports t) = .error e := by
    intro e he
    rw [addPort, he]
    rfl
  cases t with
  | signal id => exact resolved rfl
  | clock d | reset d =>
    cases hd : m.domain? d with
    | none =>
      rw [refused (by rw [resolve, hd]), targetViolations, domainViolations, hd]
      rfl
    | some domain =>
      rw [resolved (by rw [resolve, hd]), targetViolations, domainViolations, hd]
      rfl

theorem ports_eq (m : Netlist) (drivers : Drivers) (targets : List Target)
    (ports : Table SignalId PortDirection) :
    outcome (targets.foldlM (m.addPort drivers) ports) =
      firstError (targets.flatMap m.targetViolations) := by
  induction targets generalizing ports with
  | nil => rfl
  | cons t rest ih =>
    rw [List.flatMap_cons, firstError_append, ← m.addPort_eq drivers ports t, List.foldlM_cons]
    cases m.addPort drivers ports t with
    | error e => rfl
    | ok grown => exact ih grown

theorem resolve_allocated {m : Netlist} {targets : List Target} (allocated : m.Allocated targets)
    {t : Target} (ht : t ∈ targets) {id : SignalId} (h : m.resolve t = .ok id) :
    m.signals.contains id = true := by
  have domain : ∀ {d name}, m.domain? name = some d → d ∈ m.domains.values := fun hd =>
    List.mem_map_of_mem (Table.mem_of_get? hd)
  cases t with
  | signal i =>
    obtain rfl := Except.ok.inj h
    exact allocated.ports i ht
  | clock name =>
    cases hd : m.domain? name with
    | none => simp [resolve, hd] at h
    | some d =>
      obtain rfl : d.clk = id := by simpa [resolve, hd] using h
      exact allocated.clocks d (domain hd)
  | reset name =>
    cases hd : m.domain? name with
    | none => simp [resolve, hd] at h
    | some d =>
      obtain rfl : d.rst = id := by simpa [resolve, hd] using h
      exact allocated.resets d (domain hd)

theorem named_of_allocated {m : Netlist} {targets : List Target} (allocated : m.Allocated targets)
    {drivers : Drivers} {ports : Table SignalId PortDirection}
    (h : m.ports drivers targets = .ok ports) : ∃ order, m.named ports = .ok order := by
  refine exists_named fun id hid => ?_
  rcases List.mem_append.mp hid with hport | hmentioned
  · obtain ⟨t, ht, hresolve⟩ := (ports_portsFor h).requested id hport
    exact resolve_allocated allocated ht hresolve
  · obtain ⟨s, hs, rfl | hread | ⟨d, hd, rfl | rfl⟩⟩ := mem_mentioned.mp hmentioned
    · exact allocated.drives s hs
    · exact allocated.reads s hs id hread
    · obtain ⟨name, -, hname⟩ := Option.bind_eq_some_iff.mp hd
      exact allocated.clocks d (List.mem_map_of_mem (Table.mem_of_get? hname))
    · obtain ⟨name, -, hname⟩ := Option.bind_eq_some_iff.mp hd
      exact allocated.resets d (List.mem_map_of_mem (Table.mem_of_get? hname))

/-- Generation reports the first violation, and fails for no other reason. -/
theorem generate_outcome {m : Netlist} {targets : List Target} (allocated : m.Allocated targets)
    (fits : ∀ s ∈ m.statements, m.Measurable s.value) (name : String) :
    outcome (m.generate name targets) = firstError (m.violations targets) := by
  have start : DrivenBy m [] ([] : Drivers) :=
    ⟨by simp, by simp [Table.keys], List.Pairwise.nil, by simp⟩
  have hdrivers : outcome m.drivers = firstError (m.driversViolations [] m.statements) :=
    drivers_eq start m.statements allocated.drives
  have hstatements : m.statements.forM m.checkStatement =
      firstError (m.statements.flatMap m.valueViolations) :=
    checkStatements_eq m.statements allocated.drives fun s hs => ⟨allocated.reads s hs, fits s hs⟩
  rw [violations, firstError_append, firstError_append, firstError_append, ← checkWidths_eq,
    ← hdrivers, ← hstatements, generate]
  cases m.checkWidths with
  | error e => rfl
  | ok _ =>
  cases m.drivers with
  | error e => rfl
  | ok drivers =>
  cases m.statements.forM m.checkStatement with
  | error e => rfl
  | ok _ =>
  have hports : outcome (m.ports drivers targets) = firstError (targets.flatMap m.targetViolations) :=
    m.ports_eq drivers targets []
  change outcome (m.ports drivers targets >>= _) = firstError (targets.flatMap m.targetViolations)
  rw [← hports]
  cases hp : m.ports drivers targets with
  | error e => rfl
  | ok ports =>
    obtain ⟨order, horder⟩ := named_of_allocated allocated hp
    change outcome (m.named ports >>= _) = .ok ()
    rw [horder]
    rfl

end Netlist

end NetBridge.Guest
