import NetBridge.Guest.Check
import NetBridge.Proofs.Table

/-! # What the checks find

The drivers are collected statement by statement and the ports target by target.
Either loop is described by an invariant that one step keeps. Signals have a width, and
the values of statements are well formed. -/
namespace NetBridge.Guest

/-- A loop that can fail keeps what each of its steps keeps. -/
theorem foldlM_ok {ε α σ : Type} {f : σ → α → Except ε σ} {P : List α → σ → Prop}
    (step : ∀ done s x s', P done s → f s x = .ok s' → P (done ++ [x]) s')
    (rest done : List α) (s s' : σ) (start : P done s) (run : rest.foldlM f s = .ok s') :
    P (done ++ rest) s' := by
  induction rest generalizing done s with
  | nil =>
    obtain rfl : s = s' := by simpa [pure, Except.pure] using run
    simpa using start
  | cons x rest ih =>
    cases hx : f s x with
    | error e => simp [List.foldlM_cons, hx, bind, Except.bind] at run
    | ok t =>
      have hrest : rest.foldlM f t = .ok s' := by
        simpa [List.foldlM_cons, hx, bind, Except.bind] using run
      simpa using ih (done ++ [x]) t (step done s x t start hx) hrest

/-- A check followed by another one passes if both pass. -/
theorem andThen_ok {ε : Type} {a b : Except ε Unit} :
    (do a; b) = .ok () ↔ a = .ok () ∧ b = .ok () := by
  cases a <;> simp [bind, Except.bind]

/-- A check of every member passes if each of them passes. -/
theorem forM_ok {ε α : Type} {check : α → Except ε Unit} {l : List α} :
    l.forM check = .ok () ↔ ∀ x ∈ l, check x = .ok () := by
  induction l with
  | nil => exact iff_of_true rfl (by simp)
  | cons x rest ih =>
    rw [List.forall_mem_cons, ← ih, ← andThen_ok]
    exact Iff.of_eq (congrArg (· = Except.ok ()) List.forM_cons)

namespace Netlist

/-- What the drivers say once some statements have joined them. -/
structure DrivenBy (m : Netlist) (done : List Statement) (drivers : Drivers) : Prop where
  driver : ∀ s ∈ done, Table.get? drivers s.target = some s.domain
  driven : ∀ id ∈ drivers.keys, ∃ s ∈ done, s.target = id
  /-- Statements of one signal are all of one domain. -/
  agree : done.Pairwise fun a b => a.target = b.target → a.domain = b.domain ∧ a.domain.isSome
  known : ∀ s ∈ done, ∀ d, s.domain = some d → (m.domain? d).isSome

theorem known_of_addDriver {m : Netlist} {drivers drivers' : Drivers} {s : Statement}
    (h : m.addDriver drivers s = .ok drivers') {d : String} (hd : s.domain = some d) :
    (m.domain? d).isSome := by
  by_contra unknown
  have hnone : (m.domain? d).isNone = true := by
    cases hm : m.domain? d <;> simp_all
  simp only [addDriver, hd, hnone, if_true, bind, Except.bind, throw, throwThe,
    MonadExceptOf.throw] at h
  cases h

/-- A statement either is the first one of its signal, or it repeats the domain of a
register. -/
theorem addDriver_ok {m : Netlist} {drivers drivers' : Drivers} {s : Statement}
    (h : m.addDriver drivers s = .ok drivers') :
    (Table.get? drivers s.target = none ∧ drivers' = drivers ++ [(s.target, s.domain)]) ∨
      (Table.get? drivers s.target = some s.domain ∧ s.domain.isSome ∧ drivers' = drivers) := by
  have known : ∀ d, s.domain = some d → ¬ (m.domain? d).isNone = true := by
    intro d hd
    have hsome := known_of_addDriver h hd
    cases hm : m.domain? d <;> simp_all
  cases hget : Table.get? drivers s.target with
  | none =>
    refine Or.inl ⟨rfl, ?_⟩
    cases hd : s.domain with
    | none =>
      simp only [addDriver, hd, hget] at h
      exact (Except.ok.inj h).symm
    | some d =>
      simp only [addDriver, hd, hget, if_neg (known d hd)] at h
      exact (Except.ok.inj h).symm
  | some driver =>
    have joined : (if driver.isSome && driver == s.domain then .ok drivers
        else (m.signal s.target).bind fun t => .error (.multipleDrivers t.name)) =
        Except.ok drivers' := by
      cases hd : s.domain with
      | none =>
        simp only [addDriver, hd, hget] at h
        exact h
      | some d =>
        simp only [addDriver, hd, hget, if_neg (known d hd)] at h
        exact h
    split at joined
    · rename_i same
      cases joined
      obtain ⟨hsome, heq⟩ : driver.isSome = true ∧ driver = s.domain := by simpa using same
      exact Or.inr ⟨by rw [heq], heq ▸ hsome, rfl⟩
    · cases hm : m.signal s.target <;> simp [hm, Except.bind] at joined

theorem addDriver_drivenBy {m : Netlist} (done : List Statement) (drivers : Drivers) (s : Statement)
    (drivers' : Drivers) (inv : DrivenBy m done drivers)
    (h : m.addDriver drivers s = .ok drivers') : DrivenBy m (done ++ [s]) drivers' := by
  have known : ∀ t ∈ done ++ [s], ∀ d, t.domain = some d → (m.domain? d).isSome := by
    intro t ht d hd
    rcases List.mem_append.mp ht with ht | ht
    · exact inv.known t ht d hd
    · obtain rfl := List.mem_singleton.mp ht
      exact known_of_addDriver h hd
  rcases addDriver_ok h with ⟨fresh, rfl⟩ | ⟨same, hsome, rfl⟩
  · have new : ∀ t ∈ done, t.target ≠ s.target := by
      intro t ht heq
      have := inv.driver t ht
      rw [heq, fresh] at this
      cases this
    refine ⟨?_, ?_, ?_, known⟩
    · intro t ht
      rcases List.mem_append.mp ht with ht | ht
      · rw [Table.get?_append, inv.driver t ht]
        rfl
      · obtain rfl := List.mem_singleton.mp ht
        rw [Table.get?_append, fresh]
        simp [Table.get?]
    · intro id hid
      rw [Table.keys_append] at hid
      rcases List.mem_append.mp hid with hid | hid
      · obtain ⟨t, ht, heq⟩ := inv.driven id hid
        exact ⟨t, List.mem_append_left _ ht, heq⟩
      · exact ⟨s, by simp, by simpa [Table.keys, eq_comm] using hid⟩
    · refine List.pairwise_append.mpr ⟨inv.agree, List.pairwise_singleton _ _, ?_⟩
      intro a ha b hb heq
      obtain rfl := List.mem_singleton.mp hb
      exact absurd heq (new a ha)
  · refine ⟨?_, ?_, ?_, known⟩
    · intro t ht
      rcases List.mem_append.mp ht with ht | ht
      · exact inv.driver t ht
      · obtain rfl := List.mem_singleton.mp ht
        exact same
    · intro id hid
      obtain ⟨t, ht, heq⟩ := inv.driven id hid
      exact ⟨t, List.mem_append_left _ ht, heq⟩
    · refine List.pairwise_append.mpr ⟨inv.agree, List.pairwise_singleton _ _, ?_⟩
      intro a ha b hb heq
      obtain rfl := List.mem_singleton.mp hb
      have hab : a.domain = b.domain := by
        have := inv.driver a ha
        rw [heq, same] at this
        exact (Option.some.inj this).symm
      exact ⟨hab, hab ▸ hsome⟩

theorem drivers_drivenBy {m : Netlist} {drivers : Drivers} (h : m.drivers = .ok drivers) :
    DrivenBy m m.statements drivers := by
  have start : DrivenBy m [] ([] : Drivers) :=
    ⟨by simp, by simp [Table.keys], List.Pairwise.nil, by simp⟩
  simpa using foldlM_ok addDriver_drivenBy m.statements [] [] drivers start h

namespace DrivenBy

variable {m : Netlist} {done : List Statement} {drivers : Drivers}

theorem mem_keys_iff (inv : DrivenBy m done drivers) {id : SignalId} :
    id ∈ drivers.keys ↔ ∃ s ∈ done, s.target = id := by
  constructor
  · exact inv.driven id
  · rintro ⟨s, hs, rfl⟩
    exact Table.mem_keys_of_get? (inv.driver s hs)

theorem domain_eq (inv : DrivenBy m done drivers) {s t : Statement} (hs : s ∈ done)
    (ht : t ∈ done) (h : s.target = t.target) : s.domain = t.domain := by
  have hd := inv.driver s hs
  rw [h, inv.driver t ht] at hd
  exact (Option.some.inj hd).symm

/-- Combinational statements drive pairwise different signals. -/
theorem comb_nodup (inv : DrivenBy m done drivers) :
    ((done.filter (·.domain.isNone)).map (·.target)).Nodup := by
  refine List.pairwise_map.mpr ((inv.agree.filter _).imp_of_mem ?_)
  intro a b ha _ agree heq
  have hnone : a.domain.isNone = true := (List.mem_filter.mp ha).2
  have hsome := (agree heq).2
  cases hd : a.domain <;> simp_all

end DrivenBy

/-- What the ports say once some targets have joined them. -/
structure PortsFor (m : Netlist) (drivers : Drivers) (done : List Target)
    (ports : Table SignalId PortDirection) : Prop where
  nodup : ports.keys.Nodup
  resolved : ∀ t ∈ done, ∃ id ∈ ports.keys, m.resolve t = .ok id
  requested : ∀ id ∈ ports.keys, ∃ t ∈ done, m.resolve t = .ok id
  direction : ∀ p ∈ ports, p.2 = if Table.contains drivers p.1 then .output else .input

/-- The signal behind a target joins the ports, unless it is there. -/
theorem addPort_ok {m : Netlist} {drivers : Drivers} {ports ports' : Table SignalId PortDirection}
    {t : Target} (h : m.addPort drivers ports t = .ok ports') : ∃ id, m.resolve t = .ok id ∧
      ports' = if id ∈ ports.keys then ports
        else ports ++ [(id, if Table.contains drivers id then .output else .input)] := by
  cases ht : m.resolve t with
  | error e => simp [addPort, ht, bind, Except.bind] at h
  | ok id =>
    refine ⟨id, rfl, ?_⟩
    by_cases hid : id ∈ ports.keys
    · rw [if_pos hid]
      refine Eq.symm ?_
      simpa [addPort, ht, bind, Except.bind, Table.contains_iff.mpr hid, pure, Except.pure] using h
    · have hnot : ¬ Table.contains ports id = true := fun hc => hid (Table.contains_iff.mp hc)
      rw [if_neg hid]
      refine Eq.symm ?_
      simpa [addPort, ht, bind, Except.bind, hnot, pure, Except.pure] using h

theorem addPort_portsFor {m : Netlist} {drivers : Drivers} (done : List Target)
    (ports : Table SignalId PortDirection) (t : Target) (ports' : Table SignalId PortDirection)
    (inv : PortsFor m drivers done ports) (h : m.addPort drivers ports t = .ok ports') :
    PortsFor m drivers (done ++ [t]) ports' := by
  obtain ⟨id, ht, rfl⟩ := addPort_ok h
  by_cases hid : id ∈ ports.keys
  · rw [if_pos hid]
    refine ⟨inv.nodup, ?_, ?_, inv.direction⟩
    · intro u hu
      rcases List.mem_append.mp hu with hu | hu
      · exact inv.resolved u hu
      · obtain rfl := List.mem_singleton.mp hu
        exact ⟨id, hid, ht⟩
    · intro i hi
      obtain ⟨u, hu, hr⟩ := inv.requested i hi
      exact ⟨u, List.mem_append_left _ hu, hr⟩
  · rw [if_neg hid]
    have keys : ∀ d : PortDirection, Table.keys (ports ++ [(id, d)]) = ports.keys ++ [id] := by
      intro d
      rw [Table.keys_append]
      rfl
    refine ⟨?_, ?_, ?_, ?_⟩
    · rw [keys]
      refine List.nodup_append.mpr ⟨inv.nodup, List.nodup_singleton id, ?_⟩
      intro a ha b hb heq
      obtain rfl := List.mem_singleton.mp hb
      exact hid (heq ▸ ha)
    · intro u hu
      rw [keys]
      rcases List.mem_append.mp hu with hu | hu
      · obtain ⟨i, hi, hr⟩ := inv.resolved u hu
        exact ⟨i, List.mem_append_left _ hi, hr⟩
      · obtain rfl := List.mem_singleton.mp hu
        exact ⟨id, by simp, ht⟩
    · intro i hi
      rw [keys] at hi
      rcases List.mem_append.mp hi with hi | hi
      · obtain ⟨u, hu, hr⟩ := inv.requested i hi
        exact ⟨u, List.mem_append_left _ hu, hr⟩
      · obtain rfl := List.mem_singleton.mp hi
        exact ⟨t, by simp, ht⟩
    · intro p hp
      rcases List.mem_append.mp hp with hp | hp
      · exact inv.direction p hp
      · obtain rfl := List.mem_singleton.mp hp
        rfl

theorem ports_portsFor {m : Netlist} {drivers : Drivers} {targets : List Target}
    {ports : Table SignalId PortDirection} (h : m.ports drivers targets = .ok ports) :
    PortsFor m drivers targets ports := by
  have start : PortsFor m drivers [] [] := ⟨List.nodup_nil, by simp, by simp [Table.keys], by simp⟩
  simpa using foldlM_ok addPort_portsFor targets [] [] ports start h

theorem checkWidths_ok {m : Netlist} (h : m.checkWidths = .ok ()) {id : SignalId}
    (allocated : m.signals.contains id = true) : 0 < (m.shapeOf id).width := by
  have all : ∀ s ∈ m.signals.toList, s.shape.width ≠ 0 := by
    cases hf : m.signals.toList.find? (·.shape.width == 0) with
    | some s => simp [checkWidths, hf] at h
    | none => simpa using hf
  rw [← Arena.get?_isSome] at allocated
  obtain ⟨s, hs⟩ := Option.isSome_iff_exists.mp allocated
  have shape : m.shapeOf id = s.shape := by simp [shapeOf, signal?, hs]
  have mem : s ∈ m.signals.toList := Array.mem_toList_iff.mpr (Array.mem_of_getElem? hs)
  rw [shape]
  exact Nat.pos_of_ne_zero (all s mem)

theorem measure_ok {m : Netlist} {e : Expr} {s : Shape} (h : m.measure e = .ok s) :
    s = e.shape m.shapeOf := by
  unfold measure at h
  split at h
  · cases h
  · split at h
    · exact (Except.ok.inj h).symm
    · cases h

end Netlist

namespace Expr

mutual

/-- Slices lie within their operands. -/
def WellFormed (shapeOf : SignalId → Shape) : Expr → Prop
  | signal _ => True
  | const _ _ => True
  | unary _ operand => WellFormed shapeOf operand
  | binary _ left right => WellFormed shapeOf left ∧ WellFormed shapeOf right
  | slice value start stop =>
    WellFormed shapeOf value ∧ start < stop ∧ stop ≤ (value.shape shapeOf).width
  | concat parts => PartsWellFormed shapeOf parts
  | mux condition whenSet whenClear =>
    WellFormed shapeOf condition ∧ WellFormed shapeOf whenSet ∧ WellFormed shapeOf whenClear

def PartsWellFormed (shapeOf : SignalId → Shape) : List Expr → Prop
  | [] => True
  | e :: rest => WellFormed shapeOf e ∧ PartsWellFormed shapeOf rest

end

end Expr

namespace Netlist

mutual

theorem checkExpr_ok {m : Netlist} {target : SignalId} (e : Expr)
    (h : m.checkExpr target e = .ok ()) : e.WellFormed m.shapeOf := by
  cases e with
  | signal id => trivial
  | const value shape => trivial
  | unary op operand => exact checkExpr_ok operand h
  | binary op left right =>
    obtain ⟨hl, hr⟩ := andThen_ok.mp h
    exact ⟨checkExpr_ok left hl, checkExpr_ok right hr⟩
  | slice value start stop =>
    obtain ⟨hv, hrange⟩ := andThen_ok.mp h
    refine ⟨checkExpr_ok value hv, ?_⟩
    cases hm : m.measure value with
    | error e =>
      rw [hm] at hrange
      cases hrange
    | ok shape =>
      obtain rfl := measure_ok hm
      by_contra hout
      cases ht : m.signal target <;> simp [hm, ht, hout, bind, Except.bind, throw, throwThe,
        MonadExceptOf.throw] at hrange
  | concat parts =>
    cases parts with
    | nil => trivial
    | cons first rest =>
      obtain ⟨hf, hr⟩ := andThen_ok.mp h
      exact ⟨checkExpr_ok first hf, checkParts_ok rest hr⟩
  | mux select whenSet whenClear =>
    obtain ⟨hc, h⟩ := andThen_ok.mp h
    obtain ⟨hs, ho⟩ := andThen_ok.mp h
    exact ⟨checkExpr_ok select hc, checkExpr_ok whenSet hs, checkExpr_ok whenClear ho⟩

theorem checkParts_ok {m : Netlist} {target : SignalId} (parts : List Expr)
    (h : m.checkParts target parts = .ok ()) : Expr.PartsWellFormed m.shapeOf parts := by
  cases parts with
  | nil => trivial
  | cons e rest =>
    obtain ⟨he, hr⟩ := andThen_ok.mp h
    exact ⟨checkExpr_ok e he, checkParts_ok rest hr⟩

end

theorem checkStatements_ok {m : Netlist} (h : m.statements.forM m.checkStatement = .ok ()) :
    ∀ st ∈ m.statements, st.value.WellFormed m.shapeOf :=
  fun st hst => checkExpr_ok st.value (forM_ok.mp h st hst)

end Netlist

end NetBridge.Guest
