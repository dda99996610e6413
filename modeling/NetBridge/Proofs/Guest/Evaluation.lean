import NetBridge.Proofs.Guest.Drivers
import NetBridge.Proofs.Guest.Meaning

/-! # What statements assign

Temporaries can be given what is assigned to them, one after the other. An assignment
then gives its target what the value of the statement has in the context of the target. -/
namespace NetBridge.Guest.Netlist

open Verilog (Module)

namespace Body

/-- The names of a body are taken. -/
structure Closed (b : Body) : Prop where
  wires : ∀ n ∈ b.temps, n ∈ b.taken
  targets : ∀ a ∈ b.assigns, a.target ∈ b.taken

variable {known : String → Prop} {b b' : Body}

theorem Steps.taken {targets : List String} (h : b.Steps known targets b') :
    ∀ n ∈ b.taken, n ∈ b'.taken := by
  obtain ⟨new, -, taken, -⟩ := h.added
  intro n hn
  rw [taken]
  exact List.mem_append_right _ hn

theorem Steps.closed {targets : List String} (h : b.Steps known targets b') (closed : b.Closed)
    (inside : ∀ n ∈ targets, n ∈ b.taken) : b'.Closed := by
  obtain ⟨new, wires, taken, assigned⟩ := h.added
  have mem : ∀ n, n ∈ b.taken ∨ n ∈ new.map Verilog.Net.name → n ∈ b'.taken := by
    intro n hn
    rw [taken, List.mem_append, List.mem_reverse]
    exact hn.symm
  constructor
  · intro n hn
    rw [temps, wires, List.map_append] at hn
    exact mem n ((List.mem_append.mp hn).imp_left (closed.wires n))
  · intro a ha
    have hn : a.target ∈ b'.assigns.map (·.target) := List.mem_map_of_mem ha
    rw [assigned.mem_iff, List.mem_append, List.mem_append] at hn
    rcases hn with hold | hnew | htarget
    · obtain ⟨c, hc, heq⟩ := List.mem_map.mp hold
      exact mem _ (Or.inl (heq ▸ closed.targets c hc))
    · exact mem _ (Or.inr hnew)
    · exact mem _ (Or.inl (inside _ htarget))

/-- Whatever the names that were taken stand for, the temporaries can have what is
assigned to them. -/
theorem Steps.settle {targets : List String} (h : b.Steps known targets b') (closed : b.Closed)
    (knows : ∀ n, known n → n ∈ b.taken) (inside : ∀ n ∈ targets, n ∈ b.taken)
    (shapeOf : String → Shape) (env : String → Int) :
    ∃ env' : String → Int, (∀ n ∈ b.taken, env' n = env n) ∧
      ∀ a ∈ b'.assigns, a.target ∉ b.taken → a.Settled shapeOf env' := by
  induction h with
  | refl => exact ⟨env, fun _ _ => rfl, fun a ha hout => absurd (closed.targets a ha) hout⟩
  | @temporary targets b' shape value steps positive names ih =>
    obtain ⟨env', same, settled⟩ := ih inside
    have closed' := steps.closed closed inside
    let name := Verilog.freshName b'.taken temporaryName
    have fresh : name ∉ b'.taken := Verilog.freshName_not_mem _ _
    let given : Int := (value.assigned shapeOf env' (shapeOf name).width).toNat
    let env'' : String → Int := fun n => if n = name then given else env' n
    -- The new wire is not read by what is assigned before it.
    have unchanged : ∀ n ∈ b'.taken, env' n = env'' n := by
      intro n hn
      have other : n ≠ name := fun heq => fresh (heq ▸ hn)
      simp [env'', other]
    have inTaken : ∀ n, b'.Knows known n → n ∈ b'.taken := by
      intro n hn
      rcases hn with hn | hn
      · exact steps.taken n (knows n hn)
      · exact closed'.wires n hn
    refine ⟨env'', fun n hn => ?_, fun a ha hout => ?_⟩
    · rw [← unchanged n (steps.taken n hn), same n hn]
    · rcases List.mem_append.mp ha with ha | ha
      · have reads : ∀ n ∈ a.value.names, env' n = env'' n := by
          rcases steps.values a ha with hold | hnew
          · exact absurd (closed.targets a hold) hout
          · exact fun n hn => unchanged n (inTaken n (hnew n hn))
        rw [Verilog.Assign.Settled, ← Verilog.Expr.assigned_congr reads,
          ← unchanged a.target (closed'.targets a ha)]
        exact settled a ha hout
      · obtain rfl := List.mem_singleton.mp ha
        have reads : ∀ n ∈ value.names, env' n = env'' n :=
          fun n hn => unchanged n (inTaken n (names n hn))
        have own : env'' name = given := by simp [env'']
        rw [Verilog.Assign.Settled, ← Verilog.Expr.assigned_congr reads]
        change (shapeOf name).bits (env'' name) = _
        rw [own, Shape.bits, BitVec.ofInt_natCast, BitVec.ofNat_toNat, BitVec.setWidth_eq]
  | @assign targets b' a steps names ih =>
    have earlier : ∀ n ∈ targets, n ∈ b.taken :=
      fun n hn => inside n (List.mem_append_left _ hn)
    obtain ⟨env', same, settled⟩ := ih earlier
    refine ⟨env', same, fun c hc hout => ?_⟩
    rcases List.mem_append.mp hc with hc | hc
    · exact settled c hc hout
    · obtain rfl := List.mem_singleton.mp hc
      exact absurd (inside _ (List.mem_append_right _ (List.mem_singleton.mpr rfl))) hout

end Body

/-- The nets of the signals have the numbers of the signals, and every other net that is
assigned has what is assigned to it. -/
structure Runs (names : Table SignalId String) (M : Module) (ρ : SignalId → Int)
    (env : String → Int) : Prop where
  signals : ∀ id n, Table.get? names id = some n → env n = ρ id
  temporaries : ∀ a ∈ M.assigns, (∀ id, Table.get? names id ≠ some a.target) →
    a.Settled M.shapeOf env

theorem runs_normal {names : Table SignalId String} {M : Module}
    (positive : ∀ p ∈ M.shapes, 0 < p.2.width) {ρ : SignalId → Int} {env : String → Int} :
    Runs names M.normal ρ env ↔ Runs names M ρ env := by
  have shapes := Module.shapeOf_normal positive
  constructor
  · rintro ⟨signals, temporaries⟩
    refine ⟨signals, fun a ha hout => ?_⟩
    have := temporaries (Module.normalAssign a) (List.mem_map_of_mem ha) hout
    rwa [shapes, Module.settled_normal] at this
  · rintro ⟨signals, temporaries⟩
    refine ⟨signals, fun a ha hout => ?_⟩
    obtain ⟨c, hc, rfl⟩ := List.mem_map.mp ha
    rw [shapes, Module.settled_normal]
    exact temporaries c hc hout

namespace Stages

variable {m : Netlist} {targets : List Target} {s : m.Stages targets}

namespace Layout

variable {b : Body} {M : Module}

/-- What is declared is a signal or a temporary, with its shape. -/
theorem mem_shapes (l : s.Layout b M) {p : String × Shape} (h : p ∈ M.shapes) :
    (∃ id ∈ s.order, p = (s.nameOf id, m.shapeOf id)) ∨ ∃ w ∈ b.wires, p = (w.name, w.shape) := by
  rw [Module.shapes, l.ports, l.nets, List.map_append, List.map_map] at h
  rcases List.mem_append.mp h with hport | hnet
  · obtain ⟨⟨id, direction⟩, hmem, rfl⟩ := List.mem_map.mp hport
    exact Or.inl ⟨id, s.port_named (Table.mem_keys_of_mem hmem), rfl⟩
  · rcases List.mem_append.mp hnet with hsignal | hwire
    · obtain ⟨net, hmem, rfl⟩ := List.mem_map.mp hsignal
      rw [s.names_eq, List.filterMap_map] at hmem
      obtain ⟨id, hid, hkind⟩ := List.mem_filterMap.mp hmem
      refine Or.inl ⟨id, s.mem_names_keys.mp hid, ?_⟩
      simp only [Function.comp, net?] at hkind
      split at hkind
      · obtain rfl := Option.some.inj hkind
        rfl
      · split at hkind
        · cases hkind
        · obtain rfl := Option.some.inj hkind
          rfl
    · obtain ⟨w, hw, rfl⟩ := List.mem_map.mp hwire
      exact Or.inr ⟨w, hw, rfl⟩

theorem keys_shapes (M : Module) : M.shapes.keys = M.declared := by
  simp [Module.shapes, Module.declared, Table.keys, Function.comp_def]

theorem shape_signal (l : s.Layout b M) {id : SignalId} (h : id ∈ s.order) {shape : Shape}
    (hmem : (s.nameOf id, shape) ∈ M.shapes) : shape = m.shapeOf id := by
  rcases l.mem_shapes hmem with ⟨other, hother, heq⟩ | ⟨w, hw, heq⟩
  · obtain ⟨hname, rfl⟩ := Prod.mk.inj heq
    rw [s.nameOf_injective h hother hname]
  · obtain ⟨hname, -⟩ := Prod.mk.inj heq
    have temp : s.nameOf id ∈ b.temps := hname ▸ List.mem_map_of_mem hw
    exact absurd (s.nameOf_mem_taken h) (l.temps_disjoint temp)

theorem shape_wire (l : s.Layout b M) {w : Verilog.Net} (h : w ∈ b.wires) {shape : Shape}
    (hmem : (w.name, shape) ∈ M.shapes) : shape = w.shape := by
  rcases l.mem_shapes hmem with ⟨id, hid, heq⟩ | ⟨other, hother, heq⟩
  · obtain ⟨hname, -⟩ := Prod.mk.inj heq
    exact absurd (hname ▸ s.nameOf_mem_taken hid) (l.temps_disjoint (List.mem_map_of_mem h))
  · obtain ⟨hname, rfl⟩ := Prod.mk.inj heq
    rw [List.inj_on_of_nodup_map l.temps_nodup h hother hname]

theorem shapeOf_signal (l : s.Layout b M) {id : SignalId} (h : id ∈ s.order) :
    M.shapeOf (s.nameOf id) = m.shapeOf id := by
  have declared : s.nameOf id ∈ M.shapes.keys := by
    rw [keys_shapes]
    exact l.mem_declared.mpr (Or.inl (s.nameOf_mem_taken h))
  rw [Module.shapeOf, Table.get?_of_unique declared fun _ => l.shape_signal h]
  rfl

theorem shapeOf_wire (l : s.Layout b M) {w : Verilog.Net} (h : w ∈ b.wires) :
    M.shapeOf w.name = w.shape := by
  have declared : w.name ∈ M.shapes.keys := by
    rw [keys_shapes]
    exact l.mem_declared.mpr (Or.inr (List.mem_map_of_mem h))
  rw [Module.shapeOf, Table.get?_of_unique declared fun _ => l.shape_wire h]
  rfl

theorem shapes_positive (l : s.Layout b M) : ∀ p ∈ M.shapes, 0 < p.2.width := by
  intro p hp
  rcases l.mem_shapes hp with ⟨id, hid, rfl⟩ | ⟨w, hw, rfl⟩
  · exact checkWidths_ok s.widths_ok (s.allocated hid)
  · exact (l.steps.positive w hw).resolve_left (by simp [start])

/-- There are such values, whatever numbers the signals have. -/
theorem exists_runs (l : s.Layout b M) (ρ : SignalId → Int) : ∃ env, Runs s.names M ρ env := by
  have closed : s.start.Closed := by
    refine ⟨by simp [start, Body.temps], fun a ha => ?_⟩
    obtain ⟨id, hid, rfl⟩ := List.mem_map.mp ha
    exact s.nameOf_mem_taken (s.tied_iff.mp hid).1
  have inside : ∀ n ∈ s.combs.map fun st => s.nameOf st.target, n ∈ s.start.taken := by
    intro n hn
    obtain ⟨st, hst, rfl⟩ := List.mem_map.mp hn
    exact s.nameOf_mem_taken (s.driven_named (List.mem_of_mem_filter hst))
  classical
  let numbers (n : String) : Int := if h : ∃ id ∈ s.order, s.nameOf id = n then ρ h.choose else 0
  obtain ⟨env, same, settled⟩ := l.steps.settle closed (fun _ h => h) inside M.shapeOf numbers
  refine ⟨env, fun id n hget => ?_, fun a ha hout => ?_⟩
  rotate_left
  · exact settled a (l.assigns ▸ ha) (s.not_mem_taken.mpr hout)
  obtain ⟨hid, rfl⟩ := s.get?_names_iff.mp hget
  have named : ∃ other ∈ s.order, s.nameOf other = s.nameOf id := ⟨id, hid, rfl⟩
  rw [same _ (s.nameOf_mem_taken hid)]
  simp only [numbers, dif_pos named]
  exact congrArg ρ (s.nameOf_injective named.choose_spec.1 hid named.choose_spec.2)

/-- The value of a statement means the same in the text, if the temporaries that it was
lowered to are part of the module. -/
theorem lowered_means (l : s.Layout b M) {st : Statement} (hst : st ∈ m.statements) {c : Body}
    (wires : (c.lower m s.nameOf st.value).2.wires ⊆ b.wires)
    (assigns : (c.lower m s.nameOf st.value).2.assigns ⊆ b.assigns) {ρ : SignalId → Int}
    {env : String → Int} (runs : Runs s.names M ρ env) :
    Expr.Means m.shapeOf ρ M.shapeOf env st.value (c.lower m s.nameOf st.value).1 := by
  refine Expr.lowered_means st.value ⟨c.taken, []⟩ (s.fits hst).1 (fun id hid => ?_) fun t ht => ?_
  · have named := s.read_named hst hid
    exact ⟨l.shapeOf_signal named, runs.signals id _ (s.get?_names_eq named)⟩
  · have wire : .wire t.shape t.name ∈ b.wires :=
      wires (List.mem_append_right _ (List.mem_map_of_mem ht))
    have assigned : ⟨t.name, t.value⟩ ∈ M.assigns := by
      rw [l.assigns]
      exact assigns (List.mem_append_right _ (List.mem_map_of_mem ht))
    have new : t.name ∉ s.taken := l.temps_disjoint (List.mem_map_of_mem wire)
    exact ⟨l.shapeOf_wire wire, runs.temporaries _ assigned (s.not_mem_taken.mp new)⟩

/-- The assignment of a combinational statement means the value of the statement. -/
theorem comb_means (l : s.Layout b M) {st : Statement} (h : st ∈ s.combs) :
    ∃ a ∈ M.assigns, a.target = s.nameOf st.target ∧ ∀ ρ env, Runs s.names M ρ env →
      Expr.Means m.shapeOf ρ M.shapeOf env st.value a.value := by
  obtain ⟨before, after, c, -, later⟩ := l.combs st h
  rw [Body.addComb_eq] at later
  refine ⟨⟨s.nameOf st.target, (c.lower m s.nameOf st.value).1⟩, ?_, rfl, fun ρ env runs => ?_⟩
  · rw [l.assigns]
    exact later.kept _ (List.mem_append_right _ (List.mem_singleton.mpr rfl))
  · exact l.lowered_means (List.mem_of_mem_filter h) later.wires_kept
      (fun a ha => later.kept a (List.mem_append_left _ ha)) runs

end Layout

end Stages

/-- The text of a module gives the target of a combinational statement what the value of
the statement has in a context, whatever numbers the signals have. That is the value in
the bits of its own shape where every part of the expression keeps its value. It is another
one where a part of a concatenation has a carry to lose, unless the part does not need it and
nothing stands above. -/
theorem generated_text_assigns {m : Netlist} (built : Built m) {name : String}
    (legal : Verilog.isIdentifier name = true) {targets : List Target} {g : Generated}
    (generated : m.generate name targets = .ok g) :
    ∃ M, Verilog.read g.text = some M ∧ ∀ st ∈ m.statements, st.domain = none →
      ∃ n a, Table.get? g.names st.target = some n ∧
        M.assigns.filter (·.target == n) = [⟨n, a⟩] ∧ M.shapeOf n = m.shapeOf st.target ∧
        ∀ ρ, (∃ env, Runs g.names M ρ env) ∧ ∀ env, Runs g.names M ρ env →
          let w := (m.shapeOf st.target).width
          let contextWidth := max w (st.value.ownWidth m.shapeOf)
          let contextSigned := st.value.ownSigned m.shapeOf
          a.assigned M.shapeOf env w = st.value.assigned m.shapeOf ρ w ∧
          (st.value.keeps m.shapeOf contextWidth contextSigned = true →
            a.assigned M.shapeOf env w = BitVec.ofInt w (st.value.value m.shapeOf ρ)) ∧
          ∀ lower part higher, st.value.Narrows m.shapeOf lower part higher →
            (st.value.shape m.shapeOf).width ≤ w →
            (a.assigned M.shapeOf env w = BitVec.ofInt w (st.value.value m.shapeOf ρ) ↔
              ((part.shape m.shapeOf).bits (part.value m.shapeOf ρ)).toNat <
                  2 ^ part.ownWidth m.shapeOf ∧
                Expr.partsValue m.shapeOf ρ higher = 0) := by
  obtain ⟨s, rfl⟩ := generate_eq_ok.mp generated
  obtain ⟨b, l⟩ := s.layout name
  have shapes := Module.shapeOf_normal l.shapes_positive
  refine ⟨_, Verilog.read_text (l.legal_names built legal), fun st hst hcomb => ?_⟩
  have named : st.target ∈ s.order := s.driven_named hst
  obtain ⟨a, ha, htarget, means⟩ :=
    l.comb_means (List.mem_filter.mpr ⟨hst, by rw [hcomb]; rfl⟩ : st ∈ s.combs)
  refine ⟨s.nameOf st.target, a.value.normal, s.get?_names_eq named, ?_, ?_, fun ρ => ⟨?_, ?_⟩⟩
  · have once := (l.counts built named).1
    rw [s.drivenBy.driver st hst, hcomb, ← htarget, ← Module.assignsOf_normal] at once
    have written : Module.normalAssign a ∈ (s.generated name).verilog.normal.assigns :=
      List.mem_map_of_mem ha
    rw [← htarget]
    exact Module.only_assign written once
  · rw [shapes]
    exact l.shapeOf_signal named
  · obtain ⟨env, runs⟩ := l.exists_runs ρ
    exact ⟨env, (runs_normal l.shapes_positive).mpr runs⟩
  · intro env runs w contextWidth contextSigned
    have same : a.value.normal.assigned (s.generated name).verilog.normal.shapeOf env w =
        st.value.assigned m.shapeOf ρ w := by
      rw [shapes, Verilog.Expr.assigned_normal]
      exact (means ρ env ((runs_normal l.shapes_positive).mp runs)).assigned w
    rw [same]
    exact ⟨rfl, Expr.assigned_of_keeps, fun _ _ _ narrows => narrows.assigned_iff⟩

/-- A bit above a sum. -/
def aboveSum : Expr := .concat [.binary .add (.signal ⟨0⟩) (.signal ⟨1⟩), .signal ⟨2⟩]

def bitAboveSum : Netlist :=
  let m := (({} : Netlist).addSignal "a" (.unsignedBits 4)).2
  let m := (m.addSignal "b" (.unsignedBits 4)).2
  let m := (m.addSignal "c" (.unsignedBits 1)).2
  let m := (m.addSignal "o" (.unsignedBits 6)).2
  m.drive none ⟨3⟩ aboveSum

def bitAboveSumPorts : List Target := [.signal ⟨0⟩, .signal ⟨1⟩, .signal ⟨2⟩, .signal ⟨3⟩]

theorem bitAboveSum_built : Built bitAboveSum :=
  .statement _ _ _ (.signal _ _ _ (.signal _ _ _ (.signal _ _ _ (.signal _ _ _ .empty))))

/-- The text puts the bit in the place of the carry: with a sum of 16 it makes 16 of what
stands for 48. -/
theorem bitAboveSum_takes_carry : Built bitAboveSum ∧ Verilog.isIdentifier "top" = true ∧
    ∃ g M n a, bitAboveSum.generate "top" bitAboveSumPorts = .ok g ∧
      Verilog.read g.text = some M ∧ Table.get? g.names ⟨3⟩ = some n ∧
      M.assigns.filter (·.target == n) = [⟨n, a⟩] ∧
      ∃ ρ env, Runs g.names M ρ env ∧ a.assigned M.shapeOf env 6 = 16 ∧
        aboveSum.value bitAboveSum.shapeOf ρ = 48 := by
  obtain ⟨g, hg⟩ : ∃ g, bitAboveSum.generate "top" bitAboveSumPorts = .ok g := ⟨_, rfl⟩
  obtain ⟨M, hread, statements⟩ := generated_text_assigns bitAboveSum_built (by decide) hg
  have hst : ⟨⟨3⟩, aboveSum, none⟩ ∈ bitAboveSum.statements := List.mem_singleton.mpr rfl
  obtain ⟨n, a, hname, hassign, -, runs⟩ := statements _ hst rfl
  let ρ : SignalId → Int := fun id => if id.index = 0 then 15 else 1
  obtain ⟨⟨env, henv⟩, same⟩ := runs ρ
  have given : aboveSum.assigned bitAboveSum.shapeOf ρ 6 = 16 := by decide
  exact ⟨bitAboveSum_built, by decide, g, M, n, a, hg, hread, hname, hassign, ρ, env, henv,
    (same env henv).1.trans given, by decide⟩

end NetBridge.Guest.Netlist
