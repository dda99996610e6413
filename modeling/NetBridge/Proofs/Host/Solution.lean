import Mathlib.Data.Finset.Card
import Mathlib.Logic.Relation
import NetBridge.Proofs.Host.Evaluation

/-! # Networks without loops

Assignments with distinct targets are equations for the signals that they drive. Where no signal
depends on itself there is one solution, in whatever order the assignments stand, and an
evaluation finds it: every pass settles the signals that are one step deeper than those before,
and no signal is as deep as there are assignments. -/
namespace NetBridge.Host.Netlist

variable (m : Netlist)

/-- The signals that are driven. -/
def targets : List SignalId := m.assignments.map Assign.target

/-- What an assignment gives its target: the part of the value that it has room for. -/
def driven (v : Valuation) (a : Assign) : Word :=
  (m.shapeOf a.target).truncate (a.value.eval (Valuation.read v))

/-- The first signal is read where the second one is driven. -/
def Feeds (x y : SignalId) : Prop := ∃ a ∈ m.assignments, a.target = y ∧ x ∈ a.value.reads

/-- No signal depends on itself, directly or through others. -/
def Acyclic : Prop := ∀ x, ¬ Relation.TransGen m.Feeds x x

/-- Signals that nothing drives have the values that come in, and every assignment holds. -/
structure Solves (inputs values : Valuation) : Prop where
  kept : ∀ id, id ∉ m.targets → Table.get? values id = Table.get? inputs id
  holds : ∀ a ∈ m.assignments, Table.get? values a.target = some (m.driven values a)

variable {m}

theorem mem_targets {id : SignalId} : id ∈ m.targets ↔ ∃ a ∈ m.assignments, a.target = id :=
  List.mem_map

theorem driven_congr {u v : Valuation} {a : Assign}
    (h : ∀ x ∈ a.value.reads, Table.get? u x = Table.get? v x) : m.driven u a = m.driven v a := by
  have same : a.value.eval (Valuation.read u) = a.value.eval (Valuation.read v) :=
    Expr.eval_congr fun x hx => congrArg (·.getD 0) (h x hx)
  rw [driven, driven, same]

theorem get?_settleAssign (v : Valuation) (a : Assign) (id : SignalId) :
    Table.get? (m.settleAssign v a) id =
      if a.target = id then some (m.driven v a) else Table.get? v id :=
  Table.get?_set v a.target id _

/-- The signals of a solution are those that come in and those that are driven. -/
theorem Solves.mem_keys {inputs values : Valuation} (h : m.Solves inputs values) (id : SignalId) :
    id ∈ Table.keys values ↔ id ∈ Table.keys inputs ∨ id ∈ m.targets := by
  by_cases hid : id ∈ m.targets
  · obtain ⟨a, ha, rfl⟩ := mem_targets.mp hid
    have present := Table.mem_keys_of_get? (h.holds a ha)
    exact ⟨fun _ => .inr hid, fun _ => present⟩
  · have same := h.kept id hid
    constructor
    · intro hmem
      rw [← Table.get?_isSome_iff, same, Table.get?_isSome_iff] at hmem
      exact .inl hmem
    · rintro (hmem | hmem)
      · rwa [← Table.get?_isSome_iff, same, Table.get?_isSome_iff]
      · exact absurd hmem hid

open Classical in
/-- How many driven signals there are on the ways to a signal. -/
noncomputable def depth (m : Netlist) (x : SignalId) : Nat :=
  (m.targets.toFinset.filter fun y => Relation.TransGen m.Feeds y x).card

theorem depth_lt (acyclic : m.Acyclic) {x y : SignalId} (hx : x ∈ m.targets) (h : m.Feeds x y) :
    m.depth x < m.depth y := by
  classical
  apply Finset.card_lt_card
  refine Finset.ssubset_iff_of_subset ?_ |>.mpr ⟨x, ?_, ?_⟩
  · intro z hz
    obtain ⟨hz, path⟩ := Finset.mem_filter.mp hz
    exact Finset.mem_filter.mpr ⟨hz, path.tail h⟩
  · exact Finset.mem_filter.mpr ⟨List.mem_toFinset.mpr hx, .single h⟩
  · intro cycle
    exact acyclic x (Finset.mem_filter.mp cycle).2

theorem depth_lt_length (acyclic : m.Acyclic) {x : SignalId} (hx : x ∈ m.targets) :
    m.depth x < m.assignments.length := by
  classical
  have fewer : m.depth x < m.targets.toFinset.card := by
    apply Finset.card_lt_card
    refine Finset.ssubset_iff_of_subset (Finset.filter_subset _ _) |>.mpr ⟨x, ?_, ?_⟩
    · exact List.mem_toFinset.mpr hx
    · intro cycle
      exact acyclic x (Finset.mem_filter.mp cycle).2
  have all := List.toFinset_card_le m.targets
  rw [targets, List.length_map] at all
  exact Nat.lt_of_lt_of_le fewer all

/-- Ranks that grow from what is read to what is driven leave no room for a loop. -/
theorem acyclic_of_rank (rank : SignalId → Nat)
    (h : ∀ a ∈ m.assignments, ∀ x ∈ a.value.reads, rank x < rank a.target) : m.Acyclic := by
  have grows : ∀ x y, Relation.TransGen m.Feeds x y → rank x < rank y := by
    intro x y path
    induction path with
    | single feeds =>
      obtain ⟨a, ha, rfl, hx⟩ := feeds
      exact h a ha x hx
    | tail _ feeds ih =>
      obtain ⟨a, ha, rfl, hx⟩ := feeds
      exact ih.trans (h a ha _ hx)
  intro x cycle
  exact Nat.lt_irrefl _ (grows x x cycle)

/-- Nothing drives the signal, or it is less deep than `k`. -/
def Shallow (m : Netlist) (k : Nat) (id : SignalId) : Prop := id ∈ m.targets → m.depth id < k

theorem shallow_reads (acyclic : m.Acyclic) {a : Assign} (ha : a ∈ m.assignments) {k : Nat}
    (hk : m.depth a.target ≤ k) : ∀ x ∈ a.value.reads, m.Shallow k x := by
  intro x hx hmem
  have less := depth_lt acyclic hmem ⟨a, ha, rfl, hx⟩
  omega

/-- Two solutions for the same inputs are the same. -/
theorem Solves.unique (acyclic : m.Acyclic) {inputs u v : Valuation} (hu : m.Solves inputs u)
    (hv : m.Solves inputs v) (id : SignalId) : Table.get? u id = Table.get? v id := by
  have agree : ∀ k id, m.Shallow k id → Table.get? u id = Table.get? v id := by
    intro k
    induction k with
    | zero =>
      intro id shallow
      have undriven : id ∉ m.targets := fun hid => Nat.not_lt_zero _ (shallow hid)
      exact (hu.kept id undriven).trans (hv.kept id undriven).symm
    | succ k ih =>
      intro id shallow
      by_cases hid : id ∈ m.targets
      · have hk : m.depth id ≤ k := Nat.le_of_lt_succ (shallow hid)
        obtain ⟨a, ha, rfl⟩ := mem_targets.mp hid
        have reads := shallow_reads acyclic ha hk
        rw [hu.holds a ha, hv.holds a ha, driven_congr fun x hx => ih x (reads x hx)]
      · exact ih id fun h => absurd h hid
  exact agree (m.depth id + 1) id fun _ => Nat.lt_succ_self _

/-- The assignments to the signals that are less deep than `k` hold. -/
def SettledTo (m : Netlist) (k : Nat) (v : Valuation) : Prop :=
  ∀ a ∈ m.assignments, m.depth a.target < k → Table.get? v a.target = some (m.driven v a)

/-- Carrying out any of the assignments changes nothing that has settled. -/
theorem SettledTo.get?_foldl (acyclic : m.Acyclic) {k : Nat} {v : Valuation} (h : m.SettledTo k v)
    {assigns : List Assign} (sub : assigns ⊆ m.assignments) {id : SignalId}
    (shallow : m.Shallow k id) :
    Table.get? (assigns.foldl m.settleAssign v) id = Table.get? v id := by
  -- The valuations in between agree with the first one where that has settled.
  have agree : ∀ u : Valuation, (∀ id, m.Shallow k id → Table.get? u id = Table.get? v id) →
      ∀ id, m.Shallow k id →
        Table.get? (assigns.foldl m.settleAssign u) id = Table.get? v id := by
    induction assigns with
    | nil => exact fun u hu => hu
    | cons a rest ih =>
      obtain ⟨ha, hrest⟩ := List.cons_subset.mp sub
      intro u hu
      refine ih hrest _ ?_
      intro id shallow
      rw [get?_settleAssign]
      split
      · rename_i same
        subst same
        have hk : m.depth a.target < k := shallow (mem_targets.mpr ⟨a, ha, rfl⟩)
        have reads := shallow_reads acyclic ha hk.le
        rw [h a ha hk, driven_congr fun x hx => hu x (reads x hx)]
      · exact hu id shallow
  exact agree v (fun _ _ => rfl) id shallow

/-- A pass settles the signals that are one step deeper. -/
theorem SettledTo.pass (distinct : m.targets.Nodup) (acyclic : m.Acyclic) {k : Nat} {v : Valuation}
    (h : m.SettledTo k v) : m.SettledTo (k + 1) (m.pass v) := by
  -- What `a` reads has settled before the pass, so `a` takes the same values in the midst of the
  -- pass as at its end, and no other assignment has its target.
  intro a ha hk
  have reads := shallow_reads acyclic ha (Nat.le_of_lt_succ hk)
  obtain ⟨before, after, place⟩ := List.append_of_mem ha
  have sub : before ⊆ m.assignments := by simp [place]
  have alone : ∀ a' ∈ after, a'.target ≠ a.target := by
    rw [targets, place, List.map_append, List.map_cons, List.nodup_append] at distinct
    intro a' ha' same
    exact (List.nodup_cons.mp distinct.2.1).1 (List.mem_map.mpr ⟨a', ha', same⟩)
  have earlier : ∀ x ∈ a.value.reads,
      Table.get? (before.foldl m.settleAssign v) x = Table.get? (m.pass v) x := by
    intro x hx
    have now := h.get?_foldl acyclic sub (reads x hx)
    exact now.trans (h.get?_foldl acyclic (List.Subset.refl _) (reads x hx)).symm
  calc Table.get? (m.pass v) a.target
      = Table.get? (m.settleAssign (before.foldl m.settleAssign v) a) a.target := by
        rw [Netlist.pass, place, List.foldl_append, List.foldl_cons, get?_foldl_of_notMem m alone]
    _ = some (m.driven (before.foldl m.settleAssign v) a) := by
        rw [get?_settleAssign, if_pos rfl]
    _ = some (m.driven (m.pass v) a) := by rw [driven_congr earlier]

theorem SettledTo.passes (distinct : m.targets.Nodup) (acyclic : m.Acyclic) (n : Nat) {k : Nat}
    {v : Valuation} (h : m.SettledTo k v) : m.SettledTo (k + n) (m.passes n v) := by
  induction n generalizing k v with
  | zero => exact h
  | succ n ih =>
    have rest := ih (h.pass distinct acyclic)
    rwa [Nat.add_assoc, Nat.add_comm 1] at rest

theorem get?_passes_of_notMem {id : SignalId} (undriven : id ∉ m.targets) (n : Nat)
    (v : Valuation) : Table.get? (m.passes n v) id = Table.get? v id := by
  have spared : ∀ a ∈ m.assignments, a.target ≠ id := by
    intro a ha same
    exact undriven (mem_targets.mpr ⟨a, ha, same⟩)
  induction n generalizing v with
  | zero => rfl
  | succ n ih => exact (ih (m.pass v)).trans (get?_foldl_of_notMem m spared v)

/-- As many passes as there are assignments solve the equations. -/
theorem solves_passes (distinct : m.targets.Nodup) (acyclic : m.Acyclic) {n : Nat}
    (enough : m.assignments.length ≤ n) (inputs : Valuation) :
    m.Solves inputs (m.passes n inputs) where
  kept _ undriven := get?_passes_of_notMem undriven n inputs
  holds a ha := by
    have start : m.SettledTo 0 inputs := fun _ _ impossible => absurd impossible (Nat.not_lt_zero _)
    have deep := depth_lt_length acyclic (mem_targets.mpr ⟨a, ha, rfl⟩)
    exact start.passes distinct acyclic n a ha (by omega)

/-- Carries an assignment out and notes whether that changes a value. -/
def watchedAssign (m : Netlist) (seen : Valuation × Bool) (a : Assign) : Valuation × Bool :=
  (m.settleAssign seen.1 a, seen.2 || Table.get? seen.1 a.target != some (m.driven seen.1 a))

/-- A pass that also tells whether it has changed a value. -/
def watchedPass (m : Netlist) (v : Valuation) : Valuation × Bool :=
  m.assignments.foldl m.watchedAssign (v, false)

/-- Passes up to the first one that changes nothing. -/
def passesUntilStill (m : Netlist) : Nat → Valuation → Valuation
  | 0, v => v
  | n + 1, v =>
    if (m.watchedPass v).2 then passesUntilStill m n (m.watchedPass v).1 else (m.watchedPass v).1

theorem settleAssign_of_holds {v : Valuation} {a : Assign}
    (h : Table.get? v a.target = some (m.driven v a)) : m.settleAssign v a = v :=
  Table.set_of_get? h

theorem foldl_watchedAssign (m : Netlist) (assigns : List Assign) (v : Valuation) (changed : Bool) :
    (assigns.foldl m.watchedAssign (v, changed)).1 = assigns.foldl m.settleAssign v ∧
      ((assigns.foldl m.watchedAssign (v, changed)).2 = false →
        changed = false ∧ assigns.foldl m.settleAssign v = v) := by
  induction assigns generalizing v changed with
  | nil => exact ⟨rfl, fun h => ⟨h, rfl⟩⟩
  | cons a rest ih =>
    obtain ⟨values, still⟩ := ih (m.settleAssign v a)
      (changed || Table.get? v a.target != some (m.driven v a))
    refine ⟨values, ?_⟩
    intro h
    obtain ⟨unchanged, same⟩ := still h
    simp only [Bool.or_eq_false_iff, bne_eq_false_iff_eq] at unchanged
    exact ⟨unchanged.1, same.trans (settleAssign_of_holds unchanged.2)⟩

theorem watchedPass_eq (m : Netlist) (v : Valuation) :
    (m.watchedPass v).1 = m.pass v ∧ ((m.watchedPass v).2 = false → m.pass v = v) := by
  obtain ⟨values, still⟩ := m.foldl_watchedAssign m.assignments v false
  exact ⟨values, fun unchanged => (still unchanged).2⟩

/-- More passes than that change nothing either. -/
theorem passesUntilStill_eq (n : Nat) (v : Valuation) : m.passesUntilStill n v = m.passes n v := by
  induction n generalizing v with
  | zero => rfl
  | succ n ih =>
    obtain ⟨values, still⟩ := m.watchedPass_eq v
    rw [passesUntilStill, values]
    split
    · exact ih (m.pass v)
    · rename_i unchanged
      have fixed := still (by simpa using unchanged)
      have always : ∀ n, m.passes n v = v := by
        intro n
        induction n with
        | zero => rfl
        | succ n ih => rw [passes, fixed, ih]
      rw [always, fixed]

/-- The order of the equations and what comes in for driven signals are of no account. -/
theorem Solves.reorder {assignments : List Assign} (perm : assignments.Perm m.assignments)
    {inputs inputs' values : Valuation}
    (same : ∀ id, id ∉ m.targets → Table.get? inputs' id = Table.get? inputs id)
    (h : { m with assignments }.Solves inputs' values) : m.Solves inputs values where
  kept id undriven := by
    have undriven' : id ∉ { m with assignments }.targets := by
      intro hid
      exact undriven ((perm.map Assign.target).mem_iff.mp hid)
    exact (h.kept id undriven').trans (same id undriven)
  holds a ha := h.holds a (perm.mem_iff.mpr ha)

theorem Acyclic.reorder {assignments : List Assign} (perm : assignments.Perm m.assignments)
    (acyclic : m.Acyclic) : { m with assignments }.Acyclic := by
  have feeds : ∀ y z, { m with assignments }.Feeds y z → m.Feeds y z := by
    rintro y z ⟨a, ha, driven, read⟩
    exact ⟨a, perm.mem_iff.mp ha, driven, read⟩
  intro x cycle
  exact acyclic x (Relation.TransGen.mono feeds x x cycle)

theorem evaluate?_solves (distinct : m.targets.Nodup) (acyclic : m.Acyclic)
    (there : ∀ a ∈ m.assignments, m.signals.contains a.target = true) (inputs : Valuation) :
    ∃ values, m.evaluate? inputs = some values ∧ m.Solves inputs values :=
  ⟨_, if_pos (List.all_eq_true.mpr there),
    solves_passes distinct acyclic (Nat.le_succ _) inputs⟩

/-- An evaluation of a network without loops gives the one solution of its equations. It is the
same for every order of the assignments and for all values that come in for driven signals, and
the passes may end with the first one that changes nothing. -/
theorem evaluation_is_the_solution (distinct : m.targets.Nodup) (acyclic : m.Acyclic)
    (there : ∀ a ∈ m.assignments, m.signals.contains a.target = true) (inputs : Valuation) :
    ∃ values, m.evaluate? inputs = some values ∧
      m.passesUntilStill (m.assignments.length + 1) inputs = values ∧
      (∀ id, id ∈ Table.keys values ↔ id ∈ Table.keys inputs ∨ id ∈ m.targets) ∧
      m.Solves inputs values ∧
      (∀ other, m.Solves inputs other → ∀ id, Table.get? other id = Table.get? values id) ∧
      ∀ assignments : List Assign, assignments.Perm m.assignments → ∀ inputs' : Valuation,
        (∀ id, id ∉ m.targets → Table.get? inputs' id = Table.get? inputs id) →
        ∃ values', { m with assignments }.evaluate? inputs' = some values' ∧
          ∀ id, Table.get? values' id = Table.get? values id := by
  obtain ⟨values, found, solved⟩ := evaluate?_solves distinct acyclic there inputs
  refine ⟨values, found, ?_, solved.mem_keys, solved, ?_, ?_⟩
  · rw [evaluate?, if_pos (List.all_eq_true.mpr there)] at found
    exact (passesUntilStill_eq _ inputs).trans (Option.some.inj found)
  · intro other solved'
    exact solved'.unique acyclic solved
  · intro assignments perm inputs' same
    have distinct' : { m with assignments }.targets.Nodup :=
      (perm.map Assign.target).nodup_iff.mpr distinct
    obtain ⟨values', found', solved'⟩ := evaluate?_solves distinct' (acyclic.reorder perm)
      (fun a ha => there a (perm.mem_iff.mp ha)) inputs'
    exact ⟨values', found', (solved'.reorder perm same).unique acyclic solved⟩

/-- Two complements in a row, the second one written first, and a value that is out of date. -/
def complements : Netlist where
  name := "top"
  signals := ⟨#[⟨"a", .unsignedBits 4⟩, ⟨"b", .unsignedBits 4⟩, ⟨"c", .unsignedBits 4⟩]⟩
  assignments := [⟨⟨2⟩, .not (.signal ⟨1⟩)⟩, ⟨⟨1⟩, .not (.signal ⟨0⟩)⟩]

theorem complements_evaluate : ∃ values,
    complements.evaluate? [(⟨0⟩, 3), (⟨1⟩, 9)] = some values ∧ Table.get? values ⟨2⟩ = some 3 := by
  have acyclic : complements.Acyclic := acyclic_of_rank Key.index (by decide)
  obtain ⟨values, found, -⟩ := evaluation_is_the_solution (m := complements) (by decide) acyclic
    (by decide) [(⟨0⟩, 3), (⟨1⟩, 9)]
  have computed : complements.evaluate? [(⟨0⟩, 3), (⟨1⟩, 9)] =
      some [(⟨0⟩, 3), (⟨1⟩, 12), (⟨2⟩, 3)] := by decide
  obtain rfl := Option.some.inj (found.symm.trans computed)
  exact ⟨_, found, rfl⟩

end NetBridge.Host.Netlist
