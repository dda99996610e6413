import NetBridge.Proofs.Guest.Registers
import NetBridge.Proofs.Guest.Temporary
import NetBridge.Proofs.Verilog.Selection

/-! # Selections in generated modules

The selections in a module are those of the slices in the statements, one for each slice.
The base is the name of the operand or a temporary with the shape of the operand, and
either is a scalar exactly if the operand has a single bit. -/
namespace NetBridge.Guest

open Verilog (Module Selection selectionsOf)

namespace Expr

theorem partsWellFormed_iff {shapeOf : SignalId → Shape} {parts : List Expr} :
    PartsWellFormed shapeOf parts ↔ ∀ e ∈ parts, e.WellFormed shapeOf := by
  induction parts with
  | nil => simp [PartsWellFormed]
  | cons e rest ih => rw [PartsWellFormed, ih, List.forall_mem_cons]

/-- Slices at any depth lie within their operands. -/
theorem WellFormed.within {shapeOf : SignalId → Shape} {e : Expr} (h : e.WellFormed shapeOf)
    {s : Slice} (hs : s ∈ e.slices) :
    s.start < s.stop ∧ s.stop ≤ (s.value.shape shapeOf).width := by
  have step : ∀ e, WellFormed shapeOf e → ∀ o ∈ e.operands, WellFormed shapeOf o := by
    intro e h o ho
    cases e with
    | signal _ => cases ho
    | const _ _ => cases ho
    | concat parts => exact partsWellFormed_iff.mp h o ho
    | _ =>
      simp only [operands, List.mem_cons, List.not_mem_nil, or_false] at ho
      simp only [WellFormed] at h
      grind
  exact (inherited step e h _ (mem_slices.mp hs)).2

end Expr

/-- The nets that are declared so far and the selections in what is written. -/
structure Trace where
  nets : List (String × Shape) := []
  selections : List Selection := []

namespace Trace

def declare (t : Trace) (name : String) (shape : Shape) : Trace :=
  { t with nets := t.nets ++ [(name, shape)] }

def write (t : Trace) (selections : List Selection) : Trace :=
  { t with selections := t.selections ++ selections }

theorem write_nil (t : Trace) : t.write [] = t := by simp [write]

end Trace

def Scratch.trace (s : Scratch) : Trace where
  nets := s.temporaries.map fun t => (t.name, t.shape)
  selections := s.temporaries.flatMap (·.value.selections)

theorem Scratch.trace_add (s : Scratch) (shape : Shape) (value : Verilog.Expr) :
    (s.add shape value).trace = (s.trace.write value.selections).declare
      (Verilog.freshName s.taken temporaryName) shape := by
  simp [trace, add, Trace.write, Trace.declare]

section

variable (shapeOf : SignalId → Shape) (nameOf : SignalId → String)

/-- What is written for a slice, given the nets. -/
inductive Selects (nets : List (String × Shape)) : Slice → Selection → Prop
  | signal (id : SignalId) (start stop : Nat) :
    Selects nets ⟨.signal id, start, stop⟩ ⟨nameOf id, stop - 1, start⟩
  | net {value : Expr} {base : String} (start stop : Nat) : (∀ id, value ≠ .signal id) →
    (base, value.shape shapeOf) ∈ nets → Selects nets ⟨value, start, stop⟩ ⟨base, stop - 1, start⟩

/-- One selection is written for each of the slices. -/
structure Emits (t : Trace) (slices : List Slice) (t' : Trace) : Prop where
  nets : t.nets ⊆ t'.nets
  selections : ∃ xs, List.Forall₂ (Selects shapeOf nameOf t'.nets) slices xs ∧
    t'.selections.Perm (t.selections ++ xs)

end

variable {shapeOf : SignalId → Shape} {nameOf : SignalId → String}

theorem Selects.mono {nets nets' : List (String × Shape)} {s : Slice} {x : Selection}
    (h : Selects shapeOf nameOf nets s x) (sub : nets ⊆ nets') :
    Selects shapeOf nameOf nets' s x := by
  cases h with
  | signal id start stop => exact .signal id start stop
  | net start stop hv hmem => exact .net start stop hv (sub hmem)

theorem forall_iff_of_forall₂ {α β : Type} {R : α → β → Prop} {P : α → Prop} {Q : β → Prop}
    {l : List α} {xs : List β} (related : List.Forall₂ R l xs) (same : ∀ a x, R a x → (Q x ↔ P a)) :
    (∀ x ∈ xs, Q x) ↔ ∀ a ∈ l, P a := by
  induction related with
  | nil => simp
  | cons head _ ih => rw [List.forall_mem_cons, List.forall_mem_cons, ih, same _ _ head]

namespace Emits

variable {t t' t'' : Trace} {l r : List Slice} {xs ys : List Selection}

theorem refl : Emits shapeOf nameOf t [] t := ⟨List.Subset.refl _, [], .nil, by simp⟩

theorem one {s : Slice} {x : Selection} (h : Selects shapeOf nameOf t.nets s x) :
    Emits shapeOf nameOf t [s] (t.write [x]) :=
  ⟨List.Subset.refl _, [x], .cons h .nil, .refl _⟩

theorem trans (h : Emits shapeOf nameOf t l t') (h' : Emits shapeOf nameOf t' r t'') :
    Emits shapeOf nameOf t (l ++ r) t'' := by
  obtain ⟨nets, xs, selects, perm⟩ := h
  obtain ⟨nets', ys, selects', perm'⟩ := h'
  refine ⟨List.Subset.trans nets nets', xs ++ ys, ?_, ?_⟩
  · exact List.rel_append (selects.imp fun _ _ h => h.mono nets') selects'
  · rw [← List.append_assoc]
    exact perm'.trans (perm.append_right ys)

/-- What is written already stays. -/
theorem after (u : Trace) (h : Emits shapeOf nameOf t l t') :
    Emits shapeOf nameOf ⟨u.nets ++ t.nets, u.selections ++ t.selections⟩ l
      ⟨u.nets ++ t'.nets, u.selections ++ t'.selections⟩ := by
  obtain ⟨nets, xs, selects, perm⟩ := h
  refine ⟨List.append_subset.mpr ⟨?_, ?_⟩, xs, ?_, ?_⟩
  · exact List.subset_append_left _ _
  · exact List.Subset.trans nets (List.subset_append_right _ _)
  · exact selects.imp fun _ _ h => h.mono (List.subset_append_right _ _)
  · rw [List.append_assoc]
    exact perm.append_left _

theorem declare (h : Emits shapeOf nameOf t l t') (name : String) (shape : Shape) :
    Emits shapeOf nameOf t l (t'.declare name shape) := by
  obtain ⟨nets, xs, selects, perm⟩ := h
  have sub : t'.nets ⊆ (t'.declare name shape).nets := List.subset_append_left _ _
  exact ⟨List.Subset.trans nets sub, xs, selects.imp fun _ _ h => h.mono sub, perm⟩

/-- What is written for one thing and then for another one is written for both. -/
theorem both (h : Emits shapeOf nameOf t l (t'.write xs))
    (h' : Emits shapeOf nameOf t' r (t''.write ys)) :
    Emits shapeOf nameOf t (l ++ r) (t''.write (xs ++ ys)) := by
  obtain ⟨nets', zs, selects, perm⟩ := h'
  refine h.trans ⟨nets', zs, selects, ?_⟩
  simp only [Trace.write, List.perm_iff_count, List.count_append] at perm ⊢
  intro a
  have := perm a
  omega

theorem perm (h : Emits shapeOf nameOf t l t') (slices : r.Perm l) :
    Emits shapeOf nameOf t r t' := by
  obtain ⟨nets, xs, selects, perm⟩ := h
  obtain ⟨ys, selects', perm'⟩ := List.perm_comp_forall₂ slices selects
  exact ⟨nets, ys, selects', perm.trans (perm'.symm.append_left _)⟩

end Emits

theorem select_selections (base : String) (start stop : Nat) :
    (select base start stop).selections = [⟨base, stop - 1, start⟩] := by
  unfold select
  split
  · have single : stop - 1 = start := by omega
    rw [single]
    rfl
  · rfl

namespace Expr

variable (shapeOf : SignalId → Shape) (nameOf : SignalId → String)

/-- What is written for an expression that is lowered. -/
def loweredTrace (e : Expr) (s : Scratch) : Trace :=
  (lowered shapeOf nameOf e s).2.trace.write (lowered shapeOf nameOf e s).1.selections

def loweredPartsTrace (parts : List Expr) (s : Scratch) : Trace :=
  (loweredParts shapeOf nameOf parts s).2.trace.write
    (Verilog.Expr.selectionsOfParts (loweredParts shapeOf nameOf parts s).1)

mutual

theorem lowered_emits (e : Expr) (s : Scratch) :
    Emits shapeOf nameOf s.trace e.slices (loweredTrace shapeOf nameOf e s) := by
  cases e with
  | signal id =>
    rw [loweredTrace, lowered_signal, Verilog.Expr.selections, Trace.write_nil]
    exact .refl
  | const value shape =>
    rw [loweredTrace, lowered_const, Verilog.Expr.selections, Trace.write_nil]
    exact .refl
  | unary op operand =>
    rw [slices_unary]
    exact lowered_emits operand s
  | binary op left right =>
    have hl := lowered_emits left s
    have hr := lowered_emits right (lowered shapeOf nameOf left s).2
    rw [slices_binary]
    exact hl.both hr
  | slice value start stop =>
    rw [loweredTrace, lowered_slice, select_selections, slices_slice]
    by_cases hv : ∃ id, value = .signal id
    · obtain ⟨id, rfl⟩ := hv
      exact .one (.signal id start stop)
    · have other : ∀ id, value ≠ .signal id := fun id h => hv ⟨id, h⟩
      rw [based_of_ne_signal shapeOf nameOf other, temporary_run, Scratch.trace_add]
      have inner := (lowered_emits value s).declare
        (Verilog.freshName (lowered shapeOf nameOf value s).2.taken temporaryName)
        (value.shape shapeOf)
      exact inner.trans (.one (.net start stop other
        (List.mem_append_right _ (List.mem_singleton.mpr rfl))))
  | concat parts =>
    rw [slices_concat]
    exact loweredParts_emits parts s
  | mux condition whenSet whenClear =>
    have hc := lowered_emits condition s
    have hs := lowered_emits whenSet (lowered shapeOf nameOf condition s).2
    have ho := lowered_emits whenClear
      (lowered shapeOf nameOf whenSet (lowered shapeOf nameOf condition s).2).2
    rw [slices_mux]
    exact hc.both (hs.both ho)

/-- The parts are lowered from the last to the first. -/
theorem loweredParts_emits (parts : List Expr) (s : Scratch) :
    Emits shapeOf nameOf s.trace (slicesOfParts parts)
      (loweredPartsTrace shapeOf nameOf parts s) := by
  cases parts with
  | nil =>
    have idle : loweredPartsTrace shapeOf nameOf [] s = s.trace := Trace.write_nil _
    rw [idle]
    exact .refl
  | cons e rest =>
    have hr := loweredParts_emits rest s
    have he := lowered_emits e (loweredParts shapeOf nameOf rest s).2
    rw [slicesOfParts_cons, loweredPartsTrace, loweredParts_cons,
      Verilog.Expr.selectionsOfParts_append, Verilog.Expr.selectionsOfParts,
      Verilog.Expr.selectionsOfParts, List.append_nil]
    exact (hr.both he).perm List.perm_append_comm

end

end Expr

namespace Netlist

theorem mem_of_mem_written {m : Netlist} {s : Statement} (h : s ∈ m.written) :
    s ∈ m.statements := by
  rcases List.mem_append.mp h with hcomb | hdomain
  · exact List.mem_of_mem_filter hcomb
  · obtain ⟨d, -, hs⟩ := List.mem_flatMap.mp hdomain
    exact List.mem_of_mem_filter hs

/-- Every statement of a known domain is written once. -/
theorem written_perm {m : Netlist} (built : Built m)
    (known : ∀ s ∈ m.statements, ∀ d, s.domain = some d → (m.domain? d).isSome) :
    m.written.Perm m.statements := by
  let domains : List (Option String) := none :: m.domains.keys.map some
  have distinct : domains.Nodup :=
    List.nodup_cons.mpr ⟨by simp, built.domains_nodup.map fun _ _ => Option.some.inj⟩
  have covered : ∀ s ∈ m.statements, domains.contains s.domain = true := by
    intro s hs
    cases hd : s.domain with
    | none => rfl
    | some d =>
      have key : d ∈ m.domains.keys := (Table.get?_isSome_iff _ _).mp (known s hs d hd)
      simpa [domains] using key
  have groups : m.written = domains.flatMap fun d => m.statements.filter (·.domain == d) := by
    simp only [domains, ← built.domain_names, List.flatMap_cons, List.flatMap_map]
    simp [written]
  rw [groups]
  exact (flatMap_filter_perm Statement.domain m.statements distinct).trans
    (.of_eq (List.filter_eq_self.mpr covered))

namespace Body

def trace (b : Body) : Trace where
  nets := b.wires.map fun w => (w.name, w.shape)
  selections := selectionsOf b.assigns

variable (m : Netlist) (nameOf : SignalId → String)

theorem lower_emits (b : Body) (e : Expr) : Emits m.shapeOf nameOf b.trace e.slices
    ((b.lower m nameOf e).2.trace.write (b.lower m nameOf e).1.selections) := by
  have h := (e.lowered_emits m.shapeOf nameOf ⟨b.taken, []⟩).after b.trace
  rw [lower_eq]
  simpa [trace, merge, Scratch.trace, Expr.loweredTrace, Trace.write, selectionsOf,
    Verilog.Net.name, Verilog.Net.shape, List.flatMap_map, Function.comp_def] using h

theorem addComb_emits (b : Body) (s : Statement) :
    Emits m.shapeOf nameOf b.trace s.value.slices (b.addComb m nameOf s).trace := by
  have h := lower_emits m nameOf b s.value
  rw [addComb_eq]
  simpa [trace, addAssign, Trace.write, selectionsOf] using h

theorem addCombs_emits (b : Body) (statements : List Statement) :
    Emits m.shapeOf nameOf b.trace (slicesOf statements)
      (statements.foldl (fun b s => b.addComb m nameOf s) b).trace := by
  induction statements generalizing b with
  | nil => exact .refl
  | cons s rest ih => exact (addComb_emits m nameOf b s).trans (ih (b.addComb m nameOf s))

theorem addUpdates_emits (b : Body) (statements : List Statement) :
    Emits m.shapeOf nameOf b.trace (slicesOf statements)
      ((b.addUpdates m nameOf statements).2.trace.write
        (selectionsOf (b.addUpdates m nameOf statements).1)) := by
  induction statements generalizing b with
  | nil =>
    rw [addUpdates, selectionsOf, List.flatMap_nil, Trace.write_nil]
    exact .refl
  | cons s rest ih => exact (lower_emits m nameOf b s.value).both (ih (b.lower m nameOf s.value).2)

theorem addProcesses_emits (b : Body) (domains : List ClockDomain) :
    Emits m.shapeOf nameOf b.trace
      (slicesOf (domains.flatMap fun d => m.statements.filter (·.domain == some d.name)))
      ((b.addProcesses m nameOf domains).2.trace.write
        ((b.addProcesses m nameOf domains).1.flatMap fun p => selectionsOf p.updates)) := by
  induction domains generalizing b with
  | nil =>
    rw [addProcesses, List.flatMap_nil, List.flatMap_nil, Trace.write_nil]
    exact .refl
  | cons d rest ih =>
    rw [List.flatMap_cons, slicesOf, List.flatMap_append]
    cases hs : m.statements.filter (·.domain == some d.name) with
    | nil =>
      simp only [addProcesses, hs, List.flatMap_nil, List.nil_append]
      exact ih b
    | cons s more =>
      simp only [addProcesses, hs]
      exact (addUpdates_emits m nameOf b (s :: more)).both
        (ih (b.addUpdates m nameOf (s :: more)).2)

end Body

/-- What a slice is written as in a generated module: a selection of its bits from a net
with the shape of the operand, which is that of the operand if it is a signal. -/
structure SelectionOf (m : Netlist) (g : Generated) (s : Slice) (x : Selection) : Prop where
  low : x.low = s.start
  high : x.high + 1 = s.stop
  signal : ∀ id, Table.get? g.names id = some x.base ↔ s.value = .signal id
  declared : x.base ∈ g.verilog.declared
  shape : ∀ p ∈ g.verilog.shapes, p.1 = x.base → p.2 = s.value.shape m.shapeOf
  ordered : x.low ≤ x.high
  within : x.high < (s.value.shape m.shapeOf).width

theorem SelectionOf.legal_iff {m : Netlist} {g : Generated} {s : Slice} {x : Selection}
    (h : SelectionOf m g s x) : x.Legal g.verilog ↔ 1 < (s.value.shape m.shapeOf).width := by
  constructor
  · intro legal
    have hbase := h.declared
    rw [← Stages.Layout.keys_shapes] at hbase
    obtain ⟨p, hp, same⟩ := List.mem_map.mp hbase
    obtain ⟨top, htop, -⟩ := legal.within p hp same
    rw [← h.shape p hp same]
    by_contra scalar
    simp [Verilog.vectorTop, scalar] at htop
  · intro vector
    refine ⟨h.declared, h.ordered, fun p hp hname => ?_⟩
    rw [h.shape p hp hname]
    exact ⟨_, if_pos vector, Nat.le_sub_one_of_lt h.within⟩

namespace Stages

variable {m : Netlist} {targets : List Target} (s : m.Stages targets)

theorem selections_selects (name : String) :
    ∃ xs, List.Forall₂ (Selects m.shapeOf s.nameOf s.final.trace.nets) (slicesOf m.written) xs ∧
      xs.Perm (s.generated name).verilog.selections := by
  have combs := Body.addCombs_emits m s.nameOf s.start s.combs
  have processes := Body.addProcesses_emits m s.nameOf s.middle m.domains.values
  have whole := combs.trans processes
  rw [slicesOf, slicesOf, ← List.flatMap_append] at whole
  obtain ⟨-, xs, selects, perm⟩ := whole
  have idle : s.start.trace.selections = [] := by
    simp [Body.trace, start, tie, selectionsOf, Verilog.Expr.selections]
  refine ⟨xs, selects, ?_⟩
  rw [idle, List.nil_append] at perm
  rw [s.verilog_eq]
  exact perm.symm

theorem selectionOf (name : String) {sl : Slice} (h : sl ∈ slicesOf m.written) {x : Selection}
    (selects : Selects m.shapeOf s.nameOf s.final.trace.nets sl x) :
    SelectionOf m (s.generated name) sl x := by
  have l := s.layout_final name
  obtain ⟨st, hwritten, hslice⟩ := List.mem_flatMap.mp h
  have hst := mem_of_mem_written hwritten
  obtain ⟨hstart, hstop⟩ := (s.fits hst).1.within hslice
  cases selects with
  | signal id start stop =>
    have named : id ∈ s.order :=
      s.read_named hst (Expr.reads_subterm (Expr.mem_slices.mp hslice) id (by simp [Expr.reads]))
    dsimp only at hstart hstop
    refine ⟨rfl, ?_, fun other => ?_, ?_, ?_, ?_, ?_⟩ <;> dsimp only
    · omega
    · rw [Expr.signal.injEq]
      constructor
      · intro hget
        obtain ⟨hother, same⟩ := s.get?_names_iff.mp hget
        exact s.nameOf_injective named hother same.symm
      · rintro rfl
        exact s.get?_names_eq named
    · exact l.mem_declared.mpr (Or.inl (s.nameOf_mem_taken named))
    · rintro ⟨_, shape⟩ hp rfl
      exact l.shape_signal named hp
    · omega
    · omega
  | @net value base start stop other hnet =>
    obtain ⟨w, hw, heq⟩ := List.mem_map.mp hnet
    obtain ⟨rfl, hshape⟩ := Prod.mk.inj heq
    have temp : w.name ∈ s.final.temps := List.mem_map_of_mem hw
    dsimp only at hstart hstop
    refine ⟨rfl, ?_, fun id => ?_, ?_, ?_, ?_, ?_⟩ <;> dsimp only
    · omega
    · exact iff_of_false (s.not_mem_taken.mp (l.temps_disjoint temp) id) (other id)
    · exact l.mem_declared.mpr (Or.inr temp)
    · rintro ⟨_, shape⟩ hp rfl
      exact (l.shape_wire hw hp).trans hshape
    · omega
    · omega

end Stages

/-- The selections in a generated module are those of the slices in the statements that are
written, one for each slice at any depth. The base is declared, always with the shape of the
operand, and the bits lie within that shape. A selection is legal if, and only if, the operand
has more than one bit: the only fault is to select the single bit of a scalar. All statements
are written, and the text has the same declarations and selections. -/
theorem generated_selections_legal_iff {m : Netlist} {name : String} {targets : List Target}
    {g : Generated} (generated : m.generate name targets = .ok g) :
    (∃ xs, xs.Perm g.verilog.selections ∧ List.Forall₂ (fun s x => SelectionOf m g s x ∧
      (x.Legal g.verilog ↔ 1 < (s.value.shape m.shapeOf).width)) (slicesOf m.written) xs) ∧
    ((∀ x ∈ g.verilog.selections, x.Legal g.verilog) ↔
      ∀ st ∈ m.written, ∀ s ∈ st.value.slices, 1 < (s.value.shape m.shapeOf).width) ∧
    (Built m → m.written.Perm m.statements ∧
      (Verilog.isIdentifier name = true → ∃ M, Verilog.read g.text = some M ∧
        M.shapes = g.verilog.shapes ∧ M.selections = g.verilog.selections)) := by
  obtain ⟨s, rfl⟩ := generate_eq_ok.mp generated
  obtain ⟨xs, selects, perm⟩ := s.selections_selects name
  have each : List.Forall₂ (SelectionOf m (s.generated name)) (slicesOf m.written) xs :=
    ((List.forall₂_and_left _ _).mpr ⟨fun _ h => h, selects⟩).imp
      fun _ _ h => s.selectionOf name h.1 h.2
  refine ⟨⟨xs, perm, each.imp fun _ _ h => ⟨h, h.legal_iff⟩⟩, ?_, fun built => ⟨?_, fun legal => ?_⟩⟩
  · have all := forall_iff_of_forall₂ each fun _ _ h => h.legal_iff
    rw [← List.forall_mem_flatMap, ← slicesOf, ← all]
    exact forall_congr' fun x => imp_congr_left perm.mem_iff.symm
  · exact written_perm built s.drivenBy.known
  · have l := s.layout_final name
    exact ⟨_, Verilog.read_text (l.legal_names built legal), Module.shapes_normal l.shapes_positive,
      Module.selections_normal _⟩

/-- The lowest bit of a signal that has no other. -/
def scalarSlice : Netlist :=
  let m := (({} : Netlist).addSignal "a" .bit).2
  let m := (m.addSignal "o" .bit).2
  m.drive none ⟨1⟩ (.slice (.signal ⟨0⟩) 0 1)

theorem scalarSlice_built : Built scalarSlice :=
  .statement _ _ _ (.signal _ _ _ (.signal _ _ _ .empty))

def scalarSliceText : String :=
  "/* Generated by weld */\n\nmodule top(a, o);\n  input a;\n  output o;\n" ++
    "  assign o = a[0];\nendmodule\n"

theorem scalarSlice_selects_from_scalar : Built scalarSlice ∧
    ∃ g, scalarSlice.generate "top" [.signal ⟨0⟩, .signal ⟨1⟩] = .ok g ∧
      g.text = scalarSliceText ∧ g.verilog.selections = [⟨"a", 0, 0⟩] ∧
      ¬ (⟨"a", 0, 0⟩ : Selection).Legal g.verilog := by
  obtain ⟨g, hg, text, selections⟩ : ∃ g,
      scalarSlice.generate "top" [.signal ⟨0⟩, .signal ⟨1⟩] = .ok g ∧
      g.text = scalarSliceText ∧ g.verilog.selections = [⟨"a", 0, 0⟩] :=
    ⟨_, rfl, by decide +kernel, by decide +kernel⟩
  obtain ⟨-, legal, built⟩ := generated_selections_legal_iff hg
  refine ⟨scalarSlice_built, g, hg, text, selections, fun h => ?_⟩
  have all : ∀ x ∈ g.verilog.selections, x.Legal g.verilog := by simpa [selections] using h
  have written : ⟨⟨1⟩, .slice (.signal ⟨0⟩) 0 1, none⟩ ∈ scalarSlice.written :=
    (built scalarSlice_built).1.mem_iff.mpr (List.mem_singleton.mpr rfl)
  have wide := legal.mp all _ written ⟨.signal ⟨0⟩, 0, 1⟩ (List.mem_singleton.mpr rfl)
  exact absurd wide (by decide)

end Netlist

end NetBridge.Guest
