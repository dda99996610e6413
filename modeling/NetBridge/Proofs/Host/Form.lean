import NetBridge.Host.Form
import NetBridge.Proofs.Json.Form

/-! # Host netlists read back -/
namespace NetBridge

open Form

theorem PortDirection.form_readsBack : PortDirection.form.ReadsBack fun _ => True :=
  choice_readsBack fun d => by cases d <;> decide

namespace Host

def Signal.Storable (s : Signal) : Prop := s.shape.Storable

theorem Signal.form_readsBack : Signal.form.ReadsBack Signal.Storable where
  plain ok := .object (by simp [shape_readsBack.plain ok])
  read {s _} ok room := by
    obtain ⟨depth, rfl, inner⟩ := Json.nesting_object_le.mp room
    have shape := shape_readsBack.need ok (inner ("shape", _) (by simp))
    exact record?_bind rfl (by decide) (by simp [shape])

namespace Expr

/-- Keys, widths and counts are numbers of 32 bits. -/
def Storable : Expr → Prop
  | signal id => id.Storable
  | const _ width => width < 2 ^ 32
  | not operand => Storable operand
  | replicate bit count => bit.Storable ∧ count < 2 ^ 32

theorem plain_toJson {e : Expr} (ok : e.Storable) : e.toJson.Plain := by
  induction e with
  | signal id => exact .object (by simpa using key_readsBack.plain ok)
  | const v width => exact .variant (by simp [plain_nat (n := width) ok])
  | not operand ih => exact .object (by simpa using ih ok)
  | replicate bit count => exact .variant (by simp [key_readsBack.plain ok.1, plain_nat ok.2])

theorem ofJson_toJson {e : Expr} (ok : e.Storable) {n : Nat} (room : e.toJson.nesting ≤ n) :
    ofJson n e.toJson = some e := by
  induction e generalizing n with
  | signal id =>
    obtain ⟨depth, rfl, -⟩ := Json.nesting_object_le.mp room
    have id := key_readsBack.read (a := id) ok (Nat.zero_le depth)
    exact variant?_bind (carried_bind id signal)
  | const v width =>
    obtain ⟨depth, rfl, -⟩ := Json.nesting_variant_le.mp room
    refine variant?_bind ?_
    exact record?_bind rfl (by decide) (by simp [need_nat (n := width) ok])
  | not operand ih =>
    obtain ⟨depth, rfl, inner⟩ := Json.nesting_object_le.mp room
    have operand := ih ok (inner _ List.mem_cons_self)
    exact variant?_bind (carried_bind operand not)
  | replicate bit count =>
    obtain ⟨depth, rfl, -⟩ := Json.nesting_variant_le.mp room
    refine variant?_bind ?_
    exact record?_bind rfl (by decide) (by simp [need_key ok.1, need_nat ok.2])

theorem form_readsBack : form.ReadsBack Storable where
  plain := plain_toJson
  read ok room := ofJson_toJson ok room

end Expr

structure Assign.Storable (a : Assign) : Prop where
  target : a.target.Storable
  value : a.value.Storable

theorem Assign.form_readsBack : Assign.form.ReadsBack Assign.Storable where
  plain ok := .object (by simp [key_readsBack.plain ok.target, Expr.plain_toJson ok.value])
  read {a _} ok room := by
    obtain ⟨depth, rfl, inner⟩ := Json.nesting_object_le.mp room
    have value : need Expr.form depth (some a.value.toJson) = some a.value :=
      Expr.form_readsBack.need ok.value (inner ("value", a.value.toJson) (by simp))
    exact record?_bind rfl (by decide) (by simp [need_key ok.target, value])

namespace Instance

/-- The labels are sorted, so that no two are alike. -/
structure Storable (inst : Instance) : Prop where
  sorted : inst.ports.keys.Pairwise (· < ·)
  ids : ∀ p ∈ inst.ports, p.2.Storable

theorem Storable.nodup {inst : Instance} (ok : inst.Storable) : inst.ports.keys.Nodup := by
  refine List.nodup_iff_pairwise_ne.mpr (ok.sorted.imp ?_)
  rintro a _ before rfl
  exact String.lt_irrefl a before

theorem insert_last {ports : Table String SignalId} {label : String}
    (last : ∀ p ∈ ports, p.1 < label) (id : SignalId) :
    insert ports label id = ports ++ [(label, id)] := by
  induction ports with
  | nil => rfl
  | cons p rest ih =>
    have before : p.1 < label := last p List.mem_cons_self
    have other : label ≠ p.1 := fun same => String.lt_irrefl _ (same ▸ before)
    have not_after : ¬label < p.1 := String.lt_asymm before
    rw [insert, if_neg other, if_neg not_after, ih fun q hq => last q (List.mem_cons_of_mem _ hq),
      List.cons_append]

/-- Ports that are bound in the order of their labels stay in that order. -/
theorem ofPairs_sorted (moduleName : String) {ports : Table String SignalId}
    (sorted : ports.keys.Pairwise (· < ·)) : ofPairs moduleName ports = ⟨moduleName, ports⟩ := by
  have from_bound (bound : Table String SignalId) (h : (bound ++ ports).keys.Pairwise (· < ·)) :
      ports.foldl (fun inst p => inst.bind p.1 p.2) (⟨moduleName, bound⟩ : Instance) =
        ⟨moduleName, bound ++ ports⟩ := by
    induction ports generalizing bound with
    | nil => simp
    | cons p rest ih =>
      have last : ∀ q ∈ bound, q.1 < p.1 := fun q hq => by
        rw [Table.keys_append, List.pairwise_append] at h
        exact h.2.2 _ (List.mem_map_of_mem hq) _ List.mem_cons_self
      have bind : Instance.bind ⟨moduleName, bound⟩ p.1 p.2 = ⟨moduleName, bound ++ [p]⟩ := by
        rw [Instance.bind, insert_last last]
      rw [List.foldl_cons, bind, ih sorted.of_cons _ (by simpa using h), List.append_assoc,
        List.singleton_append]
  exact from_bound [] sorted

theorem form_readsBack : form.ReadsBack Storable where
  plain ok := .object (by simp [key_readsBack.table.plain ⟨ok.nodup, ok.ids⟩])
  read {inst _} ok room := by
    obtain ⟨depth, rfl, inner⟩ := Json.nesting_object_le.mp room
    have ports := key_readsBack.table.need ⟨ok.nodup, ok.ids⟩ (inner ("ports", _) (by simp))
    exact record?_bind rfl (by decide) (by simp [ports, ofPairs_sorted _ ok.sorted])

end Instance

namespace Primitive

def Storable : Primitive → Prop
  | tristate target o oe i => target.Storable ∧ o.Storable ∧ oe.Storable ∧ i.Storable
  | sdrInput i o clk | sdrOutput i o clk => i.Storable ∧ o.Storable ∧ clk.Storable
  | ddrInput i o1 o2 clk => i.Storable ∧ o1.Storable ∧ o2.Storable ∧ clk.Storable
  | ddrOutput i1 i2 o clk => i1.Storable ∧ i2.Storable ∧ o.Storable ∧ clk.Storable
  | blackBox inst => inst.Storable

theorem plain_write {p : Primitive} (ok : p.Storable) : (form.write p).Plain := by
  cases p with
  | tristate target o oe i =>
    obtain ⟨htarget, ho, hoe, hi⟩ := ok
    exact .variant (by
      simp [key_readsBack.plain htarget, key_readsBack.plain ho, Expr.plain_toJson hoe,
        key_readsBack.plain hi])
  | sdrInput i o clk | sdrOutput i o clk =>
    obtain ⟨hi, ho, hclk⟩ := ok
    exact .variant (by
      simp [key_readsBack.plain hi, key_readsBack.plain ho, key_readsBack.plain hclk])
  | ddrInput a b c clk | ddrOutput a b c clk =>
    obtain ⟨ha, hb, hc, hclk⟩ := ok
    exact .variant (by
      simp [key_readsBack.plain ha, key_readsBack.plain hb, key_readsBack.plain hc,
        key_readsBack.plain hclk])
  | blackBox inst => exact .object (by simpa using Instance.form_readsBack.plain ok)

theorem read_write {p : Primitive} (ok : p.Storable) {n : Nat}
    (room : (form.write p).nesting ≤ n) : form.read n (form.write p) = some p := by
  cases p with
  | tristate target o oe i =>
    obtain ⟨htarget, ho, hoe, hi⟩ := ok
    obtain ⟨depth, rfl, inner⟩ := Json.nesting_variant_le.mp room
    have oe : need Expr.form depth (some oe.toJson) = some oe :=
      Expr.form_readsBack.need hoe (inner ("oe", oe.toJson) (by simp))
    refine variant?_bind ?_
    exact record?_bind rfl (by decide) (by simp [need_key htarget, need_key ho, oe, need_key hi])
  | sdrInput i o clk | sdrOutput i o clk =>
    obtain ⟨hi, ho, hclk⟩ := ok
    obtain ⟨depth, rfl, -⟩ := Json.nesting_variant_le.mp room
    refine variant?_bind ?_
    exact record?_bind rfl (by decide) (by simp [need_key hi, need_key ho, need_key hclk])
  | ddrInput a b c clk | ddrOutput a b c clk =>
    obtain ⟨ha, hb, hc, hclk⟩ := ok
    obtain ⟨depth, rfl, -⟩ := Json.nesting_variant_le.mp room
    refine variant?_bind ?_
    exact record?_bind rfl (by decide)
      (by simp [need_key ha, need_key hb, need_key hc, need_key hclk])
  | blackBox inst =>
    obtain ⟨depth, rfl, inner⟩ := Json.nesting_object_le.mp room
    have inst := Instance.form_readsBack.read ok (inner _ List.mem_cons_self)
    exact variant?_bind (carried_bind inst blackBox)

theorem form_readsBack : form.ReadsBack Storable where
  plain := plain_write
  read ok room := read_write ok room

end Primitive

structure Domain.Storable (d : Domain) : Prop where
  clk : d.clk.Storable
  rst : d.rst.Storable

theorem Domain.form_readsBack : Domain.form.ReadsBack Domain.Storable where
  plain ok := .object (by simp [key_readsBack.plain ok.clk, key_readsBack.plain ok.rst])
  read {d _} ok room := by
    obtain ⟨depth, rfl, -⟩ := Json.nesting_object_le.mp room
    exact record?_bind rfl (by decide) (by simp [need_key ok.clk, need_key ok.rst])

structure Netlist.Storable (m : Netlist) : Prop where
  signals : ∀ s ∈ m.signals.toList, s.Storable
  assignments : ∀ a ∈ m.assignments, a.Storable
  primitives : ∀ p ∈ m.primitives, p.Storable
  domains : m.domains.keys.Nodup ∧ ∀ p ∈ m.domains, p.2.Storable

theorem Netlist.form_readsBack : Netlist.form.ReadsBack Netlist.Storable where
  plain ok := .object (by
    simp [Signal.form_readsBack.arena.plain ok.signals,
      Assign.form_readsBack.list.plain ok.assignments,
      Primitive.form_readsBack.list.plain ok.primitives,
      Domain.form_readsBack.table.plain ok.domains])
  read {m _} ok room := by
    obtain ⟨depth, rfl, inner⟩ := Json.nesting_object_le.mp room
    have signals := Signal.form_readsBack.arena.need ok.signals (inner ("signals", _) (by simp))
    have assignments :=
      Assign.form_readsBack.list.need ok.assignments (inner ("assignments", _) (by simp))
    have primitives :=
      Primitive.form_readsBack.list.need ok.primitives (inner ("specials", _) (by simp))
    have domains := Domain.form_readsBack.table.need ok.domains (inner ("domains", _) (by simp))
    exact record?_bind rfl (by decide) (by simp [signals, assignments, primitives, domains])

end Host

end NetBridge
