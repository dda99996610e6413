import NetBridge.Guest.Form
import NetBridge.Proofs.Json.Form

/-! # Guest netlists read back -/
namespace NetBridge

open Form

theorem UnaryOp.form_readsBack : UnaryOp.form.ReadsBack fun _ => True :=
  choice_readsBack fun op => by cases op <;> decide

theorem BinaryOp.form_readsBack : BinaryOp.form.ReadsBack fun _ => True :=
  choice_readsBack fun op => by cases op <;> decide

namespace Guest

def Signal.Storable (s : Signal) : Prop := s.shape.Storable

theorem Signal.form_readsBack : Signal.form.ReadsBack Signal.Storable where
  plain ok := .object (by simp [shape_readsBack.plain ok])
  read {s _} ok room := by
    obtain ⟨depth, rfl, inner⟩ := Json.nesting_object_le.mp room
    have shape := shape_readsBack.need ok (inner ("shape", _) (by simp))
    exact record?_bind rfl (by decide) (by simp [shape])

def Target.Storable : Target → Prop
  | signal id => id.Storable
  | clock _ | reset _ => True

theorem Target.form_readsBack : Target.form.ReadsBack Target.Storable where
  plain {t} ok := by
    cases t with
    | signal id => exact .object (by simpa using key_readsBack.plain ok)
    | clock domain | reset domain => exact .object (by simp)
  read {t _} ok room := by
    cases t with
    | signal id =>
      obtain ⟨depth, rfl, inner⟩ := Json.nesting_object_le.mp room
      have id := key_readsBack.read ok (inner _ List.mem_cons_self)
      exact variant?_bind (carried_bind id signal)
    | clock domain | reset domain =>
      obtain ⟨depth, rfl, -⟩ := Json.nesting_object_le.mp room
      rfl

structure ClockDomain.Storable (d : ClockDomain) : Prop where
  clk : d.clk.Storable
  rst : d.rst.Storable

theorem ClockDomain.form_readsBack : ClockDomain.form.ReadsBack ClockDomain.Storable where
  plain ok := .object (by simp [key_readsBack.plain ok.clk, key_readsBack.plain ok.rst])
  read {d _} ok room := by
    obtain ⟨depth, rfl, -⟩ := Json.nesting_object_le.mp room
    exact record?_bind rfl (by decide) (by simp [need_key ok.clk, need_key ok.rst])

namespace Expr

mutual

/-- Keys, widths and bounds are numbers of 32 bits, in every operand. -/
def Storable : Expr → Prop
  | signal id => id.Storable
  | const _ shape => shape.Storable
  | unary _ operand => Storable operand
  | binary _ left right => Storable left ∧ Storable right
  | slice value start stop => Storable value ∧ start < 2 ^ 32 ∧ stop < 2 ^ 32
  | concat parts => PartsStorable parts
  | mux select whenSet whenClear => Storable select ∧ Storable whenSet ∧ Storable whenClear

def PartsStorable : List Expr → Prop
  | [] => True
  | e :: rest => Storable e ∧ PartsStorable rest

end

theorem partsToJson_eq (parts : List Expr) : partsToJson parts = parts.map toJson := by
  induction parts with
  | nil => rfl
  | cons e rest ih => rw [partsToJson, ih, List.map_cons]

mutual

theorem plain_toJson : ∀ {e : Expr}, e.Storable → e.toJson.Plain
  | signal _, ok => .object (by simpa using key_readsBack.plain ok)
  | const _ _, ok => .variant (by simp [shape_readsBack.plain ok])
  | unary _ operand, ok =>
    .variant (by simp [UnaryOp.form_readsBack.plain, plain_toJson (e := operand) ok])
  | binary _ _ _, ok =>
    .variant (by
      simp [BinaryOp.form_readsBack.plain, plain_toJson ok.1, plain_toJson ok.2])
  | slice _ _ _, ok =>
    .variant (by simp [plain_toJson ok.1, plain_nat ok.2.1, plain_nat ok.2.2])
  | concat parts, ok =>
    .object (by simpa [partsToJson_eq] using plain_parts (show PartsStorable parts from ok))
  | mux _ _ _, ok =>
    .variant (by simp [plain_toJson ok.1, plain_toJson ok.2.1, plain_toJson ok.2.2])

theorem plain_parts : ∀ {parts : List Expr}, PartsStorable parts → ∀ e ∈ parts, e.toJson.Plain
  | [], _ => by simp
  | _ :: _, ok => List.forall_mem_cons.mpr ⟨plain_toJson ok.1, plain_parts ok.2⟩

end

mutual

/-- Every operand stands two containers deeper, and is read with two less to enter. -/
theorem ofJson_toJson : ∀ {e : Expr}, e.Storable → ∀ {depth : Nat}, e.toJson.nesting ≤ depth →
    ofJson depth e.toJson = some e
  | signal id, ok, _, room => by
    obtain ⟨depth, rfl, -⟩ := Json.nesting_object_le.mp room
    have id (depth : Nat) := key_readsBack.read (a := id) ok (Nat.zero_le depth)
    -- With one container left the reader knows signals only, and they need no more.
    cases depth with
    | zero => exact variant?_bind (carried_bind (id 0) signal)
    | succ depth => exact variant?_bind (carried_bind (id depth) signal)
  | const v s, ok, _, room => by
    obtain ⟨depth, rfl, inner⟩ := Json.nesting_variant_le.mp room
    have shape := shape_readsBack.need (a := s) ok (inner ("shape", _) (by simp))
    refine variant?_bind ?_
    exact fields?_bind rfl (by decide) (by simp [shape])
  | unary op operand, ok, _, room => by
    obtain ⟨depth, rfl, inner⟩ := Json.nesting_variant_le.mp room
    have op := UnaryOp.form_readsBack.need (a := op) trivial (Nat.zero_le depth)
    have operand := ofJson_toJson (e := operand) ok (inner ("operand", _) (by simp))
    refine variant?_bind ?_
    exact fields?_bind rfl (by decide) (by simp [op, operand])
  | binary op left right, ok, _, room => by
    obtain ⟨depth, rfl, inner⟩ := Json.nesting_variant_le.mp room
    have op := BinaryOp.form_readsBack.need (a := op) trivial (Nat.zero_le depth)
    have left := ofJson_toJson ok.1 (inner ("lhs", _) (by simp))
    have right := ofJson_toJson ok.2 (inner ("rhs", _) (by simp))
    refine variant?_bind ?_
    exact fields?_bind rfl (by decide) (by simp [op, left, right])
  | slice value start stop, ok, _, room => by
    obtain ⟨depth, rfl, inner⟩ := Json.nesting_variant_le.mp room
    have value := ofJson_toJson ok.1 (inner ("value", _) (by simp))
    refine variant?_bind ?_
    exact fields?_bind rfl (by decide) (by simp [value, need_nat ok.2.1, need_nat ok.2.2])
  | concat parts, ok, _, room => by
    obtain ⟨_, rfl, payload⟩ := Json.nesting_object_le.mp room
    obtain ⟨depth, rfl, inner⟩ := Json.nesting_array_le.mp (payload _ List.mem_cons_self)
    rw [partsToJson_eq, List.forall_mem_map] at inner
    have stored : PartsStorable parts := ok
    have read := Json.mapM_inverse fun e he => ofJson_parts stored e he (inner e he)
    rw [toJson, partsToJson_eq]
    exact variant?_bind (carried_bind read concat)
  | mux select whenSet whenClear, ok, _, room => by
    obtain ⟨depth, rfl, inner⟩ := Json.nesting_variant_le.mp room
    have select := ofJson_toJson ok.1 (inner ("sel", _) (by simp))
    have whenSet := ofJson_toJson ok.2.1 (inner ("then", _) (by simp))
    have whenClear := ofJson_toJson ok.2.2 (inner ("otherwise", _) (by simp))
    refine variant?_bind ?_
    exact fields?_bind rfl (by decide) (by simp [select, whenSet, whenClear])

theorem ofJson_parts : ∀ {parts : List Expr}, PartsStorable parts → ∀ e ∈ parts,
    ∀ {depth : Nat}, e.toJson.nesting ≤ depth → ofJson depth e.toJson = some e
  | [], _ => by simp
  | _ :: _, ok => List.forall_mem_cons.mpr ⟨ofJson_toJson ok.1, ofJson_parts ok.2⟩

end

theorem form_readsBack : form.ReadsBack Storable where
  plain := plain_toJson
  read ok room := ofJson_toJson ok room

end Expr

structure Statement.Storable (s : Statement) : Prop where
  target : s.target.Storable
  value : s.value.Storable

theorem Statement.form_readsBack : Statement.form.ReadsBack Statement.Storable where
  plain {s} ok := by
    have domain := optional_text_readsBack.plain (a := s.domain) trivial
    exact .object (by simp [key_readsBack.plain ok.target, Expr.plain_toJson ok.value, domain])
  read {s _} ok room := by
    obtain ⟨depth, rfl, inner⟩ := Json.nesting_object_le.mp room
    have value : need Expr.form depth (some s.value.toJson) = some s.value :=
      Expr.form_readsBack.need ok.value (inner ("value", s.value.toJson) (by simp))
    have domain := optional_text_readsBack.read (a := s.domain) trivial
      (inner ("domain", _) (by simp))
    exact record?_bind rfl (by decide) (by simp [need_key ok.target, value, allow, domain])

structure Netlist.Storable (m : Netlist) : Prop where
  signals : ∀ s ∈ m.signals.toList, s.Storable
  domains : m.domains.keys.Nodup ∧ ∀ p ∈ m.domains, p.2.Storable
  statements : ∀ s ∈ m.statements, s.Storable

theorem Netlist.form_readsBack : Netlist.form.ReadsBack Netlist.Storable where
  plain ok := .object (by
    simp [Signal.form_readsBack.arena.plain ok.signals,
      ClockDomain.form_readsBack.table.plain ok.domains,
      Statement.form_readsBack.list.plain ok.statements])
  read {m _} ok room := by
    obtain ⟨depth, rfl, inner⟩ := Json.nesting_object_le.mp room
    have signals := Signal.form_readsBack.arena.need ok.signals (inner ("signals", _) (by simp))
    have domains := ClockDomain.form_readsBack.table.need ok.domains (inner ("domains", _) (by simp))
    have statements :=
      Statement.form_readsBack.list.need ok.statements (inner ("statements", _) (by simp))
    exact record?_bind rfl (by decide) (by simp [signals, domains, statements])

end Guest

end NetBridge
